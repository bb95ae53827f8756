import SceneCodegen.Fragment.ConnectionList
import SceneCodegen.Fragment.Helper
import SceneCodegen.Fragment.InputAction
import SceneCodegen.Fragment.Notify
import SceneCodegen.Generation.Node
import SceneCodegen.Scan.Scanner

/-!
# Rules of a generation

What each node is computed from. Manifests, scenes and declared types are read item by item;
singletons of the manifest are joined with singleton classes by name, and classes with connections
by script path; fragments are rendered item by item, and at the end put together in the order of
their names. Whatever a step reads, it reads through the graph.
-/
namespace SceneCodegen.Generation
open SceneCodegen.Graph

structure Config where
  /-- Where relative paths start. -/
  directory : Path := ⟨.root, []⟩
  projectRoot : String
  manifestName : String := "project.godot"
  sceneExtension : String := ".tscn"
  scriptExtension : String := ".cs"
  deriving DecidableEq, Repr

abbrev Query (α : Type) := Program Node Value α

def readNode (n : Node) : Query (Value n) := Program.get n

def manifestFilesFamily : Family Node Value (InputNode.Value String Snapshot) :=
  ⟨.manifestFiles, fun _ v => v, fun _ v => .ok v⟩

def sceneFilesFamily : Family Node Value (InputNode.Value String Snapshot) :=
  ⟨.sceneFiles, fun _ v => v, fun _ v => .ok v⟩

def typeSymbolsFamily : Family Node Value (InputNode.Value String TypeSymbol) :=
  ⟨.typeSymbols, fun _ v => v, fun _ v => .ok v⟩

def manifestEntriesFamily : Family Node Value (MapNode.Value String (List Manifest.Entry)) :=
  ⟨.manifestEntries, fun _ v => v, fun _ v => .ok v⟩

def manifestEntryFamily :
    Family Node Value (FlatNode.Value String EntryKey EntryPart Manifest.Entry) :=
  ⟨.manifestEntry, fun _ v => v, fun _ v => .ok v⟩

def singletonEntriesFamily : Family Node Value (MapNode.Value EntryKey Manifest.Entry) :=
  ⟨.singletonEntries, fun _ v => v, fun _ v => .ok v⟩

def inputActionEntriesFamily : Family Node Value (MapNode.Value EntryKey Manifest.Entry) :=
  ⟨.inputActionEntries, fun _ v => v, fun _ v => .ok v⟩

def sceneAssetsFamily : Family Node Value (MapNode.Value String Scene.Asset) :=
  ⟨.sceneAssets, fun _ v => v, fun _ v => .ok v⟩

def sceneConnectionsFamily :
    Family Node Value (FlatNode.Value String ConnectionKey ConnectionPart Scene.Connection) :=
  ⟨.sceneConnections, fun _ v => v, fun _ v => .ok v⟩

def scannedClassesFamily : Family Node Value (MapNode.Value String ScannedClass) :=
  ⟨.scannedClasses, fun _ v => v, fun _ v => .ok v⟩

def singletonClassesFamily : Family Node Value (MapNode.Value String SingletonRecord) :=
  ⟨.singletonClasses, fun _ v => v, fun _ v => .ok v⟩

def classRecordsFamily : Family Node Value (MapNode.Value String ClassRecord) :=
  ⟨.classRecords, fun _ v => v, fun _ v => .ok v⟩

def singletonPairsFamily :
    Family Node Value (JoinNode.Value EntryKey String Manifest.Entry SingletonRecord) :=
  ⟨.singletonPairs, fun _ v => v, fun _ v => .ok v⟩

def singletonSlotsFamily : Family Node Value (MapNode.Value EntryKey SingletonSlot) :=
  ⟨.singletonSlots, fun _ v => v, fun _ v => .ok v⟩

def classConnectionsFamily :
    Family Node Value (JoinNode.Value String String ClassRecord Scene.Connection) :=
  ⟨.classConnections, fun _ v => v, fun _ v => .ok v⟩

def singletonFragmentsFamily : Family Node Value (MapNode.Value EntryKey GeneratedFragment) :=
  ⟨.singletonFragments, fun _ v => v, fun _ v => .ok v⟩

def helperFragmentsFamily : Family Node Value (MapNode.Value String GeneratedFragment) :=
  ⟨.helperFragments, fun _ v => v, fun _ v => .ok v⟩

def notifyFragmentsFamily : Family Node Value (MapNode.Value String GeneratedFragment) :=
  ⟨.notifyFragments, fun _ v => v, fun _ v => .ok v⟩

def connectionFragmentsFamily : Family Node Value (MapNode.Value String GeneratedFragment) :=
  ⟨.connectionFragments, fun _ v => v, fun _ v => .ok v⟩

def unregisteredSingletonsFamily : Family Node Value (MapNode.Value String Unit) :=
  ⟨.unregisteredSingletons, fun _ v => v, fun _ v => .ok v⟩

abbrev Items (ι α : Type) := Stream Node Value ι α

def manifestFiles : Items String Snapshot := manifestFilesFamily.inputStream
def sceneFiles : Items String Snapshot := sceneFilesFamily.inputStream
def typeSymbols : Items String TypeSymbol := typeSymbolsFamily.inputStream

def manifestEntries : Items String (List Manifest.Entry) :=
  manifestEntriesFamily.mapStream manifestFiles

def entries : Items EntryKey Manifest.Entry := manifestEntryFamily.flatStream manifestEntries
def singletonEntries : Items EntryKey Manifest.Entry := singletonEntriesFamily.mapStream entries

def inputActionEntries : Items EntryKey Manifest.Entry :=
  inputActionEntriesFamily.mapStream entries

def sceneAssets : Items String Scene.Asset := sceneAssetsFamily.mapStream sceneFiles

def connections : Items ConnectionKey Scene.Connection :=
  sceneConnectionsFamily.flatStream sceneAssets

def scannedClasses : Items String ScannedClass := scannedClassesFamily.mapStream typeSymbols

def singletonClasses : Items String SingletonRecord :=
  singletonClassesFamily.mapStream scannedClasses

def classRecords : Items String ClassRecord := classRecordsFamily.mapStream scannedClasses

def singletonPairs : Items EntryKey (JoinPair Manifest.Entry SingletonRecord) :=
  singletonPairsFamily.joinStream singletonEntries singletonClasses

def singletonSlots : Items EntryKey SingletonSlot := singletonSlotsFamily.mapStream singletonPairs

def classConnections : Items String (JoinPair ClassRecord Scene.Connection) :=
  classConnectionsFamily.joinStream classRecords connections

def singletonFragments : Items EntryKey GeneratedFragment :=
  singletonFragmentsFamily.mapStream singletonSlots

def helperFragments : Items String GeneratedFragment :=
  helperFragmentsFamily.mapStream scannedClasses

def notifyFragments : Items String GeneratedFragment :=
  notifyFragmentsFamily.mapStream scannedClasses

def connectionFragments : Items String GeneratedFragment :=
  connectionFragmentsFamily.mapStream classConnections

def unregisteredSingletons : Items String Unit :=
  unregisteredSingletonsFamily.mapStream scannedClasses

/-- The result of a step that reports nothing. -/
def quiet {β : Type} (value : Option β) : Query (Outcome β) := return { value }

def ofKind (kind : Manifest.EntryKind) (e : Manifest.Entry) : Option Manifest.Entry :=
  if e.kind == kind then some e else none

def explodeEntries (es : List Manifest.Entry) :
    Query (List ((Manifest.EntryKind × String) × Manifest.Entry)) :=
  return es.map fun e => ((e.kind, e.name), e)

/-- Cuts off type arguments: from the first angle bracket of the last line to a closing one at the
end. -/
def dropTypeArguments (name : List Char) : List Char :=
  let lastLine := (name.reverse.takeWhile (· != '\n')).reverse
  match lastLine.dropWhile (· != '<') with
  | [] => name
  | arguments =>
    if arguments.getLast? == some '>' then name.take (name.length - arguments.length) else name

def lookupNameOf (typeName : String) : String :=
  let name :=
    if Text.hasPrefix Symbol.globalPrefix typeName then
      Text.dropPrefix Symbol.globalPrefix typeName
    else typeName
  String.ofList (dropTypeArguments (Text.trimBoth Text.isBlank name.toList))

/-- Finds types through the graph, so that what a scan looked up is known. -/
def resolver (typeCount : Nat) : TypeResolver (Program Node Value) :=
  ⟨fun name => typeSymbols.item (lookupNameOf name), typeCount⟩

/-- The resource paths of a class's source files, as scenes name them. -/
def scriptResPaths (c : Config) (sourcePaths : List String) : List String :=
  sourcePaths.map fun source =>
    if Text.hasPrefix ResPath.scheme source then source
    else
      let path := Path.ofText source
      let path := if path.isAbsolute then path else (Path.ofText c.projectRoot).join path
      ResPath.ofPath c.directory (Path.ofText c.projectRoot).text path.text

def methodfulRecord (c : ScannedClass) : Option ClassRecord :=
  c.classRecord.filter fun r => !r.methods.isEmpty

def ambiguousSingleton (c : Config) (name : String) (candidates : List SingletonRecord) :
    Diagnostic :=
  let names := (candidates.map (·.fullyQualifiedName)).mergeSort (· ≤ ·)
  { id := Diagnostic.ambiguousSingleton, severity := .warning
    message := "Singleton '" ++ name ++ "' matches several declared classes (" ++
      Text.join ", " names ++ "); using an untyped slot."
    location := { path := ResPath.scheme ++ c.manifestName } }

/-- The slot of a manifest singleton: typed if exactly one class was declared for it. -/
def slotOf (c : Config) (p : JoinPair Manifest.Entry SingletonRecord) : Outcome SingletonSlot :=
  match p.right with
  | [record] => { value := some { name := p.left.name, record := some record } }
  | [] => { value := some { name := p.left.name } }
  | candidates =>
    { value := some { name := p.left.name }
      diagnostics := [ambiguousSingleton c p.left.name candidates] }

def registryOf (slots : List SingletonSlot) : SingletonRegistry :=
  .ofSlots (Table.values (slots.foldl (fun t slot => Table.setNew slot.name slot t) []))

def uniqueEntries (es : List Manifest.Entry) : List Manifest.Entry :=
  Table.values (es.foldl (fun t e => Table.setNew e.name e t) [])

def renderHelpersProgram (registry : Fragment.EmitterRegistry) (c : ScannedClass) :
    Query (Outcome GeneratedFragment) :=
  match Fragment.renderHelpers c registry with
  | .ok fragment => quiet fragment
  | .error d => .fail (.declaration d)

def connectionFragment (p : JoinPair ClassRecord Scene.Connection) : Option GeneratedFragment :=
  if p.right.isEmpty then none else Fragment.renderConnectionList p.left p.right

def unregistered (c : Config) (scanned : ScannedClass) : Diagnostic :=
  { id := Diagnostic.unregisteredSingleton, severity := .info
    message := "Class " ++ scanned.qualifiedName ++ " is marked as a singleton but " ++
      c.manifestName ++ " does not register it."
    location := ((scanned.membersOf .singletonClass).head?.map (·.location)).getD {} }

/-- Reports a singleton class whose name the manifest does not register. -/
def checkRegistered (c : Config) (scanned : ScannedClass)
    (registered : List (EntryKey × Manifest.Entry)) : Outcome Unit :=
  match scanned.singleton with
  | none => {}
  | some record =>
    if registered.any fun (_, e) => e.name == record.name then {}
    else { diagnostics := [unregistered c scanned] }

def fragmentLe (a b : GeneratedFragment) : Bool :=
  ((compare a.hintName b.hintName).then (compare a.text b.text)).isLE

def duplicateHintName (f : GeneratedFragment) : Diagnostic :=
  { id := Diagnostic.duplicateHintName, severity := .error
    message := "Two generated fragments share the name " ++ f.hintName ++ "; only one was kept."
    location := { path := f.hintName } }

/-- Keeps the first fragment of each name and reports each further one. -/
def keepFirst (kept : List GeneratedFragment) (reported : List Diagnostic) :
    List GeneratedFragment → Assembled
  | [] => (kept, reported)
  | f :: rest =>
    if kept.any (·.hintName == f.hintName) then
      keepFirst kept (reported ++ [duplicateHintName f]) rest
    else keepFirst (kept ++ [f]) reported rest

/-- All fragments in the order of their names; of two with one name, that of the lesser text. -/
def assemble (candidates : List GeneratedFragment) : Assembled :=
  keepFirst [] [] (candidates.mergeSort fragmentLe)

def fragmentsOf (kind : FragmentKind) : Query (List GeneratedFragment) := do
  let fragments : List (kind.Key × GeneratedFragment) ← readNode (.fragmentList kind)
  return fragments.map Prod.snd

def assembledProgram : Query Assembled := do
  let registry : Option GeneratedFragment ← readNode .registryFragment
  let inputActions : Option GeneratedFragment ← readNode .inputActionFragment
  let singletons ← fragmentsOf .singleton
  let helpers ← fragmentsOf .helper
  let notify ← fragmentsOf .notify
  let connections ← fragmentsOf .connection
  return assemble (registry.toList ++ inputActions.toList ++ singletons ++ helpers ++ notify ++
    connections)

def diagnosticsProgram : Query (List Diagnostic) := do
  let manifests ← manifestEntries.diagnostics
  let scenes ← sceneAssets.diagnostics
  let classes ← scannedClasses.diagnostics
  let slots ← singletonSlots.diagnostics
  let unregistered ← unregisteredSingletons.diagnostics
  let singletons ← singletonFragments.diagnostics
  let helpers ← helperFragments.diagnostics
  let notify ← notifyFragments.diagnostics
  let connections ← connectionFragments.diagnostics
  let assembled : Assembled ← readNode .generatedFragments
  return Diagnostic.sorted (manifests ++ scenes ++ classes ++ slots ++ unregistered ++ singletons ++
    helpers ++ notify ++ connections ++ assembled.2)

/-- The rules of a generation whose helpers are made by `registry`, where no more than `typeCount`
types are known. -/
def rulesWith (registry : Fragment.EmitterRegistry) (c : Config) (typeCount : Nat) :
    Rules Node Value
  | .manifestFiles n => .input n.absent
  | .sceneFiles n => .input n.absent
  | .typeSymbols n => .input n.absent
  | .manifestEntries n =>
    .query (mapProgram manifestEntriesFamily manifestFiles
      (fun s => quiet (some (Manifest.parse s.lines))) n)
  | .manifestEntry n =>
    .query (flatProgram .pairs manifestEntryFamily manifestEntries explodeEntries n)
  | .singletonEntries n =>
    .query (mapProgram singletonEntriesFamily entries (fun e => quiet (ofKind .singleton e)) n)
  | .inputActionEntries n =>
    .query (mapProgram inputActionEntriesFamily entries (fun e => quiet (ofKind .inputAction e)) n)
  | .singletonEntryList => .query singletonEntries.items
  | .sceneAssets n =>
    .query (mapProgram sceneAssetsFamily sceneFiles
      (fun s => quiet (Scene.parse c.scriptExtension s.resPath s.lines)) n)
  | .sceneConnections n =>
    .query (flatProgram .pairs sceneConnectionsFamily sceneAssets (fun a => return a.connections) n)
  | .scannedClasses n =>
    .query (mapProgram scannedClassesFamily typeSymbols
      (fun s => do quiet (← Scan.scanClass (resolver typeCount) s)) n)
  | .singletonClasses n =>
    .query (mapProgram singletonClassesFamily scannedClasses (fun s => quiet s.singleton) n)
  | .classRecords n =>
    .query (mapProgram classRecordsFamily scannedClasses (fun s => quiet (methodfulRecord s)) n)
  | .singletonPairs n =>
    .query (joinProgram singletonPairsFamily singletonEntries singletonClasses
      (fun e => return [e.name]) (fun r => return r.name) n)
  | .singletonSlots n =>
    .query (mapProgram singletonSlotsFamily singletonPairs (fun p => return slotOf c p) n)
  | .classConnections n =>
    .query (joinProgram classConnectionsFamily classRecords connections
      (fun r => return scriptResPaths c r.sourcePaths) (fun r => return r.scriptPath) n)
  | .singletonSlotList => .query singletonSlots.items
  | .singletonRegistry =>
    .query (do
      let slots : List (EntryKey × SingletonSlot) ← readNode .singletonSlotList
      return registryOf (slots.map Prod.snd))
  | .inputActionList => .query inputActionEntries.items
  | .registryFragment =>
    .query (do return Fragment.renderRegistry (← readNode .singletonRegistry))
  | .inputActionFragment =>
    .query (do
      let actions : List (EntryKey × Manifest.Entry) ← readNode .inputActionList
      return Fragment.renderInputActions (uniqueEntries (actions.map Prod.snd)))
  | .singletonFragments n =>
    .query (mapProgram singletonFragmentsFamily singletonSlots
      (fun s => quiet (Fragment.renderSingleton s)) n)
  | .helperFragments n =>
    .query (mapProgram helperFragmentsFamily scannedClasses (renderHelpersProgram registry) n)
  | .notifyFragments n =>
    .query (mapProgram notifyFragmentsFamily scannedClasses
      (fun s => quiet (Fragment.renderNotify s)) n)
  | .connectionFragments n =>
    .query (mapProgram connectionFragmentsFamily classConnections
      (fun p => quiet (connectionFragment p)) n)
  | .unregisteredSingletons n =>
    .query (mapProgram unregisteredSingletonsFamily scannedClasses
      (fun s => do return checkRegistered c s (← readNode .singletonEntryList)) n)
  | .fragmentList .singleton => .query singletonFragments.items
  | .fragmentList .helper => .query helperFragments.items
  | .fragmentList .notify => .query notifyFragments.items
  | .fragmentList .connection => .query connectionFragments.items
  | .generatedFragments => .query assembledProgram
  | .pipelineDiagnostics => .query diagnosticsProgram

/-- The rules of a generation with the standard handlers. -/
abbrev rules : Config → Nat → Rules Node Value := rulesWith .standard

end SceneCodegen.Generation
