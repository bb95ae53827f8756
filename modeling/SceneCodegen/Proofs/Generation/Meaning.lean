import SceneCodegen.Generation.Generator
import SceneCodegen.Proofs.Generation.Levels
import SceneCodegen.Proofs.Graph.Listing
import SceneCodegen.Proofs.Scan.Known

/-!
# What a generation comes to

A project is given by listings of its manifests, its scenes and its types. All streams of a
generation come to listings made from these, step by step and without a graph, and the run of a
generation to the fragments and diagnostics they hold.
-/
namespace SceneCodegen
open SceneCodegen.Graph Generation

structure Project where
  manifests : Listing String Snapshot
  scenes : Listing String Snapshot
  types : Listing String TypeSymbol

namespace Project
variable (c : Generation.Config) (p : Project)

def manifestEntries : Listing String (List Manifest.Entry) :=
  p.manifests.map fun s => { value := some (Manifest.parse s.lines) }

def entries : Listing EntryKey Manifest.Entry :=
  p.manifestEntries.flat (sortedBy compareEntryKeys) fun es => es.map fun e => ((e.kind, e.name), e)

def singletonEntries : Listing EntryKey Manifest.Entry :=
  p.entries.map fun e => { value := ofKind .singleton e }

def inputActionEntries : Listing EntryKey Manifest.Entry :=
  p.entries.map fun e => { value := ofKind .inputAction e }

def sceneAssets : Listing String Scene.Asset :=
  p.scenes.map fun s => { value := Scene.parse c.scriptExtension s.resPath s.lines }

def connections : Listing ConnectionKey Scene.Connection :=
  (p.sceneAssets c).flat (sortedBy compareConnectionKeys) (·.connections)

/-- The types a scan can come upon. -/
def known : TypeResolver Id :=
  ⟨fun name => p.types.item (lookupNameOf name), p.types.keys.length⟩

def scannedClasses : Listing String ScannedClass :=
  p.types.map fun s => { value := (Scan.scanClass p.known s).run }

def singletonClasses : Listing String SingletonRecord :=
  p.scannedClasses.map fun s => { value := s.singleton }

def classRecords : Listing String ClassRecord :=
  p.scannedClasses.map fun s => { value := methodfulRecord s }

def singletonPairs : Listing EntryKey (JoinPair Manifest.Entry SingletonRecord) :=
  p.singletonEntries.join (fun e => [e.name]) (·.name) p.singletonClasses

def singletonSlots : Listing EntryKey SingletonSlot := p.singletonPairs.map (slotOf c)

def classConnections : Listing String (JoinPair ClassRecord Scene.Connection) :=
  p.classRecords.join (fun r => scriptResPaths c r.sourcePaths) (·.scriptPath) (p.connections c)

def registry : SingletonRegistry := registryOf ((p.singletonSlots c).items.map Prod.snd)

def singletonFragments : Listing EntryKey GeneratedFragment :=
  (p.singletonSlots c).map fun s => { value := Fragment.renderSingleton s }

/-- The helper fragment of a class, or what is reported in its place. -/
def helperOutcome (s : ScannedClass) : Outcome GeneratedFragment :=
  match Fragment.renderHelpers s with
  | .ok fragment => { value := fragment }
  | .error d => { diagnostics := [d] }

def helperFragments : Listing String GeneratedFragment := p.scannedClasses.map helperOutcome

def notifyFragments : Listing String GeneratedFragment :=
  p.scannedClasses.map fun s => { value := Fragment.renderNotify s }

def connectionFragments : Listing String GeneratedFragment :=
  (p.classConnections c).map fun pair => { value := connectionFragment pair }

def unregisteredSingletons : Listing String Unit :=
  p.scannedClasses.map fun s => checkRegistered c s p.singletonEntries.items

def inputActionFragment : Option GeneratedFragment :=
  Fragment.renderInputActions (uniqueEntries (p.inputActionEntries.items.map Prod.snd))

/-- All fragments that are made, before those of one name are made out. -/
def candidates : List GeneratedFragment :=
  (Fragment.renderRegistry (p.registry c)).toList ++ p.inputActionFragment.toList ++
    (p.singletonFragments c).items.map Prod.snd ++ p.helperFragments.items.map Prod.snd ++
    p.notifyFragments.items.map Prod.snd ++ (p.connectionFragments c).items.map Prod.snd

def assembled : Assembled := assemble (p.candidates c)

def diagnostics : List Diagnostic :=
  Diagnostic.sorted (p.manifestEntries.diagnostics ++ (p.sceneAssets c).diagnostics ++
    p.scannedClasses.diagnostics ++ (p.singletonSlots c).diagnostics ++
    (p.unregisteredSingletons c).diagnostics ++ (p.singletonFragments c).diagnostics ++
    p.helperFragments.diagnostics ++ p.notifyFragments.diagnostics ++
    (p.connectionFragments c).diagnostics ++ (p.assembled c).2)

def result : GenerationResult := ⟨(p.assembled c).1, p.diagnostics c⟩

/-- All fragments that are made are read before those of one name are made out. -/
def candidatesProgram : Query (List GeneratedFragment) := do
  let registry : Option GeneratedFragment ← readNode .registryFragment
  let inputActions : Option GeneratedFragment ← readNode .inputActionFragment
  let singletons ← fragmentsOf .singleton
  let helpers ← fragmentsOf .helper
  let notify ← fragmentsOf .notify
  let connections ← fragmentsOf .connection
  return registry.toList ++ inputActions.toList ++ singletons ++ helpers ++ notify ++ connections

theorem assembledProgram_eq : assembledProgram = assemble <$> candidatesProgram := by
  simp only [assembledProgram, candidatesProgram, map_bind, map_pure]

/-- The inputs of a graph are those of a project. -/
structure Feeds (value : (k : Generation.Node) → Value k) : Prop where
  manifests : manifestFiles.Lists value p.manifests
  scenes : sceneFiles.Lists value p.scenes
  types : typeSymbols.Lists value p.types

section
variable {c : Generation.Config} {p : Project} {size : Nat} {inputs : Inputs Generation.Node Value}
  {value : (k : Generation.Node) → Value k} (hvalue : Valuation (rules c size) inputs value)
  (hp : p.Feeds value)
include hvalue hp

theorem manifestEntries_lists : Generation.manifestEntries.Lists value p.manifestEntries :=
  Family.lists_map (w := fun n => value (.manifestEntries n)) (fun _ => rfl)
    (fun n => hvalue.query (.manifestEntries n) _ rfl) hp.manifests fun _ _ _ => rfl

theorem entries_lists : Generation.entries.Lists value p.entries :=
  Family.lists_flat (w := fun n => value (.manifestEntry n)) (fun _ => rfl)
    (fun n => hvalue.query (.manifestEntry n) _ rfl) (manifestEntries_lists hvalue hp)
    (fun _ => rfl) fun _ => rfl

theorem singletonEntries_lists : Generation.singletonEntries.Lists value p.singletonEntries :=
  Family.lists_map (w := fun n => value (.singletonEntries n)) (fun _ => rfl)
    (fun n => hvalue.query (.singletonEntries n) _ rfl) (entries_lists hvalue hp) fun _ _ _ => rfl

theorem inputActionEntries_lists :
    Generation.inputActionEntries.Lists value p.inputActionEntries :=
  Family.lists_map (w := fun n => value (.inputActionEntries n)) (fun _ => rfl)
    (fun n => hvalue.query (.inputActionEntries n) _ rfl) (entries_lists hvalue hp)
    fun _ _ _ => rfl

theorem sceneAssets_lists : Generation.sceneAssets.Lists value (p.sceneAssets c) :=
  Family.lists_map (w := fun n => value (.sceneAssets n)) (fun _ => rfl)
    (fun n => hvalue.query (.sceneAssets n) _ rfl) hp.scenes fun _ _ _ => rfl

theorem connections_lists : Generation.connections.Lists value (p.connections c) :=
  Family.lists_flat (w := fun n => value (.sceneConnections n)) (fun _ => rfl)
    (fun n => hvalue.query (.sceneConnections n) _ rfl) (sceneAssets_lists hvalue hp)
    (fun _ => rfl) fun _ => rfl

omit hvalue in
theorem knows_types (hsize : size = p.types.keys.length) :
    TypeResolver.Knows value (resolver size) p.known where
  find name := hp.types.item (lookupNameOf name)
  size := hsize

theorem scannedClasses_lists (hsize : size = p.types.keys.length) :
    Generation.scannedClasses.Lists value p.scannedClasses := by
  refine Family.lists_map (w := fun n => value (.scannedClasses n)) (fun _ => rfl)
    (fun n => hvalue.query (.scannedClasses n) _ rfl) hp.types fun _ s _ => ?_
  have hscan := ((knows_types hp hsize).scanClass s).map fun scanned => Outcome.mk scanned []
  exact hscan.catching _

variable (hsize : size = p.types.keys.length)
include hsize

theorem singletonClasses_lists : Generation.singletonClasses.Lists value p.singletonClasses :=
  Family.lists_map (w := fun n => value (.singletonClasses n)) (fun _ => rfl)
    (fun n => hvalue.query (.singletonClasses n) _ rfl) (scannedClasses_lists hvalue hp hsize)
    fun _ _ _ => rfl

theorem classRecords_lists : Generation.classRecords.Lists value p.classRecords :=
  Family.lists_map (w := fun n => value (.classRecords n)) (fun _ => rfl)
    (fun n => hvalue.query (.classRecords n) _ rfl) (scannedClasses_lists hvalue hp hsize)
    fun _ _ _ => rfl

theorem singletonPairs_lists : Generation.singletonPairs.Lists value p.singletonPairs :=
  Family.lists_join (w := fun n => value (.singletonPairs n)) (fun _ => rfl)
    (fun n => hvalue.query (.singletonPairs n) _ rfl) (singletonEntries_lists hvalue hp)
    (singletonClasses_lists hvalue hp hsize) (fun _ => rfl) fun _ => rfl

theorem singletonSlots_lists : Generation.singletonSlots.Lists value (p.singletonSlots c) :=
  Family.lists_map (w := fun n => value (.singletonSlots n)) (fun _ => rfl)
    (fun n => hvalue.query (.singletonSlots n) _ rfl) (singletonPairs_lists hvalue hp hsize)
    fun _ _ _ => rfl

theorem classConnections_lists : Generation.classConnections.Lists value (p.classConnections c) :=
  Family.lists_join (w := fun n => value (.classConnections n)) (fun _ => rfl)
    (fun n => hvalue.query (.classConnections n) _ rfl) (classRecords_lists hvalue hp hsize)
    (connections_lists hvalue hp) (fun _ => rfl) fun _ => rfl

theorem singletonFragments_lists :
    Generation.singletonFragments.Lists value (p.singletonFragments c) :=
  Family.lists_map (w := fun n => value (.singletonFragments n)) (fun _ => rfl)
    (fun n => hvalue.query (.singletonFragments n) _ rfl) (singletonSlots_lists hvalue hp hsize)
    fun _ _ _ => rfl

theorem helperFragments_lists : Generation.helperFragments.Lists value p.helperFragments := by
  refine Family.lists_map (w := fun n => value (.helperFragments n)) (fun _ => rfl)
    (fun n => hvalue.query (.helperFragments n) _ rfl) (scannedClasses_lists hvalue hp hsize)
    fun _ s _ => ?_
  unfold renderHelpersProgram helperOutcome
  cases Fragment.renderHelpers s <;> rfl

theorem notifyFragments_lists : Generation.notifyFragments.Lists value p.notifyFragments :=
  Family.lists_map (w := fun n => value (.notifyFragments n)) (fun _ => rfl)
    (fun n => hvalue.query (.notifyFragments n) _ rfl) (scannedClasses_lists hvalue hp hsize)
    fun _ _ _ => rfl

theorem connectionFragments_lists :
    Generation.connectionFragments.Lists value (p.connectionFragments c) :=
  Family.lists_map (w := fun n => value (.connectionFragments n)) (fun _ => rfl)
    (fun n => hvalue.query (.connectionFragments n) _ rfl) (classConnections_lists hvalue hp hsize)
    fun _ _ _ => rfl

omit hsize in
theorem singletonEntryList_eq :
    value .singletonEntryList = p.singletonEntries.items :=
  (hvalue.query .singletonEntryList _ rfl).unique (singletonEntries_lists hvalue hp).items

theorem unregisteredSingletons_lists :
    Generation.unregisteredSingletons.Lists value (p.unregisteredSingletons c) := by
  refine Family.lists_map (w := fun n => value (.unregisteredSingletons n)) (fun _ => rfl)
    (fun n => hvalue.query (.unregisteredSingletons n) _ rfl) (scannedClasses_lists hvalue hp hsize)
    fun _ s _ => ?_
  rw [← singletonEntryList_eq hvalue hp]
  rfl

theorem singletonRegistry_eq : value .singletonRegistry = p.registry c := by
  have hslots : value .singletonSlotList = (p.singletonSlots c).items :=
    (hvalue.query .singletonSlotList _ rfl).unique (singletonSlots_lists hvalue hp hsize).items
  rw [registry, ← hslots]
  exact (hvalue.query .singletonRegistry _ rfl).unique rfl

theorem registryFragment_eq :
    value .registryFragment = Fragment.renderRegistry (p.registry c) := by
  rw [← singletonRegistry_eq hvalue hp hsize]
  exact (hvalue.query .registryFragment _ rfl).unique rfl

omit hsize in
theorem inputActionFragment_eq : value .inputActionFragment = p.inputActionFragment := by
  have hactions : value .inputActionList = p.inputActionEntries.items :=
    (hvalue.query .inputActionList _ rfl).unique (inputActionEntries_lists hvalue hp).items
  rw [inputActionFragment, ← hactions]
  exact (hvalue.query .inputActionFragment _ rfl).unique rfl

theorem candidatesProgram_comesTo : candidatesProgram.ComesTo value (p.candidates c) := by
  have hsingleton : value (.fragmentList .singleton) = (p.singletonFragments c).items :=
    (hvalue.query (.fragmentList .singleton) _ rfl).unique
      (singletonFragments_lists hvalue hp hsize).items
  have hhelper : value (.fragmentList .helper) = p.helperFragments.items :=
    (hvalue.query (.fragmentList .helper) _ rfl).unique
      (helperFragments_lists hvalue hp hsize).items
  have hnotify : value (.fragmentList .notify) = p.notifyFragments.items :=
    (hvalue.query (.fragmentList .notify) _ rfl).unique
      (notifyFragments_lists hvalue hp hsize).items
  have hconnection : value (.fragmentList .connection) = (p.connectionFragments c).items :=
    (hvalue.query (.fragmentList .connection) _ rfl).unique
      (connectionFragments_lists hvalue hp hsize).items
  rw [candidates, ← registryFragment_eq hvalue hp hsize,
    ← inputActionFragment_eq hvalue hp, ← hsingleton, ← hhelper, ← hnotify, ← hconnection]
  rfl

theorem generatedFragments_eq : value .generatedFragments = p.assembled c := by
  refine (hvalue.query .generatedFragments _ rfl).unique ?_
  rw [assembledProgram_eq]
  exact (candidatesProgram_comesTo hvalue hp hsize).map assemble

theorem pipelineDiagnostics_eq : value .pipelineDiagnostics = p.diagnostics c := by
  refine (hvalue.query .pipelineDiagnostics _ rfl).unique ?_
  rw [diagnostics, ← generatedFragments_eq hvalue hp hsize]
  exact (manifestEntries_lists hvalue hp).diagnostics.bind <|
    (sceneAssets_lists hvalue hp).diagnostics.bind <|
    (scannedClasses_lists hvalue hp hsize).diagnostics.bind <|
    (singletonSlots_lists hvalue hp hsize).diagnostics.bind <|
    (unregisteredSingletons_lists hvalue hp hsize).diagnostics.bind <|
    (singletonFragments_lists hvalue hp hsize).diagnostics.bind <|
    (helperFragments_lists hvalue hp hsize).diagnostics.bind <|
    (notifyFragments_lists hvalue hp hsize).diagnostics.bind <|
    (connectionFragments_lists hvalue hp hsize).diagnostics.bind rfl

/-- All fragments and diagnostics of a generation are those of its project. -/
theorem resultProgram_comesTo : Generator.resultProgram.ComesTo value (p.result c) := by
  rw [result, ← generatedFragments_eq hvalue hp hsize, ← pipelineDiagnostics_eq hvalue hp hsize]
  rfl

end
end Project
end SceneCodegen
