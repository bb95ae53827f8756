import SceneCodegen.Generation.Rules
import SceneCodegen.Symbol.SymbolTable

/-!
# Generators

A generator holds what was read of a project and what was computed from it. Its inputs are replaced
or changed from outside; a run reads all fragments and all diagnostics as one pass, which computes
anew only what the changes since the last run reach.
-/
namespace SceneCodegen
open SceneCodegen.Graph Generation

structure Generator where
  config : Generation.Config
  /-- What handles the members of classes. -/
  emitters : Fragment.EmitterRegistry := .standard
  store : Store Generation.Node Generation.Value := {}

structure GenerationResult where
  /-- In the order of their names, each name once. -/
  fragments : List GeneratedFragment
  diagnostics : List Diagnostic
  deriving DecidableEq, Repr

namespace GenerationResult

def hasErrors (r : GenerationResult) : Bool := r.diagnostics.any (·.isError)

def hintNames (r : GenerationResult) : List String := r.fragments.map (·.hintName)

def fragment? (hintName : String) (r : GenerationResult) : Option GeneratedFragment :=
  r.fragments.find? (·.hintName == hintName)

end GenerationResult

namespace Generator

def changedKeys (r : Except (Failure Generation.Node) (List String)) : List String :=
  match r with
  | .ok keys => sortedBy compare keys
  | .error _ => []

def snapshotTable (snapshots : List Snapshot) : Table String (Option Snapshot) :=
  .ofList (snapshots.map fun s => (s.path, some s))

/-- The manifests among snapshots, and the scenes. What is neither is dropped. -/
def sortAssets (c : Generation.Config) (snapshots : List Snapshot) :
    List Snapshot × List Snapshot :=
  let (manifests, others) := snapshots.partition fun s => Snapshot.isManifest c.manifestName s.path
  (manifests, others.filter fun s => Snapshot.isScene c.sceneExtension s.path)

/-- Makes the generator hold these assets and no others. -/
def replaceAssets (snapshots : List Snapshot) (g : Generator) : List String × Generator :=
  let (manifests, scenes) := sortAssets g.config snapshots
  let (m, store) := manifestFilesFamily.replaceAll (snapshotTable manifests) g.store
  let (s, store) := sceneFilesFamily.replaceAll (snapshotTable scenes) store
  (sortedBy compare (changedKeys m ++ changedKeys s), { g with store })

/-- Takes assets out and then puts others in. -/
def updateAssets (snapshots : List Snapshot) (removed : List String) (g : Generator) :
    List String × Generator :=
  let (manifests, scenes) := sortAssets g.config snapshots
  let removed := removed.map fun path => (Path.ofText path).text
  let (m, store) := manifestFilesFamily.update (snapshotTable manifests)
    (removed.filter (Snapshot.isManifest g.config.manifestName)) g.store
  let (s, store) := sceneFilesFamily.update (snapshotTable scenes)
    (removed.filter (Snapshot.isScene g.config.sceneExtension)) store
  (sortedBy compare (changedKeys m ++ changedKeys s), { g with store })

/-- Makes the generator hold these types and no others. -/
def replaceSymbols (symbols : SymbolTable) (g : Generator) : List String × Generator :=
  let items : Table String (Option TypeSymbol) := symbols.map fun (name, s) => (name, some s)
  let (r, store) := typeSymbolsFamily.replaceAll items g.store
  (changedKeys r, { g with store })

/-- Reads of a generation nest less deep than this. -/
def depth : Nat := 64

def typeCount (g : Generator) : Nat :=
  let keys : Option (List String) := g.store.input? (Generation.Node.typeSymbols .keys)
  (keys.map (·.length)).getD 0

def rules (g : Generator) : Rules Generation.Node Generation.Value :=
  rulesWith g.emitters g.config g.typeCount

/-- Runs a program outside of any pass. -/
def ask {α : Type} (program : Query α) (g : Generator) :
    Except (Halt Generation.Node) α × Generator :=
  let (r, store) := program.run g.rules depth g.store
  (r, { g with store })

def resultProgram : Query GenerationResult := do
  let assembled : Assembled ← readNode .generatedFragments
  let diagnostics : List Diagnostic ← readNode .pipelineDiagnostics
  return ⟨assembled.1, diagnostics⟩

/-- Reads all fragments and diagnostics as one pass. -/
def run (token : Option Token) (g : Generator) :
    Except (Halt Generation.Node) GenerationResult × Generator :=
  let (r, store) := resultProgram.runPass g.rules depth token g.store
  (r, { g with store })

def resolveType (typeName : String) (g : Generator) :
    Except (Halt Generation.Node) (Option TypeSymbol) × Generator :=
  g.ask ((resolver g.typeCount).find typeName)

end Generator
end SceneCodegen
