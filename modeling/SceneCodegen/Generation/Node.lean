import SceneCodegen.Fragment.Registry
import SceneCodegen.Graph.Datum
import SceneCodegen.Manifest
import SceneCodegen.Scene.Wiring
import SceneCodegen.Snapshot

/-!
# Nodes of a generation

The nodes from which a generation is computed, with the type of each one's value. Three families are
inputs: manifest files and scene files by path, and declared types by lookup name. All others are
derived from them, down to the list of all fragments and that of all diagnostics.
-/
namespace SceneCodegen.Generation
open SceneCodegen.Graph

/-- A manifest entry is found by its file, its kind and its name. -/
abbrev EntryKey := String × (Manifest.EntryKind × String)

/-- A connection is found by its scene file and its place in the scene. -/
abbrev ConnectionKey := String × Nat

/-- An entry of a manifest under its kind and its name. -/
abbrev EntryPart := (Manifest.EntryKind × String) × Manifest.Entry

/-- A connection of a scene under its place. -/
abbrev ConnectionPart := Nat × Scene.Connection

def sortedBy {ι : Type} [BEq ι] (order : ι → ι → Ordering) (keys : List ι) : List ι :=
  keys.eraseDups.mergeSort fun a b => (order a b).isLE

instance : ItemKey String where
  label s := s
  sorted keys := .ok (sortedBy compare keys)

def compareEntryKeys (a b : EntryKey) : Ordering :=
  (compare a.1 b.1).then ((compare a.2.1.text b.2.1.text).then (compare a.2.2 b.2.2))

instance : ItemKey EntryKey where
  label key :=
    Datum.tupleText [Text.quoted key.1,
      Datum.tupleText [Text.quoted key.2.1.text, Text.quoted key.2.2]]
  sorted keys := .ok (sortedBy compareEntryKeys keys)

def compareConnectionKeys (a b : ConnectionKey) : Ordering :=
  (compare a.1 b.1).then (compare a.2 b.2)

instance : ItemKey ConnectionKey where
  label key := Datum.tupleText [Text.quoted key.1, toString key.2]
  sorted keys := .ok (sortedBy compareConnectionKeys keys)

/-- The kinds of fragments that items have one by one. -/
inductive FragmentKind | singleton | helper | notify | connection
  deriving DecidableEq, Repr

inductive Node
  | manifestFiles (n : InputNode String)
  | sceneFiles (n : InputNode String)
  | typeSymbols (n : InputNode String)
  | manifestEntries (n : MapNode String)
  | manifestEntry (n : FlatNode String EntryKey)
  | singletonEntries (n : MapNode EntryKey)
  | inputActionEntries (n : MapNode EntryKey)
  | singletonEntryList
  | sceneAssets (n : MapNode String)
  | sceneConnections (n : FlatNode String ConnectionKey)
  | scannedClasses (n : MapNode String)
  | singletonClasses (n : MapNode String)
  | classRecords (n : MapNode String)
  | singletonPairs (n : JoinNode EntryKey String)
  | singletonSlots (n : MapNode EntryKey)
  | classConnections (n : JoinNode String String)
  | singletonSlotList
  | singletonRegistry
  | inputActionList
  | registryFragment
  | inputActionFragment
  | singletonFragments (n : MapNode EntryKey)
  | helperFragments (n : MapNode String)
  | notifyFragments (n : MapNode String)
  | connectionFragments (n : MapNode String)
  | unregisteredSingletons (n : MapNode String)
  | fragmentList (kind : FragmentKind)
  | generatedFragments
  | pipelineDiagnostics
  deriving DecidableEq, Repr

/-- The fragments of a run, with what their names gave rise to. -/
abbrev Assembled := List GeneratedFragment × List Diagnostic

/-- The type of the keys of the items that have fragments of a kind. -/
abbrev FragmentKind.Key : FragmentKind → Type
  | .singleton => EntryKey
  | _ => String

abbrev Value : Node → Type
  | .manifestFiles n => n.Value String Snapshot
  | .sceneFiles n => n.Value String Snapshot
  | .typeSymbols n => n.Value String TypeSymbol
  | .manifestEntries n => n.Value String (List Manifest.Entry)
  | .manifestEntry n => n.Value String EntryKey EntryPart Manifest.Entry
  | .singletonEntries n => n.Value EntryKey Manifest.Entry
  | .inputActionEntries n => n.Value EntryKey Manifest.Entry
  | .singletonEntryList => List (EntryKey × Manifest.Entry)
  | .sceneAssets n => n.Value String Scene.Asset
  | .sceneConnections n => n.Value String ConnectionKey ConnectionPart Scene.Connection
  | .scannedClasses n => n.Value String ScannedClass
  | .singletonClasses n => n.Value String SingletonRecord
  | .classRecords n => n.Value String ClassRecord
  | .singletonPairs n => n.Value EntryKey String Manifest.Entry SingletonRecord
  | .singletonSlots n => n.Value EntryKey SingletonSlot
  | .classConnections n => n.Value String String ClassRecord Scene.Connection
  | .singletonSlotList => List (EntryKey × SingletonSlot)
  | .singletonRegistry => SingletonRegistry
  | .inputActionList => List (EntryKey × Manifest.Entry)
  | .registryFragment => Option GeneratedFragment
  | .inputActionFragment => Option GeneratedFragment
  | .singletonFragments n => n.Value EntryKey GeneratedFragment
  | .helperFragments n => n.Value String GeneratedFragment
  | .notifyFragments n => n.Value String GeneratedFragment
  | .connectionFragments n => n.Value String GeneratedFragment
  | .unregisteredSingletons n => n.Value String Unit
  | .fragmentList kind => List (kind.Key × GeneratedFragment)
  | .generatedFragments => Assembled
  | .pipelineDiagnostics => List Diagnostic

namespace Node

def inputName (base : String) : InputNode String → String
  | .keys => base ++ ".keys"
  | .item _ => base ++ ".item"

def mapName {ι : Type} (base : String) : MapNode ι → String
  | .outcome _ => base ++ ".outcome"
  | .item _ => base ++ ".item"
  | .diagnostics => base ++ ".diagnostics"

def flatName {ι κ : Type} (base : String) : FlatNode ι κ → String
  | .parts _ => base ++ ".parts"
  | .keys => base ++ ".keys"
  | .item _ => base ++ ".item"

def joinName {ι κ : Type} (base : String) : JoinNode ι κ → String
  | .index => base ++ ".index"
  | .lookup _ => base ++ ".lookup"
  | .item _ => base ++ ".item"

def fragmentsName : FragmentKind → String
  | .singleton => "singleton_fragments"
  | .helper => "helper_fragments"
  | .notify => "notify_fragments"
  | .connection => "connection_fragments"

def name : Node → String
  | manifestFiles n => inputName "manifest_files" n
  | sceneFiles n => inputName "scene_files" n
  | typeSymbols n => inputName "type_symbols" n
  | manifestEntries n => mapName "manifest_entries" n
  | manifestEntry n => flatName "manifest_entry" n
  | singletonEntries n => mapName "singleton_entries" n
  | inputActionEntries n => mapName "input_action_entries" n
  | singletonEntryList => "singleton_entry_list"
  | sceneAssets n => mapName "scene_assets" n
  | sceneConnections n => flatName "scene_connections" n
  | scannedClasses n => mapName "scanned_classes" n
  | singletonClasses n => mapName "singleton_classes" n
  | classRecords n => mapName "class_records" n
  | singletonPairs n => joinName "singleton_pairs" n
  | singletonSlots n => mapName "singleton_slots" n
  | classConnections n => joinName "class_connections" n
  | singletonSlotList => "singleton_slot_list"
  | singletonRegistry => "singleton_registry"
  | inputActionList => "input_action_list"
  | registryFragment => "registry_fragment"
  | inputActionFragment => "input_action_fragment"
  | singletonFragments n => mapName (fragmentsName .singleton) n
  | helperFragments n => mapName (fragmentsName .helper) n
  | notifyFragments n => mapName (fragmentsName .notify) n
  | connectionFragments n => mapName (fragmentsName .connection) n
  | unregisteredSingletons n => mapName "unregistered_singletons" n
  | fragmentList kind => fragmentsName kind ++ ".list"
  | generatedFragments => "generated_fragments"
  | pipelineDiagnostics => "pipeline_diagnostics"

instance : Graph.Node Node where
  queryName := name
  text n := Datum.tupleText [Text.quoted n.name]

end Node

instance instBEqInput {ι α : Type} [BEq ι] [BEq α] : (n : InputNode ι) → BEq (n.Value ι α)
  | .keys => inferInstanceAs (BEq (List ι))
  | .item _ => inferInstanceAs (BEq (Option α))

instance instBEqMap {ι β : Type} [BEq β] : (n : MapNode ι) → BEq (n.Value ι β)
  | .outcome _ => inferInstanceAs (BEq (Outcome β))
  | .item _ => inferInstanceAs (BEq (Option β))
  | .diagnostics => inferInstanceAs (BEq (List Diagnostic))

instance instBEqFlat {ι τ ρ β : Type} [BEq τ] [BEq ρ] [BEq β] :
    (n : FlatNode ι τ) → BEq (n.Value ι τ ρ β)
  | .parts _ => inferInstanceAs (BEq (List ρ))
  | .keys => inferInstanceAs (BEq (List τ))
  | .item _ => inferInstanceAs (BEq (Option β))

/-- Whether two tables hold the same entries, in whatever order. -/
def sameEntries {κ ν : Type} [BEq κ] [BEq ν] (a b : Table κ ν) : Bool :=
  a.length == b.length && a.all fun (k, v) => (b.get? k).any (v == ·)

instance instBEqJoin {ι κ α β : Type} [BEq κ] [BEq α] [BEq β] :
    (n : JoinNode ι κ) → BEq (n.Value ι κ α β)
  | .index => ⟨sameEntries⟩
  | .lookup _ => inferInstanceAs (BEq (List β))
  | .item _ => inferInstanceAs (BEq (Option (JoinPair α β)))

instance instBEqFragmentKey : (kind : FragmentKind) → BEq kind.Key
  | .singleton => inferInstanceAs (BEq (String × (Manifest.EntryKind × String)))
  | .helper | .notify | .connection => inferInstanceAs (BEq String)

instance instBEqValue : (n : Node) → BEq (Value n)
  | .manifestFiles n => instBEqInput n
  | .sceneFiles n => instBEqInput n
  | .typeSymbols n => instBEqInput n
  | .manifestEntries n => instBEqMap n
  | .manifestEntry n => instBEqFlat n
  | .singletonEntries n => instBEqMap n
  | .inputActionEntries n => instBEqMap n
  | .singletonEntryList => inferInstanceAs (BEq (List (EntryKey × Manifest.Entry)))
  | .sceneAssets n => instBEqMap n
  | .sceneConnections n => instBEqFlat n
  | .scannedClasses n => instBEqMap n
  | .singletonClasses n => instBEqMap n
  | .classRecords n => instBEqMap n
  | .singletonPairs n => instBEqJoin n
  | .singletonSlots n => instBEqMap n
  | .classConnections n => instBEqJoin n
  | .singletonSlotList => inferInstanceAs (BEq (List (EntryKey × SingletonSlot)))
  | .singletonRegistry => inferInstanceAs (BEq SingletonRegistry)
  | .inputActionList => inferInstanceAs (BEq (List (EntryKey × Manifest.Entry)))
  | .registryFragment => inferInstanceAs (BEq (Option GeneratedFragment))
  | .inputActionFragment => inferInstanceAs (BEq (Option GeneratedFragment))
  | .singletonFragments n => instBEqMap n
  | .helperFragments n => instBEqMap n
  | .notifyFragments n => instBEqMap n
  | .connectionFragments n => instBEqMap n
  | .unregisteredSingletons n => instBEqMap n
  | .fragmentList kind => inferInstanceAs (BEq (List (kind.Key × GeneratedFragment)))
  | .generatedFragments => inferInstanceAs (BEq Assembled)
  | .pipelineDiagnostics => inferInstanceAs (BEq (List Diagnostic))

end SceneCodegen.Generation
