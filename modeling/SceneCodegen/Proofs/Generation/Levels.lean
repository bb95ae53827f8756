import SceneCodegen.Proofs.Generation.Reads

/-!
# Levels of a generation

Every node reads nodes of lower levels only and settles with a value, whatever the inputs. Reads
nest much less deep than is allowed.
-/
namespace SceneCodegen.Generation
open SceneCodegen.Graph

def mapLevel {ι : Type} (n : Nat) : MapNode ι → Nat
  | .outcome _ => n
  | .item _ | .diagnostics => n + 1

def flatLevel {ι τ : Type} (n : Nat) : FlatNode ι τ → Nat
  | .parts _ => n
  | .keys | .item _ => n + 1

def joinLevel {ι κ : Type} (n : Nat) : JoinNode ι κ → Nat
  | .index => n
  | .lookup _ => n + 1
  | .item _ => n + 2

def level : Node → Nat
  | .manifestFiles _ | .sceneFiles _ | .typeSymbols _ => 0
  | .manifestEntries n => mapLevel 1 n
  | .sceneAssets n => mapLevel 1 n
  | .scannedClasses n => mapLevel 1 n
  | .manifestEntry n => flatLevel 3 n
  | .sceneConnections n => flatLevel 3 n
  | .singletonClasses n => mapLevel 3 n
  | .classRecords n => mapLevel 3 n
  | .helperFragments n => mapLevel 3 n
  | .notifyFragments n => mapLevel 3 n
  | .singletonEntries n => mapLevel 5 n
  | .inputActionEntries n => mapLevel 5 n
  | .singletonPairs n => joinLevel 5 n
  | .classConnections n => joinLevel 5 n
  | .singletonEntryList | .inputActionList => 7
  | .singletonSlots n => mapLevel 8 n
  | .connectionFragments n => mapLevel 8 n
  | .unregisteredSingletons n => mapLevel 8 n
  | .inputActionFragment => 8
  | .singletonFragments n => mapLevel 10 n
  | .singletonSlotList => 10
  | .singletonRegistry => 11
  | .registryFragment | .fragmentList _ => 12
  | .generatedFragments => 13
  | .pipelineDiagnostics => 14

variable {κ : Kinds} {k d : Node}

theorem level_of_reads (h : Reads κ k d) : level d < level k := by
  cases k with
  | manifestFiles n | sceneFiles n | typeSymbols n => cases h
  | manifestEntries n | sceneAssets n | singletonEntries n | inputActionEntries n
  | singletonClasses n | classRecords n | singletonFragments n | helperFragments n
  | notifyFragments n | unregisteredSingletons n =>
    cases n with
    | outcome i => rcases h with h | h <;> cases h <;> simp [level, mapLevel, flatLevel]
    | item i => cases h; simp [level, mapLevel]
    | diagnostics => rcases h with h | h | ⟨i, -, h⟩ <;> cases h <;>
        simp [level, mapLevel, flatLevel]
  | scannedClasses n =>
    cases n with
    | outcome i => rcases h with h | ⟨name, h⟩ <;> cases h <;> simp [level, mapLevel]
    | item i => cases h; simp [level, mapLevel]
    | diagnostics => rcases h with h | h | ⟨i, -, h⟩ <;> cases h <;> simp [level, mapLevel]
  | singletonSlots n | connectionFragments n =>
    cases n with
    | outcome i => rcases h with h | h <;> cases h <;> simp [level, mapLevel, joinLevel]
    | item i => cases h; simp [level, mapLevel]
    | diagnostics =>
      rcases h with (h | h) | h | ⟨i, -, h⟩ <;> cases h <;> simp [level, mapLevel, flatLevel]
  | manifestEntry n | sceneConnections n =>
    cases n with
    | parts i => cases h; simp [level, mapLevel, flatLevel]
    | keys => rcases h with h | ⟨i, -, h⟩ <;> cases h <;> simp [level, flatLevel]
    | item key => cases h; simp [level, flatLevel]
  | singletonPairs n | classConnections n =>
    cases n with
    | index => rcases h with h | ⟨i, -, h⟩ <;> cases h <;>
        simp [level, mapLevel, flatLevel, joinLevel]
    | lookup key => cases h; simp [level, joinLevel]
    | item i => rcases h with h | ⟨key, h⟩ <;> cases h <;> simp [level, mapLevel, joinLevel]
  | singletonEntryList | inputActionList | singletonSlotList =>
    rcases h with h | ⟨i, -, h⟩ <;> cases h <;> simp [level, mapLevel, flatLevel]
  | singletonRegistry | registryFragment | inputActionFragment => cases h; simp [level]
  | fragmentList kind =>
    cases kind <;> rcases h with h | ⟨i, -, h⟩ <;> cases h <;> simp [level, mapLevel, flatLevel]
  | generatedFragments => rcases h with h | h | ⟨kind, h⟩ <;> cases h <;> simp [level]
  | pipelineDiagnostics =>
    rcases h with h | h | h | h | h | h | h | h | h | h <;> cases h <;> simp [level, mapLevel]

/-- Nodes of which different values may count as the same. -/
def IsLoose : Node → Prop
  | .typeSymbols (.item _) | .singletonPairs .index | .classConnections .index => True
  | _ => False

/-- Nodes that read loose ones. -/
def ReadsLoose : Node → Prop
  | .scannedClasses (.outcome _) | .singletonPairs (.lookup _) | .classConnections (.lookup _) =>
    True
  | _ => False

theorem readsLoose_of_reads (h : Reads κ k d) (hd : IsLoose d) : ReadsLoose k := by
  cases k with
  | manifestFiles n | sceneFiles n | typeSymbols n => cases h
  | manifestEntries n | sceneAssets n | singletonEntries n | inputActionEntries n
  | singletonClasses n | classRecords n | singletonFragments n | helperFragments n
  | notifyFragments n | unregisteredSingletons n =>
    cases n with
    | outcome i => rcases h with h | h <;> cases h <;> cases hd
    | item i => cases h; cases hd
    | diagnostics => rcases h with h | h | ⟨i, -, h⟩ <;> cases h <;> cases hd
  | scannedClasses n =>
    cases n with
    | outcome i => trivial
    | item i => cases h; cases hd
    | diagnostics => rcases h with h | h | ⟨i, -, h⟩ <;> cases h <;> cases hd
  | singletonSlots n | connectionFragments n =>
    cases n with
    | outcome i => rcases h with h | h <;> cases h <;> cases hd
    | item i => cases h; cases hd
    | diagnostics => rcases h with (h | h) | h | ⟨i, -, h⟩ <;> cases h <;> cases hd
  | manifestEntry n | sceneConnections n =>
    cases n with
    | parts i | item key => cases h; cases hd
    | keys => rcases h with h | ⟨i, -, h⟩ <;> cases h <;> cases hd
  | singletonPairs n | classConnections n =>
    cases n with
    | index => rcases h with h | ⟨i, -, h⟩ <;> cases h <;> cases hd
    | lookup key => trivial
    | item i => rcases h with h | ⟨key, h⟩ <;> cases h <;> cases hd
  | singletonEntryList | inputActionList | singletonSlotList =>
    rcases h with h | ⟨i, -, h⟩ <;> cases h <;> cases hd
  | singletonRegistry | registryFragment | inputActionFragment => cases h; cases hd
  | fragmentList kind => cases kind <;> rcases h with h | ⟨i, -, h⟩ <;> cases h <;> cases hd
  | generatedFragments => rcases h with h | h | ⟨kind, h⟩ <;> cases h <;> cases hd
  | pipelineDiagnostics =>
    rcases h with h | h | h | h | h | h | h | h | h | h <;> cases h <;> cases hd

def anyKinds : Kinds := ⟨Anything, Anything, Anything⟩

theorem expected_anyKinds (k : Node) (v : Value k) : Expected anyKinds k v := by
  cases k with
  | manifestFiles n | sceneFiles n | typeSymbols n | manifestEntry n | sceneConnections n =>
    cases n <;> first | exact trivial | exact fun _ _ => trivial
  | _ => trivial

/-- Every query is safe and reads what its node may read. -/
theorem rules_safe {registry : Fragment.EmitterRegistry} (c : Config) (size : Nat) (k : Node)
    (p : Query (Value k)) (hk : rulesWith registry c size k = .query p) :
    p.Safe (Reads anyKinds k) (Unfailing Node) :=
  (rules_heeds anyKinds c size k p hk).safe expected_anyKinds

/-- Whatever the inputs, every node settles with a value. -/
theorem rules_leveled {registry : Fragment.EmitterRegistry} (c : Config) (size : Nat) :
    Leveled (rulesWith registry c size) level where
  safe k p hk := (rules_safe c size k p hk).mono (fun _ h => level_of_reads h) nofun
  known k e hk := by
    cases k with
    | fragmentList kind => cases kind <;> cases hk
    | _ => cases hk

end SceneCodegen.Generation
