import SceneCodegen.Proofs.Generation.Levels

/-!
# Presence

The nodes that belong to keys of the kinds there are. Their queries read only such nodes, so a run
never comes upon what belonged to a file or a type that was taken out.
-/
namespace SceneCodegen.Generation
open SceneCodegen.Graph

/-- The nodes that belong to keys of the kinds. -/
def Node.Of (κ : Kinds) : Node → Prop
  | .manifestEntries n => n.Of κ.manifest
  | .manifestEntry n => n.Of κ.manifest
  | .singletonEntries n | .inputActionEntries n | .singletonSlots n | .singletonFragments n =>
    n.Of fun key => κ.manifest key.1
  | .sceneAssets n => n.Of κ.scene
  | .sceneConnections n => n.Of κ.scene
  | .scannedClasses n | .singletonClasses n | .classRecords n | .helperFragments n
  | .notifyFragments n | .connectionFragments n | .unregisteredSingletons n => n.Of κ.type
  | .singletonPairs n => n.Of fun key => κ.manifest key.1
  | .classConnections n => n.Of κ.type
  | _ => True

variable {κ : Kinds} {k d : Node}

theorem of_reads (h : Reads κ k d) (hk : k.Of κ) : d.Of κ := by
  cases k with
  | manifestFiles n | sceneFiles n | typeSymbols n => cases h
  | manifestEntries n | sceneAssets n | singletonEntries n | inputActionEntries n
  | singletonClasses n | classRecords n | singletonFragments n | helperFragments n
  | notifyFragments n | unregisteredSingletons n =>
    cases n with
    | outcome i => rcases h with h | h <;> cases h <;> first | exact hk | trivial
    | item i => cases h; exact hk
    | diagnostics => rcases h with h | h | ⟨i, hi, h⟩ <;> cases h <;> first | exact hi | trivial
  | scannedClasses n =>
    cases n with
    | outcome i => rcases h with h | ⟨name, h⟩ <;> cases h <;> trivial
    | item i => cases h; exact hk
    | diagnostics => rcases h with h | h | ⟨i, hi, h⟩ <;> cases h <;> first | exact hi | trivial
  | singletonSlots n | connectionFragments n =>
    cases n with
    | outcome i => rcases h with h | h <;> cases h <;> exact hk
    | item i => cases h; exact hk
    | diagnostics =>
      rcases h with (h | h) | h | ⟨i, hi, h⟩ <;> cases h <;> first | exact hi | trivial
  | manifestEntry n | sceneConnections n =>
    cases n with
    | parts i => cases h; exact hk
    | keys => rcases h with h | ⟨i, hi, h⟩ <;> cases h <;> first | exact hi | trivial
    | item key => cases h; exact hk
  | singletonPairs n | classConnections n =>
    cases n with
    | index => rcases h with h | ⟨i, hi, h⟩ <;> cases h <;> first | exact hi | trivial
    | lookup key => cases h; trivial
    | item i => rcases h with h | ⟨key, h⟩ <;> cases h <;> first | exact hk | trivial
  | singletonEntryList | inputActionList | singletonSlotList =>
    rcases h with h | ⟨i, hi, h⟩ <;> cases h <;> first | exact hi | trivial
  | singletonRegistry | registryFragment | inputActionFragment => cases h; trivial
  | fragmentList kind =>
    cases kind <;> rcases h with h | ⟨i, hi, h⟩ <;> cases h <;> first | exact hi | trivial
  | generatedFragments => rcases h with h | h | ⟨kind, h⟩ <;> cases h <;> trivial
  | pipelineDiagnostics =>
    rcases h with h | h | h | h | h | h | h | h | h | h <;> cases h <;> trivial

/-- The keys that inputs give are of the kinds. -/
structure Kinds.Hold (κ : Kinds) (inputs : Inputs Node Value) : Prop where
  manifest : ∀ i ∈ (inputs (.manifestFiles .keys)).getD [], κ.manifest i
  scene : ∀ i ∈ (inputs (.sceneFiles .keys)).getD [], κ.scene i
  type : ∀ i ∈ (inputs (.typeSymbols .keys)).getD [], κ.type i

theorem rules_heedful {inputs : Inputs Node Value} (h : κ.Hold inputs) (c : Config) (size : Nat) :
    Heedful (rules c size) inputs (Node.Of κ) (Expected κ) where
  input k absent _ hrule := by
    cases k with
    | manifestFiles n =>
      cases n with
      | keys => cases hrule; exact h.manifest
      | item i => trivial
    | sceneFiles n =>
      cases n with
      | keys => cases hrule; exact h.scene
      | item i => trivial
    | typeSymbols n =>
      cases n with
      | keys => cases hrule; exact h.type
      | item i => trivial
    | fragmentList kind => cases kind <;> cases hrule
    | _ => cases hrule
  query k p hk hrule := (rules_heeds κ c size k p hrule).widen fun _ hd => of_reads hd hk

/-- Present nodes read present nodes. -/
theorem rules_steady {inputs : Inputs Node Value} (h : κ.Hold inputs) (c : Config) (size : Nat) :
    Steady (rules c size) inputs (Node.Of κ) :=
  (rules_heedful h c size).steady (rules_leveled c size)

/-- The nodes that are made of types alone. -/
def OfTypes : Node → Prop
  | .typeSymbols _ | .scannedClasses _ | .singletonClasses _ | .classRecords _
  | .helperFragments _ | .notifyFragments _ => True
  | _ => False

theorem ofTypes_reads (h : Reads κ k d) (hk : OfTypes k) : OfTypes d := by
  cases k with
  | typeSymbols n => cases h
  | scannedClasses n =>
    cases n with
    | outcome i => rcases h with h | ⟨name, h⟩ <;> cases h <;> trivial
    | item i => cases h; trivial
    | diagnostics => rcases h with h | h | ⟨i, -, h⟩ <;> cases h <;> trivial
  | singletonClasses n | classRecords n | helperFragments n | notifyFragments n =>
    cases n with
    | outcome i => rcases h with h | h <;> cases h <;> trivial
    | item i => cases h; trivial
    | diagnostics => rcases h with h | h | ⟨i, -, h⟩ <;> cases h <;> trivial
  | _ => cases hk

end SceneCodegen.Generation
