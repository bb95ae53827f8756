import SceneCodegen.Proofs.Generation.Likeness

/-!
# Order of a generation

The queries of a generation cannot tell like values apart, and where they keep the value they had
because a new one counts as the same, it is like the new one.
-/
namespace SceneCodegen
open SceneCodegen.Graph

deriving instance ReflBEq, LawfulBEq for Outcome

deriving instance ReflBEq, LawfulBEq for JoinPair

namespace Generation

section
variable {ι τ ρ κ α β : Type}

theorem eq_of_beq_map [BEq β] [LawfulBEq β] (n : MapNode ι) {v w : n.Value ι β}
    (h : (instBEqMap n).beq v w = true) : v = w := by
  cases n with
  | outcome i => exact eq_of_beq (α := Outcome β) h
  | item i => exact eq_of_beq (α := Option β) h
  | diagnostics => exact eq_of_beq (α := List Diagnostic) h

theorem eq_of_beq_flat [BEq τ] [LawfulBEq τ] [BEq ρ] [LawfulBEq ρ] [BEq β] [LawfulBEq β]
    (n : FlatNode ι τ) {v w : n.Value ι τ ρ β} (h : (instBEqFlat n).beq v w = true) : v = w := by
  cases n with
  | parts i => exact eq_of_beq (α := List ρ) h
  | keys => exact eq_of_beq (α := List τ) h
  | item key => exact eq_of_beq (α := Option β) h

end

theorem sameScan_of_beq {a b : Option ScannedClass} (ha : ∀ c, a = some c → c.IsPlain)
    (hb : ∀ c, b = some c → c.IsPlain) (h : a == b) : a = b := by
  cases a with
  | none =>
    cases b with
    | none => rfl
    | some d => cases h
  | some c =>
    cases b with
    | none => cases h
    | some d =>
      have h : c == d := h
      rw [ScannedClass.eq_of_same (ha c rfl) (hb d rfl) h]

theorem scannedClasses_faithful (n : MapNode String) {v w : Value (.scannedClasses n)}
    (hv : Like (.scannedClasses n) v v) (hw : Like (.scannedClasses n) w w)
    (h : (instBEqMap n).beq v w = true) : Like (.scannedClasses n) v w := by
  cases n with
  | outcome i =>
    rcases v with ⟨a, ds⟩
    rcases w with ⟨b, es⟩
    obtain ⟨hvalue, hdiag⟩ := (Bool.and_eq_true _ _).mp h
    obtain rfl : a = b := sameScan_of_beq hv.2 hw.2 hvalue
    obtain rfl : ds = es := eq_of_beq hdiag
    exact hv
  | item i =>
    obtain rfl := sameScan_of_beq hv.2 hw.2 h
    exact hv
  | diagnostics => exact eq_of_beq (α := List Diagnostic) h

/-- A value that counts as the same as the one before is like it. -/
theorem like_of_beq (k : Node) {v w : Value k} (hv : Like k v v) (hw : Like k w w)
    (hk : ∀ i, k ≠ .typeSymbols i) (hm : ∀ i, k ≠ .manifestFiles i) (hs : ∀ i, k ≠ .sceneFiles i)
    (h : v == w) : Like k v w := by
  cases k with
  | manifestFiles n => exact absurd rfl (hm n)
  | sceneFiles n => exact absurd rfl (hs n)
  | typeSymbols n => exact absurd rfl (hk n)
  | manifestEntries n | singletonEntries n | inputActionEntries n | sceneAssets n
  | singletonClasses n | classRecords n | singletonSlots n | singletonFragments n
  | helperFragments n | notifyFragments n | connectionFragments n | unregisteredSingletons n =>
    exact eq_of_beq_map n h
  | manifestEntry n | sceneConnections n => exact eq_of_beq_flat n h
  | scannedClasses n => exact scannedClasses_faithful n hv hw h
  | singletonPairs n =>
    cases n with
    | index => exact same_of_sameEntries (Table.Same.left hv) (Table.Same.left hw) h
    | lookup key => exact eq_of_beq (α := List SingletonRecord) h
    | item i => exact eq_of_beq (α := Option (JoinPair Manifest.Entry SingletonRecord)) h
  | classConnections n =>
    cases n with
    | index => exact same_of_sameEntries (Table.Same.left hv) (Table.Same.left hw) h
    | lookup key => exact eq_of_beq (α := List Scene.Connection) h
    | item i => exact eq_of_beq (α := Option (JoinPair ClassRecord Scene.Connection)) h
  | singletonEntryList => exact eq_of_beq (α := List (EntryKey × Manifest.Entry)) h
  | singletonSlotList => exact eq_of_beq (α := List (EntryKey × SingletonSlot)) h
  | singletonRegistry => exact eq_of_beq (α := SingletonRegistry) h
  | inputActionList => exact eq_of_beq (α := List (EntryKey × Manifest.Entry)) h
  | registryFragment => exact eq_of_beq (α := Option GeneratedFragment) h
  | inputActionFragment => exact eq_of_beq (α := Option GeneratedFragment) h
  | fragmentList kind =>
    cases kind with
    | singleton => exact eq_of_beq (α := List (EntryKey × GeneratedFragment)) h
    | helper | notify | connection => exact eq_of_beq (α := List (String × GeneratedFragment)) h
  | generatedFragments => exact eq_of_beq (α := Assembled) h
  | pipelineDiagnostics => exact eq_of_beq (α := List Diagnostic) h

theorem alike_sameKind {α : Type} {R : α → α → Prop} {p q : Query α}
    (h : p.Alike likeness Eq R q) : p.Alike likeness SameKind R q :=
  h.mono (fun e e' he => by rw [he]; rfl) fun _ _ h => h

/-- Queries that read no loose nodes. -/
theorem alike_of_exact {k : Node} {α : Type} {p : Query α}
    (hp : p.Safe (Reads anyKinds k) (Unfailing Node)) (hk : ¬ ReadsLoose k) :
    p.Alike likeness SameKind Eq p :=
  alike_sameKind (hp.alike fun _ hd _ _ h =>
    eq_of_like (fun hl => hk (readsLoose_of_reads hd hl)) h)

theorem scanned_alike (size : Nat) (i : String) :
    (mapProgram scannedClassesFamily typeSymbols
      (fun s => do quiet (← Scan.scanClass (resolver size) s)) (.outcome i)).Alike likeness SameKind
        (Like (.scannedClasses (.outcome i)))
      (mapProgram scannedClassesFamily typeSymbols
        (fun s => do quiet (← Scan.scanClass (resolver size) s)) (.outcome i)) := by
  have hitem (name : String) : (typeSymbols.item name).Alike likeness Eq LikeTypes
      (typeSymbols.item name) :=
    Family.get_alike (f := typeSymbolsFamily) (n := .item name) (R := LikeTypes)
      fun v w hvw => ⟨v, w, rfl, rfl, hvw⟩
  have hself : (mapProgram scannedClassesFamily typeSymbols
      (fun s => do quiet (← Scan.scanClass (resolver size) s)) (.outcome i)).Alike likeness Eq
        (Like (.scannedClasses (.outcome i)))
      (mapProgram scannedClassesFamily typeSymbols
        (fun s => do quiet (← Scan.scanClass (resolver size) s)) (.outcome i)) := by
    refine (hitem i).bind fun a b hab => ?_
    cases hab with
    | none => exact .done ⟨rfl, nofun⟩
    | @some s s' hs hs' h =>
      have hscan := Scan.scanClass_alike (r := resolver size)
        (fun name => hitem (lookupNameOf name)) h hs
      refine (hscan.bind fun c d hcd => .done ⟨by rw [hcd.1], hcd.2⟩).catching fun e e' he => ?_
      subst he
      cases e with
      | cancelled g => exact .fail rfl
      | _ => exact .done ⟨rfl, nofun⟩
  exact alike_sameKind hself

theorem rules_alike {registry : Fragment.EmitterRegistry} (c : Config) (size : Nat) (k : Node)
    (p : Query (Value k)) (hk : rulesWith registry c size k = .query p) :
    p.Alike likeness SameKind (likeness.like k) p := by
  have hsafe := rules_safe c size k p hk
  cases k with
  | manifestFiles n | sceneFiles n | typeSymbols n => cases hk
  | scannedClasses n =>
    cases n with
    | outcome i =>
      cases hk
      exact scanned_alike size i
    | item i =>
      cases hk
      have hget : (scannedClassesFamily.get (.outcome i)).Alike likeness SameKind
          (Like (.scannedClasses (.outcome i))) (scannedClassesFamily.get (.outcome i)) :=
        alike_sameKind (Family.get_alike (f := scannedClassesFamily) (n := .outcome i)
          fun v w hvw => ⟨v, w, rfl, rfl, hvw⟩)
      exact hget.bind fun a b hab => .done ⟨by rw [hab.1], hab.2⟩
    | diagnostics => exact alike_of_exact hsafe nofun
  | singletonPairs n =>
    cases n with
    | index =>
      cases hk
      exact alike_sameKind (joinIndex_alike singletonPairsFamily (singletonClasses_heeds anyKinds)
        (fun _ => .done _) expected_anyKinds fun d hd _ _ h => eq_of_like
          (fun hl => readsLoose_of_reads (κ := anyKinds) (k := .singletonPairs .index) hd hl) h)
    | lookup key =>
      cases hk
      exact alike_sameKind (joinLookup_alike singletonPairsFamily key
        fun v w hvw => ⟨v, w, rfl, rfl, hvw⟩)
    | item i => exact alike_of_exact hsafe nofun
  | classConnections n =>
    cases n with
    | index =>
      cases hk
      exact alike_sameKind (joinIndex_alike classConnectionsFamily (connections_heeds anyKinds)
        (fun _ => .done _) expected_anyKinds fun d hd _ _ h => eq_of_like
          (fun hl => readsLoose_of_reads (κ := anyKinds) (k := .classConnections .index) hd hl) h)
    | lookup key =>
      cases hk
      exact alike_sameKind (joinLookup_alike classConnectionsFamily key
        fun v w hvw => ⟨v, w, rfl, rfl, hvw⟩)
    | item i => exact alike_of_exact hsafe nofun
  | _ => exact alike_of_exact hsafe nofun

theorem rules_orderly {registry : Fragment.EmitterRegistry} (c : Config) (size : Nat) :
    Orderly (rulesWith registry c size) likeness where
  absent k a hk := by
    cases k with
    | manifestFiles n | sceneFiles n => rfl
    | typeSymbols n =>
      cases n with
      | keys => rfl
      | item i =>
        cases hk
        exact .none
    | fragmentList kind => cases kind <;> cases hk
    | _ => cases hk
  alike := rules_alike c size
  relays := (rules_leveled c size).relays
  faithful k p v w hk hv hw h :=
    like_of_beq k hv hw (by rintro i rfl; cases hk) (by rintro i rfl; cases hk)
      (by rintro i rfl; cases hk) h

end Generation
end SceneCodegen
