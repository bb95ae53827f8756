import SceneCodegen.Proofs.Graph.Inputs

/-!
# Changes of inputs

Which inputs are new after others were set: exactly those that were given a value they did not count
as before. All else is left as it was, so only a later revision tells that anything changed.
-/
namespace SceneCodegen.Graph

variable {K : Type} {V : K → Type} [BEq K] [LawfulBEq K] {s s' t : Store K V} {k : K}

/-- An input was changed on the way from one store to another. -/
def Renewed (s s' : Store K V) (k : K) : Prop :=
  ∃ x, s'.inputs.get? k = some x ∧ s.revision < x.changedAt

/-- Only inputs are new, each that was changed at a later revision. -/
structure Refreshed (s s' : Store K V) : Prop where
  memos : s'.memos = s.memos
  executed : s'.executed = s.executed
  revision : s.revision ≤ s'.revision
  inputs : s'.revision = s.revision → ∀ k, s'.inputs.get? k = s.inputs.get? k

theorem Refreshed.trans (h : Refreshed s t) (h' : Refreshed t s') : Refreshed s s' where
  memos := h'.memos.trans h.memos
  executed := h'.executed.trans h.executed
  revision := Nat.le_trans h.revision h'.revision
  inputs he k := by
    have hle := h.revision
    have hle' := h'.revision
    rw [h'.inputs (by omega) k, h.inputs (by omega) k]

theorem renewed_congr (h : s'.inputs.get? k = t.inputs.get? k) :
    Renewed s s' k ↔ Renewed s t k := by
  rw [Renewed, Renewed, h]

/-- No input was set later than the store has come. -/
def Dated (s : Store K V) : Prop :=
  ∀ k x, s.inputs.get? k = some x → x.changedAt ≤ s.revision

theorem AtRest.dated {rules : Rules K V} {L : Likeness K V} (h : AtRest rules L s) : Dated s := by
  obtain ⟨past, hs⟩ := h.exists_sound
  exact fun k x hx => (hs.inputs k x hx).1

theorem Dated.not_renewed (h : Dated s) (hk : s'.inputs.get? k = s.inputs.get? k) :
    ¬ Renewed s s' k := by
  rintro ⟨x, hx, hlt⟩
  rw [hk] at hx
  have hle := h k x hx
  omega

variable [∀ k, BEq (V k)]

theorem SetAll.refreshed {settings : List ((k : K) × V k)} (h : SetAll settings s s') :
    Refreshed s s' where
  memos := h.memos
  executed := h.executed
  revision := h.revision
  inputs he k := by
    by_cases hk : k ∈ settings.map Sigma.fst
    · obtain ⟨⟨d, v⟩, hmem, rfl⟩ := List.mem_map.mp hk
      cases h.took d v hmem with
      | kept hx _ hx' => rw [hx, hx']
      | changed _ hr hle _ => omega
    · exact h.other k hk

/-- An input that was set is new if it did not count as its value. -/
theorem Took.renewed_iff {v : V k} (h : Took s s' k v) (ht : Dated t)
    (hle : t.revision ≤ s.revision)
    (hk : s.inputs.get? k = t.inputs.get? k) :
    Renewed t s' k ↔ ∀ x, s.inputs.get? k = some x → (x.value == v) = false := by
  cases h with
  | kept hx he h =>
    constructor
    · rintro ⟨y, hy, hlt⟩
      rw [h, ← hx, hk] at hy
      have hle := ht k y hy
      omega
    · intro hne
      have hsame := hne _ hx
      rw [he] at hsame
      cases hsame
  | changed hx hr _ h => exact ⟨fun _ => hx, fun _ => ⟨_, h, Nat.lt_of_le_of_lt hle hr⟩⟩

namespace Family
variable {ι α : Type} {f : Family K V (InputNode.Value ι α)} {L : Likeness K V}
  {items : Table ι (Option α)} [BEq ι] [ItemKey ι]

theorem Replaced.refreshed (h : f.Replaced L items s s') : Refreshed s s' := by
  obtain ⟨keys, hset, -⟩ := h.exists_set
  exact hset.refreshed

variable [BEq α]

omit [ItemKey ι] in
/-- An item is new if it is not given a value that it counts as already. -/
theorem Faithful.item_renewed_iff (hf : f.Faithful) {i : ι} {a : Option α}
    (h : Took s s' (f.key (.item i)) (f.encode (.item i) a)) (ht : Dated t)
    (hle : t.revision ≤ s.revision)
    (hk : s.inputs.get? (f.key (.item i)) = t.inputs.get? (f.key (.item i)))
    (hset : a = none → (f.valueOf (.item i) s).isSome) :
    Renewed t s' (f.key (.item i)) ↔ (f.valueOf (.item i) s == a) = false := by
  rw [h.renewed_iff ht hle hk]
  cases hx : s.inputs.get? (f.key (.item i)) with
  | none =>
    have hnone : f.valueOf (.item i) s = none := by
      have hinput : s.input? (f.key (.item i)) = none := by rw [Store.input?, hx]; rfl
      simp only [valueOf, inputValue, hinput]
      rfl
    cases a with
    | none =>
      have hsome := hset rfl
      rw [hnone] at hsome
      cases hsome
    | some a =>
      rw [hnone]
      exact ⟨fun _ => rfl, fun _ _ h => by cases h⟩
  | some x =>
    have hinput : s.input? (f.key (.item i)) = some x.value := by rw [Store.input?, hx]; rfl
    rw [← hf.item_beq, hf.encode_valueOf hinput]
    exact ⟨fun h => h x rfl, fun h y hy => by cases hy; exact h⟩

variable [LawfulBEq ι] [Ranked ι]

/-- Where items were replaced, those are new that did not count as what they were replaced by. -/
theorem Replaced.renewed_iff (hf : f.Faithful) {held : ι → Option α} (hs : f.Tallies L s held)
    (h : f.Replaced L items s s') (ht : Dated t) (hle : t.revision ≤ s.revision) (i : ι)
    (hk : s.inputs.get? (f.key (.item i)) = t.inputs.get? (f.key (.item i))) :
    Renewed t s' (f.key (.item i)) ↔
      (f.valueOf (.item i) s == (Table.get? i items).join) = false := by
  obtain ⟨keys, hset, -⟩ := h.exists_set
  by_cases hnew : i ∈ Table.keys items
  · obtain ⟨⟨j, a⟩, hx, rfl⟩ := List.mem_map.mp hnew
    have hget := Table.get?_of_mem h.nodup hx
    rw [hget]
    refine hf.item_renewed_iff (hset.took _ _ (List.mem_append_left _ (List.mem_map.mpr
      ⟨(j, a), List.mem_append_right _ hx, rfl⟩))) ht hle hk fun ha => ?_
    exact absurd (ha ▸ hget) (h.present j)
  · rw [Table.get?_eq_none_iff.mpr hnew]
    by_cases hold : i ∈ f.valueOf .keys s
    · have hmissing : i ∈ missing (f.valueOf .keys s) items := mem_missing.mpr ⟨hold, hnew⟩
      refine hf.item_renewed_iff (hset.took _ _ (List.mem_append_left _ (List.mem_map.mpr
        ⟨(i, none), List.mem_append_left _ (List.mem_map_of_mem hmissing), rfl⟩))) ht hle hk
          fun _ => ?_
      rw [hs.isSome, ← hs.mem_keys]
      exact hold
    · have hother := hset.other _ (hf.not_mem_settings hold hnew)
      have hnone : f.valueOf (.item i) s = none := by
        rw [hs.mem_keys, ← hs.isSome] at hold
        simpa using hold
      rw [hnone, renewed_congr (hother.trans hk)]
      exact ⟨fun hr => absurd hr (ht.not_renewed rfl), fun h => by cases h⟩

end Family

end SceneCodegen.Graph
