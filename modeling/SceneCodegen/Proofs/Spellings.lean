import Mathlib.Data.List.Pairwise
import SceneCodegen.Table

/-!
# Keys in several spellings

Lists and tables in which keys that are not equal may count as the same. A list without repetitions
is one in which no key counts as another, and a table holds one entry for all spellings of a key.
-/
namespace SceneCodegen

/-- No key of a list counts as another. -/
def Unlike {ι : Type} [BEq ι] (l : List ι) : Prop := l.Pairwise fun i j => (i == j) = false

/-- Keys of two lists are spelled alike if they count as the same. -/
def SpelledAlike {ι : Type} [BEq ι] (l l' : List ι) : Prop :=
  ∀ i ∈ l, ∀ j ∈ l', (i == j) = true → i = j

section
variable {ι : Type} [BEq ι] [EquivBEq ι] {l l' : List ι} {i j : ι}

theorem contains_of_mem (h : i ∈ l) : l.contains i = true :=
  List.contains_iff_exists_mem_beq.mpr ⟨i, h, BEq.rfl⟩

theorem Unlike.nodup (h : Unlike l) : l.Nodup := h.imp fun hij heq => by
  rw [heq, BEq.rfl] at hij
  cases hij

theorem Unlike.eq (h : Unlike l) (hi : i ∈ l) (hj : j ∈ l) (heq : (i == j) = true) : i = j := by
  by_contra hne
  have : Std.Symm fun i j : ι => (i == j) = false := ⟨fun _ _ => BEq.symm_false⟩
  rw [List.Pairwise.forall h hi hj hne] at heq
  cases heq

omit [EquivBEq ι] in
theorem mem_of_mem_eraseDups (h : i ∈ l.eraseDups) : i ∈ l := by
  induction hn : l.length using Nat.strongRecOn generalizing l with
  | ind n ih =>
    cases l with
    | nil => simp at h
    | cons a l =>
      have hlt : (l.filter fun b => !b == a).length < n :=
        hn ▸ Nat.lt_succ_of_le (List.length_filter_le _ l)
      rw [List.eraseDups_cons] at h
      rcases List.mem_cons.mp h with rfl | h
      · exact List.mem_cons_self
      · exact List.mem_cons_of_mem a (List.mem_filter.mp (ih _ hlt h rfl)).1

theorem contains_eraseDups (l : List ι) (i : ι) : l.eraseDups.contains i = l.contains i := by
  induction hn : l.length using Nat.strongRecOn generalizing l with
  | ind n ih =>
    cases l with
    | nil => rfl
    | cons a l =>
      have hlt : (l.filter fun b => !b == a).length < n :=
        hn ▸ Nat.lt_succ_of_le (List.length_filter_le _ l)
      rw [List.eraseDups_cons, List.contains_cons, List.contains_cons, ih _ hlt _ rfl]
      by_cases hi : (i == a) = true
      · rw [hi, Bool.true_or, Bool.true_or]
      · rw [Bool.eq_false_iff.mpr hi, Bool.false_or, Bool.false_or, Bool.eq_iff_iff,
          List.contains_iff_exists_mem_beq, List.contains_iff_exists_mem_beq]
        refine ⟨fun ⟨b, hb, hib⟩ => ⟨b, (List.mem_filter.mp hb).1, hib⟩, fun ⟨b, hb, hib⟩ => ?_⟩
        refine ⟨b, List.mem_filter.mpr ⟨hb, ?_⟩, hib⟩
        have hba : (b == a) = false := by
          rw [← BEq.congr_left hib]
          exact Bool.eq_false_iff.mpr hi
        rw [hba]
        rfl

theorem unlike_eraseDups (l : List ι) : Unlike l.eraseDups := by
  induction hn : l.length using Nat.strongRecOn generalizing l with
  | ind n ih =>
    cases l with
    | nil => exact .nil
    | cons a l =>
      have hlt : (l.filter fun b => !b == a).length < n :=
        hn ▸ Nat.lt_succ_of_le (List.length_filter_le _ l)
      rw [List.eraseDups_cons]
      refine List.pairwise_cons.mpr ⟨fun b hb => ?_, ih _ hlt _ rfl⟩
      by_contra hab
      have hfound : (l.filter fun b => !b == a).contains a = true := by
        rw [← contains_eraseDups, List.contains_iff_exists_mem_beq]
        exact ⟨b, hb, Bool.not_eq_false _ ▸ hab⟩
      obtain ⟨c, hc, hac⟩ := List.contains_iff_exists_mem_beq.mp hfound
      have hca := (List.mem_filter.mp hc).2
      rw [BEq.symm hac] at hca
      cases hca

/-- Lists of keys that count as the same, one by one, hold the same keys. -/
theorem contains_congr_list (h : (l == l') = true) (i : ι) : l.contains i = l'.contains i := by
  induction l generalizing l' with
  | nil =>
    cases l' with
    | nil => rfl
    | cons b l' => cases h
  | cons a l ih =>
    cases l' with
    | nil => cases h
    | cons b l' =>
      rw [List.cons_beq_cons, Bool.and_eq_true] at h
      obtain ⟨hab, hrest⟩ := h
      rw [List.contains_cons, List.contains_cons, BEq.congr_right hab, ih hrest]

end

namespace Table
variable {κ ν : Type} [BEq κ] [EquivBEq κ] {t : Table κ ν} {k l : κ} {v : ν}

theorem contains_keys : t.keys.contains k = (t.get? k).isSome := by
  induction t with
  | nil => rfl
  | cons entry rest ih =>
    rcases entry with ⟨k', v⟩
    have hkeys : keys ((k', v) :: rest) = k' :: keys rest := rfl
    rw [hkeys, List.contains_cons, get?, BEq.comm]
    by_cases h : (k' == k) = true
    · rw [h, if_pos rfl]
      rfl
    · rw [if_neg h, Bool.eq_false_iff.mpr h, Bool.false_or, ih]

omit [EquivBEq κ] in
theorem exists_mem_of_get? (h : t.get? k = some v) : ∃ k', (k' == k) = true ∧ (k', v) ∈ t := by
  induction t with
  | nil => cases h
  | cons entry rest ih =>
    rcases entry with ⟨k', w⟩
    rw [get?] at h
    split at h
    · next hk => exact ⟨k', hk, Option.some.inj h ▸ List.mem_cons_self⟩
    · obtain ⟨k'', hk, hmem⟩ := ih h
      exact ⟨k'', hk, List.mem_cons_of_mem _ hmem⟩

/-- The spellings of a key have one entry. -/
theorem get?_respelled (t : Table κ ν) (h : (k == l) = true) : t.get? k = t.get? l := by
  induction t with
  | nil => rfl
  | cons entry rest ih => rw [get?, get?, BEq.congr_right h, ih]

theorem get?_of_mem_unlike (ht : Unlike t.keys) (h : (k, v) ∈ t) : t.get? k = some v := by
  induction t with
  | nil => cases h
  | cons entry rest ih =>
    rcases entry with ⟨k', w⟩
    obtain ⟨hfirst, hrest⟩ := List.pairwise_cons.mp (show Unlike (k' :: keys rest) from ht)
    rw [get?]
    rcases List.mem_cons.mp h with h | h
    · cases h
      rw [if_pos BEq.rfl]
    · rw [hfirst k (List.mem_map_of_mem (f := Prod.fst) h), if_neg Bool.false_ne_true]
      exact ih hrest h

theorem keys_set_of_contains (v : ν) (h : t.keys.contains k = true) :
    (set k v t).keys = t.keys := by
  induction t with
  | nil => cases h
  | cons entry rest ih =>
    rcases entry with ⟨k', w⟩
    rw [show keys ((k', w) :: rest) = k' :: keys rest from rfl, List.contains_cons] at h
    rw [set]
    split
    · rfl
    · next hk =>
      rw [BEq.comm, Bool.eq_false_iff.mpr hk, Bool.false_or] at h
      exact congrArg (k' :: ·) (ih h)

theorem set_of_contains_eq_false (v : ν) (h : t.keys.contains k = false) :
    set k v t = t ++ [(k, v)] := by
  induction t with
  | nil => rfl
  | cons entry rest ih =>
    rcases entry with ⟨k', w⟩
    rw [show keys ((k', w) :: rest) = k' :: keys rest from rfl, List.contains_cons,
      Bool.or_eq_false_iff] at h
    rw [set, BEq.comm, h.1, if_neg Bool.false_ne_true, ih h.2, List.cons_append]

theorem unlike_set (v : ν) (ht : Unlike t.keys) : Unlike (set k v t).keys := by
  cases h : t.keys.contains k with
  | true => rwa [keys_set_of_contains v h]
  | false =>
    have hkeys : (set k v t).keys = t.keys ++ [k] := by
      rw [set_of_contains_eq_false v h, keys, List.map_append]
      rfl
    rw [hkeys]
    refine List.pairwise_append.mpr ⟨ht, List.pairwise_singleton _ _, fun i hi j hj => ?_⟩
    obtain rfl := List.mem_singleton.mp hj
    by_contra heq
    have hfound := List.contains_iff_exists_mem_beq.mpr
      ⟨i, hi, BEq.symm (Bool.not_eq_false _ ▸ heq)⟩
    rw [hfound] at h
    cases h

theorem unlike_foldl_set (pairs : List (κ × ν)) (ht : Unlike t.keys) :
    Unlike (pairs.foldl (fun t p => set p.1 p.2 t) t).keys := by
  induction pairs generalizing t with
  | nil => exact ht
  | cons p pairs ih => exact ih (unlike_set p.2 ht)

theorem unlike_ofList (pairs : List (κ × ν)) : Unlike (ofList pairs).keys :=
  unlike_foldl_set pairs .nil

omit [EquivBEq κ] in
theorem unlike_filter (kept : κ × ν → Bool) (ht : Unlike t.keys) :
    Unlike (keys (t.filter kept)) :=
  ht.sublist (List.filter_sublist.map Prod.fst)

end Table
end SceneCodegen
