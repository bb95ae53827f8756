import Mathlib.Data.List.Induction
import SceneCodegen.Table

/-!
# Tables with one entry for each key

Which keys an operation leaves in a table, in which order, and what is found under them.
-/
namespace SceneCodegen
namespace Table
variable {κ ν : Type} [BEq κ]

/-- Tables with one entry for each key and the same entries. -/
structure Same (a b : Table κ ν) : Prop where
  left : a.keys.Nodup
  right : b.keys.Nodup
  get? : ∀ k, a.get? k = b.get? k

namespace Same
variable {a b c : Table κ ν}

theorem symm (h : Same a b) : Same b a := ⟨h.right, h.left, fun k => (h.get? k).symm⟩

theorem trans (h : Same a b) (h' : Same b c) : Same a c :=
  ⟨h.left, h'.right, fun k => (h.get? k).trans (h'.get? k)⟩

end Same

variable [LawfulBEq κ]

theorem get?_eq_none_iff {k : κ} {t : Table κ ν} : t.get? k = none ↔ k ∉ t.keys := by
  induction t with
  | nil => simp [get?, keys]
  | cons entry rest ih =>
    rcases entry with ⟨k', v⟩
    by_cases h : k' = k
    · simp [get?, keys, h]
    · have hne : k ≠ k' := fun e => h e.symm
      simp only [get?, beq_iff_eq, h, if_false, keys, List.map_cons, List.mem_cons, hne, false_or]
      exact ih

theorem get?_of_mem {t : Table κ ν} (ht : t.keys.Nodup) {k : κ} {v : ν} (h : (k, v) ∈ t) :
    t.get? k = some v := by
  induction t with
  | nil => cases h
  | cons entry rest ih =>
    rcases entry with ⟨k', v'⟩
    have ht := List.nodup_cons.mp (show (k' :: keys rest).Nodup from ht)
    rcases List.mem_cons.mp h with h | h
    · cases h
      simp [get?]
    · have hk : k ∈ keys rest := List.mem_map_of_mem (f := Prod.fst) h
      have hne : k' ≠ k := by
        rintro rfl
        exact ht.1 hk
      simp only [get?, beq_iff_eq, hne, if_false]
      exact ih ht.2 h

theorem mem_of_get? {t : Table κ ν} {k : κ} {v : ν} (h : t.get? k = some v) : (k, v) ∈ t := by
  induction t with
  | nil => cases h
  | cons entry rest ih =>
    rcases entry with ⟨k', v'⟩
    simp only [get?] at h
    split at h
    · rename_i hk
      cases h
      obtain rfl := eq_of_beq hk
      exact List.mem_cons_self
    · exact List.mem_cons_of_mem _ (ih h)

theorem get?_reverse {t : Table κ ν} (ht : t.keys.Nodup) (k : κ) :
    get? k t.reverse = t.get? k := by
  have hnodup : keys t.reverse |>.Nodup := by
    rw [keys, List.map_reverse]
    exact List.pairwise_reverse.mpr (ht.imp fun hne => hne.symm)
  cases hk : t.get? k with
  | some v => exact get?_of_mem hnodup (List.mem_reverse.mpr (mem_of_get? hk))
  | none =>
    rw [get?_eq_none_iff] at hk ⊢
    simpa [keys] using hk

theorem keys_push (k : κ) (v : ν) (t : Table κ (List ν)) :
    (push k v t).keys = if k ∈ t.keys then t.keys else t.keys ++ [k] := by
  induction t with
  | nil => rfl
  | cons entry rest ih =>
    rcases entry with ⟨k', vs⟩
    by_cases h : k' = k
    · simp [push, keys, h]
    · have hne : k ≠ k' := fun e => h e.symm
      have hpush : push k v ((k', vs) :: rest) = (k', vs) :: push k v rest := by simp [push, h]
      have hkeys : keys ((k', vs) :: push k v rest) = k' :: keys (push k v rest) := rfl
      have hmem : k ∈ keys ((k', vs) :: rest) ↔ k ∈ keys rest := by simp [keys, hne]
      rw [hpush, hkeys, ih]
      simp only [hmem]
      split <;> rfl

theorem nodup_added (k : κ) {l : List κ} (h : l.Nodup) :
    (if k ∈ l then l else l ++ [k]).Nodup := by
  split
  · exact h
  · rename_i hk
    refine List.nodup_append.mpr ⟨h, by simp, ?_⟩
    intro a ha b hb he
    obtain rfl := List.mem_singleton.mp hb
    exact hk (he ▸ ha)

theorem nodup_push (k : κ) (v : ν) {t : Table κ (List ν)} (h : t.keys.Nodup) :
    (push k v t).keys.Nodup := by
  rw [keys_push]
  exact nodup_added k h

theorem nodup_foldl_push (pairs : List (κ × ν)) {t : Table κ (List ν)} (h : t.keys.Nodup) :
    (pairs.foldl (fun t p => push p.1 p.2 t) t).keys.Nodup := by
  induction pairs generalizing t with
  | nil => exact h
  | cons p pairs ih => exact ih (nodup_push p.1 p.2 h)

theorem getD_push (k l : κ) (v : ν) (t : Table κ (List ν)) :
    (get? k (push l v t)).getD [] = (get? k t).getD [] ++ if l == k then [v] else [] := by
  induction t with
  | nil => by_cases h : l = k <;> simp [push, get?, h]
  | cons entry rest ih =>
    rcases entry with ⟨k', vs⟩
    by_cases hl : k' = l
    · by_cases hk : l = k
      · simp [push, get?, hl, hk]
      · simp [push, get?, hl, hk]
    · by_cases hk : k' = k
      · have hne : ¬ l = k := fun he => hl (hk.trans he.symm)
        have hkl : ¬ k = l := fun he => hne he.symm
        simp [push, get?, hk, hne, hkl]
      · simpa [push, get?, hl, hk] using ih

/-- Under a key, a table of lists holds what was added for it, in order. -/
theorem getD_foldl_push (k : κ) (pairs : List (κ × ν)) (t : Table κ (List ν)) :
    (get? k (pairs.foldl (fun t p => push p.1 p.2 t) t)).getD [] =
      (get? k t).getD [] ++ (pairs.filter (·.1 == k)).map Prod.snd := by
  induction pairs generalizing t with
  | nil => simp
  | cons p pairs ih =>
    rw [List.foldl_cons, ih, getD_push, List.append_assoc]
    by_cases h : p.1 = k <;> simp [h]

omit [LawfulBEq κ] in
theorem get?_append (k : κ) (t t' : Table κ ν) :
    get? k (t ++ t') = (get? k t).or (get? k t') := by
  induction t with
  | nil => rfl
  | cons entry rest ih =>
    rcases entry with ⟨k', v⟩
    by_cases h : k' == k <;> simp [get?, h, ih]

/-- Of the values set for a key one after another, the last is found. -/
theorem get?_foldl_set (k : κ) (pairs : List (κ × ν)) (t : Table κ ν) :
    get? k (pairs.foldl (fun t p => set p.1 p.2 t) t) =
      (get? k pairs.reverse).or (get? k t) := by
  induction pairs generalizing t with
  | nil => rfl
  | cons p pairs ih =>
    rcases p with ⟨l, v⟩
    rw [List.foldl_cons, ih, List.reverse_cons, get?_append, Option.or_assoc]
    congr 1
    by_cases h : l = k
    · subst h
      simp [get?, get?_set_self]
    · simp [get?, h, get?_set_of_ne h]

theorem get?_filter (k : κ) (kept : κ → Bool) (t : Table κ ν) :
    get? k (t.filter fun p => kept p.1) = if kept k then get? k t else none := by
  induction t with
  | nil => simp [get?]
  | cons entry rest ih =>
    rcases entry with ⟨l, v⟩
    by_cases h : l = k
    · subst h
      by_cases hk : kept l
      · simp [get?, hk]
      · simpa [List.filter_cons, get?, hk] using ih
    · by_cases hl : kept l <;> simp [get?, hl, h, ih]

omit [LawfulBEq κ] in
theorem get?_map {μ : Type} (k : κ) (f : ν → μ) (t : Table κ ν) :
    get? k (t.map fun p => (p.1, f p.2)) = (get? k t).map f := by
  induction t with
  | nil => rfl
  | cons entry rest ih =>
    rcases entry with ⟨l, v⟩
    by_cases h : l == k <;> simp [get?, h, ih]

theorem keys_set (k : κ) (v : ν) (t : Table κ ν) :
    (set k v t).keys = if k ∈ t.keys then t.keys else t.keys ++ [k] := by
  induction t with
  | nil => rfl
  | cons entry rest ih =>
    rcases entry with ⟨k', v'⟩
    by_cases h : k' = k
    · simp [set, keys, h]
    · have hne : k ≠ k' := fun e => h e.symm
      have hset : set k v ((k', v') :: rest) = (k', v') :: set k v rest := by simp [set, h]
      have hkeys : keys ((k', v') :: set k v rest) = k' :: keys (set k v rest) := rfl
      have hmem : k ∈ keys ((k', v') :: rest) ↔ k ∈ keys rest := by simp [keys, hne]
      rw [hset, hkeys, ih]
      simp only [hmem]
      split <;> rfl

omit [LawfulBEq κ] in
theorem set_of_get? {k : κ} {v : ν} {t : Table κ ν} (h : t.get? k = some v) : set k v t = t := by
  induction t with
  | nil => cases h
  | cons entry rest ih =>
    rcases entry with ⟨k', v'⟩
    rw [get?] at h
    rw [set]
    split at h
    · next hk =>
      cases h
      rw [if_pos hk]
    · next hk => rw [if_neg hk, ih h]

omit [LawfulBEq κ] in
theorem set_of_get?_eq_none {k : κ} {v : ν} {t : Table κ ν} (h : t.get? k = none) :
    set k v t = t ++ [(k, v)] := by
  induction t with
  | nil => rfl
  | cons entry rest ih =>
    rw [get?] at h
    rw [set]
    split at h
    · cases h
    · next hk => rw [if_neg hk, ih h, List.cons_append]

theorem nodup_set (k : κ) (v : ν) {t : Table κ ν} (h : t.keys.Nodup) : (set k v t).keys.Nodup := by
  rw [keys_set]
  exact nodup_added k h

omit [BEq κ] [LawfulBEq κ] in
theorem keys_filter (kept : κ → Bool) (t : Table κ ν) :
    keys (t.filter fun p => kept p.1) = t.keys.filter kept := by
  rw [keys, keys, List.filter_map]
  rfl

theorem nodup_foldl_set (pairs : List (κ × ν)) {t : Table κ ν} (h : t.keys.Nodup) :
    (pairs.foldl (fun t p => set p.1 p.2 t) t).keys.Nodup := by
  induction pairs generalizing t with
  | nil => exact h
  | cons p pairs ih => exact ih (nodup_set p.1 p.2 h)

theorem nodup_ofList (pairs : List (κ × ν)) : (ofList pairs).keys.Nodup :=
  nodup_foldl_set pairs List.nodup_nil

theorem get?_ofList (k : κ) (pairs : List (κ × ν)) :
    (ofList pairs).get? k = get? k pairs.reverse := by
  have hfold := get?_foldl_set k pairs []
  rw [show get? k ([] : Table κ ν) = none from rfl, Option.or_none] at hfold
  exact hfold

theorem get?_setNew (k l : κ) (v : ν) (t : Table κ ν) :
    get? k (setNew l v t) = (get? k t).or (get? k [(l, v)]) := by
  unfold setNew
  cases hl : get? l t with
  | none => exact get?_append k t [(l, v)]
  | some w =>
    by_cases h : l = k
    · subst h
      rw [hl, Option.some_or]
    · simp [get?, h]

/-- Of the values added for a key one after another, the first is found. -/
theorem get?_foldl_setNew (k : κ) (pairs : List (κ × ν)) (t : Table κ ν) :
    get? k (pairs.foldl (fun t p => setNew p.1 p.2 t) t) = (get? k t).or (get? k pairs) := by
  induction pairs generalizing t with
  | nil => simp [get?]
  | cons p pairs ih =>
    rw [List.foldl_cons, ih, get?_setNew, Option.or_assoc, ← get?_append]
    rfl

theorem keys_setNew (k : κ) (v : ν) (t : Table κ ν) :
    (setNew k v t).keys = if k ∈ t.keys then t.keys else t.keys ++ [k] := by
  unfold setNew
  cases hk : get? k t with
  | none =>
    rw [if_neg (get?_eq_none_iff.mp hk)]
    simp [keys]
  | some w =>
    have hmem : k ∈ t.keys := List.mem_map_of_mem (f := Prod.fst) (mem_of_get? hk)
    rw [if_pos hmem]

theorem eraseDups_concat (l : List κ) (k : κ) :
    (l ++ [k]).eraseDups = l.eraseDups ++ if k ∈ l then [] else [k] := by
  rw [List.eraseDups_append]
  by_cases h : k ∈ l <;> simp [List.removeAll, h, List.eraseDups_cons]

theorem nodup_eraseDups (l : List κ) : l.eraseDups.Nodup := by
  induction l using List.reverseRecOn with
  | nil => exact List.nodup_nil
  | append_singleton l k ih =>
    have hadded := nodup_added k ih
    simp only [List.mem_eraseDups] at hadded
    rw [eraseDups_concat]
    by_cases h : k ∈ l <;> simpa [h] using hadded

theorem eraseDups_of_nodup {l : List κ} (h : l.Nodup) : l.eraseDups = l := by
  induction l using List.reverseRecOn with
  | nil => rfl
  | append_singleton l k ih =>
    obtain ⟨hl, -, hk⟩ := List.nodup_append.mp h
    have hnew : k ∉ l := fun hmem => hk k hmem k (List.mem_singleton_self k) rfl
    rw [eraseDups_concat, ih hl, if_neg hnew]

theorem eraseDups_map {μ : Type} [BEq μ] [LawfulBEq μ] {f : κ → μ} {l : List κ}
    (hf : ∀ a ∈ l, ∀ b ∈ l, f a = f b → a = b) : (l.map f).eraseDups = l.eraseDups.map f := by
  induction l using List.reverseRecOn with
  | nil => rfl
  | append_singleton l k ih =>
    have hmem : f k ∈ l.map f ↔ k ∈ l := by
      refine ⟨fun h => ?_, List.mem_map_of_mem⟩
      obtain ⟨a, ha, heq⟩ := List.mem_map.mp h
      rwa [← hf a (List.mem_append_left _ ha) k (by simp) heq]
    rw [List.map_append, List.map_singleton, eraseDups_concat, eraseDups_concat, List.map_append,
      ih fun a ha b hb => hf a (List.mem_append_left _ ha) b (List.mem_append_left _ hb)]
    by_cases h : k ∈ l <;> simp [h, hmem]

/-- Where an operation adds a key unless it is there, keys stand in the order of their first
appearance. -/
theorem keys_foldl {μ : Type} {op : κ → μ → Table κ ν → Table κ ν}
    (hop : ∀ k m t, (op k m t).keys = if k ∈ t.keys then t.keys else t.keys ++ [k])
    (pairs : List (κ × μ)) :
    (pairs.foldl (fun t p => op p.1 p.2 t) []).keys = (pairs.map Prod.fst).eraseDups := by
  induction pairs using List.reverseRecOn with
  | nil => rfl
  | append_singleton pairs p ih =>
    rw [List.foldl_append, List.foldl_cons, List.foldl_nil, hop, ih, List.map_append,
      List.map_singleton, eraseDups_concat]
    by_cases h : p.1 ∈ pairs.map Prod.fst
    · rw [if_pos (List.mem_eraseDups.mpr h), if_pos h, List.append_nil]
    · rw [if_neg fun hmem => h (List.mem_eraseDups.mp hmem), if_neg h]

theorem keys_foldl_setNew (pairs : List (κ × ν)) :
    (pairs.foldl (fun t p => setNew p.1 p.2 t) []).keys = (pairs.map Prod.fst).eraseDups :=
  keys_foldl keys_setNew pairs

theorem keys_foldl_push (pairs : List (κ × ν)) :
    (pairs.foldl (fun t p => push p.1 p.2 t) []).keys = (pairs.map Prod.fst).eraseDups :=
  keys_foldl keys_push pairs

/-- A table with one entry for each key is told by what is found under its keys. -/
theorem eq_map_keys {t : Table κ ν} (h : t.keys.Nodup) {found : κ → ν}
    (hfound : ∀ k v, t.get? k = some v → v = found k) : t = t.keys.map fun k => (k, found k) := by
  rw [keys, List.map_map]
  refine (List.map_id t).symm.trans (List.map_congr_left fun p hp => ?_)
  rw [id, Function.comp_apply, ← hfound p.1 p.2 (get?_of_mem h hp)]

theorem nodup_foldl_setNew (pairs : List (κ × ν)) :
    (pairs.foldl (fun t p => setNew p.1 p.2 t) []).keys.Nodup := by
  suffices h : ∀ t : Table κ ν, t.keys.Nodup →
      (pairs.foldl (fun t p => setNew p.1 p.2 t) t).keys.Nodup from h [] List.nodup_nil
  induction pairs with
  | nil => exact fun _ h => h
  | cons p pairs ih =>
    intro t ht
    refine ih _ ?_
    rw [keys_setNew]
    exact nodup_added p.1 ht

end Table
section
variable {ι : Type} (order : ι → ι → Ordering) [Std.TransCmp order]

/-- Sorting by an order puts in that order. -/
theorem pairwise_mergeSort_isLE (l : List ι) :
    (l.mergeSort fun a b => (order a b).isLE).Pairwise fun a b => (order a b).isLE := by
  refine List.pairwise_mergeSort ?_ ?_ l
  · intro a b c hab hbc
    have htrans : (order a c).isLE := Std.TransCmp.isLE_trans hab hbc
    exact htrans
  · intro a b
    have hswap : order b a = (order a b).swap := Std.OrientedCmp.eq_swap
    rw [hswap]
    cases order a b <;> rfl

/-- Sorted lists without repetitions are told by what is in them. -/
theorem mergeSort_eraseDups_congr [Std.LawfulEqCmp order] [BEq ι] [LawfulBEq ι] {l l' : List ι}
    (h : ∀ i, i ∈ l ↔ i ∈ l') : (l.eraseDups.mergeSort fun a b => (order a b).isLE) =
      l'.eraseDups.mergeSort fun a b => (order a b).isLE := by
  have hnodup (l : List ι) : (l.eraseDups.mergeSort fun a b => (order a b).isLE).Nodup :=
    (List.mergeSort_perm _ _).nodup_iff.mpr (Table.nodup_eraseDups l)
  have hperm := (List.perm_ext_iff_of_nodup (hnodup l) (hnodup l')).mpr fun i => by
    rw [List.mem_mergeSort, List.mem_mergeSort, List.mem_eraseDups, List.mem_eraseDups, h]
  refine hperm.eq_of_pairwise ?_ (pairwise_mergeSort_isLE order _)
    (pairwise_mergeSort_isLE order _)
  intro a b _ _ hab hba
  exact Std.LawfulEqCmp.eq_of_compare (Std.OrientedCmp.isLE_antisymm hab hba)

end

/-- Sorting by names puts in their order. -/
theorem pairwise_mergeSort_names {α : Type} (nameOf : α → String) (l : List α) :
    (l.mergeSort fun a b => nameOf a ≤ nameOf b).Pairwise fun a b => nameOf a ≤ nameOf b := by
  refine (List.pairwise_mergeSort ?_ ?_ l).imp fun {a b} h => of_decide_eq_true h
  · intro a b d hab hbd
    exact decide_eq_true (String.le_trans (of_decide_eq_true hab) (of_decide_eq_true hbd))
  · intro a b
    simpa using String.le_total (nameOf a) (nameOf b)

/-- Sorted names are told by how often each is among them. -/
theorem mergeSort_names_congr {l l' : List String} (h : l.Perm l') :
    (l.mergeSort fun a b => a ≤ b) = l'.mergeSort fun a b => a ≤ b := by
  have hperm : (l.mergeSort fun a b => a ≤ b).Perm (l'.mergeSort fun a b => a ≤ b) :=
    (List.mergeSort_perm l _).trans (h.trans (List.mergeSort_perm l' _).symm)
  exact hperm.eq_of_pairwise (fun a b _ _ => String.le_antisymm) (pairwise_mergeSort_names id l)
    (pairwise_mergeSort_names id l')

end SceneCodegen
