import SceneCodegen.Proofs.Graph.Settling

/-!
# Depth of reads

A bound on the depth of nested reads decides only whether a read ends. One that ended at some depth
ends in the same way, and in the same store, at every greater depth.
-/
namespace SceneCodegen.Graph

variable {K : Type} {V : K → Type} {α β : Type} {s : Store K V}

private theorem exists_eq_of_fst {x : α × β} {a : α} (h : x.1 = a) : ∃ b, x = (a, b) :=
  ⟨x.2, by rw [← h]⟩

section
variable {below below' : (k : K) → Reader K V (Stamped (V k))}
  (h : ∀ k s, Ended (below k s).1 → below' k s = below k s)
include h

theorem unchangedSince_mono (r : Nat) (ks : List K)
    (hs : Ended (unchangedSince below r ks s).1) :
    unchangedSince below' r ks s = unchangedSince below r ks s := by
  induction ks generalizing s with
  | nil => rfl
  | cons k ks ih =>
    simp only [unchangedSince] at hs ⊢
    have hk : Ended (below k s).1 := by
      intro he
      obtain ⟨s', he⟩ := exists_eq_of_fst he
      simp [he] at hs
    rw [h k s hk]
    split
    · rfl
    · split
      · rfl
      · rename_i he hc
        simp only [he, hc, if_false] at hs
        exact ih hs

theorem Program.runWith_mono (p : Program K V α) (hs : Ended (p.runWith below s).1) :
    p.runWith below' s = p.runWith below s := by
  induction p generalizing s with
  | done a => rfl
  | fail e => rfl
  | read k next ih =>
    simp only [runWith] at hs ⊢
    have hk : Ended (below k (s.noteRead k)).1 := by
      intro he
      obtain ⟨s', he⟩ := exists_eq_of_fst he
      simp [he] at hs
    rw [h k _ hk]
    split
    · rename_i he
      simp only [he] at hs
      exact ih _ hs
    · rename_i he
      simp only [he] at hs
      exact ih _ hs
    · rfl
  | cancel next ih => exact ih hs

variable [BEq K] [∀ k, BEq (V k)]

theorem execute_mono (k : K) (p : Program K V (V k)) (previous : Option (Memo K (V k)))
    (hs : Ended (execute below k p previous s).1) :
    execute below' k p previous s = execute below k p previous s := by
  simp only [execute, compute] at hs ⊢
  split
  · rfl
  · rename_i hc
    split
    · rfl
    · rename_i hg
      have hp : Ended (p.runWith below (s.start k)).1 := by
        intro he
        obtain ⟨s', he⟩ := exists_eq_of_fst he
        simp [hc, hg, he] at hs
      rw [p.runWith_mono h hp]

theorem revalidate_mono (k : K) (p : Program K V (V k)) (m : Memo K (V k))
    (hs : Ended (revalidate below k p m s).1) :
    revalidate below' k p m s = revalidate below k p m s := by
  simp only [revalidate] at hs ⊢
  split
  · rfl
  · rename_i hv
    simp only [hv] at hs
    have hu : Ended (unchangedSince below m.verifiedAt m.reads s).1 := by
      intro he
      obtain ⟨s', he⟩ := exists_eq_of_fst he
      simp [he] at hs
    rw [unchangedSince_mono h _ _ hu]
    split
    · rfl
    · rfl
    · rename_i hu
      simp only [hu] at hs
      exact execute_mono h k p (some m) hs

end

variable [BEq K] [Coherent K V] [∀ k, BEq (V k)] {rules : Rules K V}

theorem fetch_succ (n : Nat) (k : K) (s : Store K V) (hs : Ended (fetch rules n k s).1) :
    fetch rules (n + 1) k s = fetch rules n k s := by
  induction n generalizing k s with
  | zero =>
    unfold fetch at hs ⊢
    cases hk : rules k with
    | input absent => rfl
    | refused e => rfl
    | query p => simp [hk] at hs
  | succ n ih =>
    rw [fetch] at hs ⊢
    rw [fetch]
    cases hk : rules k with
    | input absent => rfl
    | refused e => rfl
    | query p =>
      simp only [hk] at hs ⊢
      cases hm : s.memos.get? k with
      | none =>
        simp only [hm] at hs ⊢
        exact execute_mono ih k p none hs
      | some m =>
        simp only [hm] at hs ⊢
        exact revalidate_mono ih k p m hs

/-- A greater depth does not change a read that ended. -/
theorem fetch_mono {n m : Nat} (h : n ≤ m) {k : K} {s : Store K V}
    (hs : Ended (fetch rules n k s).1) : fetch rules m k s = fetch rules n k s := by
  induction h with
  | refl => rfl
  | @step m _ ih => rw [fetch_succ m k s (by rw [ih]; exact hs), ih]

end SceneCodegen.Graph
