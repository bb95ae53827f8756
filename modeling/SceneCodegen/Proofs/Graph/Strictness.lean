import SceneCodegen.Proofs.Graph.Visits

/-!
# Strictness

Any program can be made to pass on every failure it reads. A run that gives a value when all
programs are made so meets no failure, and is the run of the programs as they are.
-/
namespace SceneCodegen.Graph

variable {K : Type} {V : K → Type} {α : Type}

/-- The program that ends with the first failure it reads. -/
def Program.strict : Program K V α → Program K V α
  | done a => done a
  | fail e => fail e
  | read k next => read k fun r => (ofExcept r).bind fun v => (next (.ok v)).strict
  | cancel next => cancel next.strict

theorem Program.relays_strict (p : Program K V α) : p.strict.Relays fun _ => True := by
  induction p with
  | done a => exact .done a
  | fail e => exact .fail e
  | read k next ih =>
    simp only [strict]
    exact .read (fun _ _ => rfl) fun v => ih (.ok v)
  | cancel next ih => exact .cancel ih

/-- The rules whose queries end with the first failure they read. -/
def strictly (rules : Rules K V) : Rules K V := fun k =>
  match rules k with
  | .input absent => .input absent
  | .query p => .query p.strict
  | .refused e => .refused e

section
variable {rules : Rules K V} {k : K}

theorem strictly_input_iff {absent : V k} :
    strictly rules k = .input absent ↔ rules k = .input absent := by
  simp only [strictly]
  cases rules k <;> simp

theorem strictly_query {p : Program K V (V k)} (h : strictly rules k = .query p) :
    ∃ q, rules k = .query q ∧ p = q.strict := by
  simp only [strictly] at h
  cases hk : rules k with
  | input absent => simp [hk] at h
  | query q => exact ⟨q, rfl, by simpa [hk] using h.symm⟩
  | refused e => simp [hk] at h

theorem relays_strictly (rules : Rules K V) (k : K) (p : Program K V (V k))
    (h : strictly rules k = .query p) : p.Relays fun _ => True := by
  obtain ⟨q, -, rfl⟩ := strictly_query h
  exact q.relays_strict

end

instance [BEq K] (rules : Rules K V) [OneSort rules] : OneSort (strictly rules) where
  input h hk := by
    obtain ⟨absent, hl⟩ := OneSort.input h (strictly_input_iff.mp hk)
    exact ⟨absent, strictly_input_iff.mpr hl⟩
  query h hk := by
    obtain ⟨p, hp, -⟩ := strictly_query hk
    obtain ⟨q, hq⟩ := OneSort.query h hp
    exact ⟨q.strict, by simp only [strictly, hq]⟩

variable {s s' : Store K V}

section
variable {below below' : (k : K) → Reader K V (Stamped (V k))}
  (hb : ∀ k s node s', below' k s = (.ok node, s') → below k s = (.ok node, s'))
include hb

theorem Program.runWith_of_strict (p : Program K V α) {a : α}
    (h : p.strict.runWith below' s = (.ok a, s')) : p.runWith below s = (.ok a, s') := by
  induction p generalizing s with
  | done b => exact h
  | fail e => cases h
  | read k next ih =>
    have hrelays := (read k next).relays_strict
    simp only [strict] at h hrelays
    obtain ⟨node, s₁, hk, -, hrest⟩ := runWith_read hrelays h
    have hrest := ih (.ok node.value) hrest
    simp only [runWith, hb k _ node s₁ hk]
    exact hrest
  | cancel next ih => exact ih h

theorem unchangedSince_of_strict {r : Nat} {ks : List K} {b : Bool}
    (h : unchangedSince below' r ks s = (.ok b, s')) :
    unchangedSince below r ks s = (.ok b, s') := by
  induction ks generalizing s with
  | nil => exact h
  | cons k ks ih =>
    obtain ⟨node, s₁, hk, hrest⟩ := unchangedSince_cons h
    simp only [unchangedSince, hb k s node s₁ hk]
    rcases hrest with ⟨hc, rfl, rfl⟩ | ⟨hc, hrest⟩
    · rw [if_pos hc]
    · rw [if_neg (Nat.not_lt.mpr hc)]
      exact ih hrest

variable [BEq K] [∀ k, BEq (V k)] {k : K} {p : Program K V (V k)} {node : Stamped (V k)}

theorem execute_of_strict {previous : Option (Memo K (V k))}
    (h : execute below' k p.strict previous s = (.ok node, s')) :
    execute below k p previous s = (.ok node, s') := by
  simp only [execute] at h ⊢
  split
  · rename_i hc
    simp [hc] at h
  · rename_i hc
    split
    · rename_i hg
      simp [hc, hg] at h
    · rename_i hg
      simp only [hc, hg, compute] at h ⊢
      cases hr : p.strict.runWith below' (s.start k) with
      | mk result s₁ =>
        cases result with
        | error halt => simp [hr] at h
        | ok v =>
          rw [p.runWith_of_strict hb hr]
          simpa [hr] using h

theorem revalidate_of_strict {m : Memo K (V k)}
    (h : revalidate below' k p.strict m s = (.ok node, s')) :
    revalidate below k p m s = (.ok node, s') := by
  by_cases hv : m.verifiedAt = s.revision
  · simpa [revalidate, hv] using h
  · obtain ⟨b, s₁, hcheck, hend⟩ := revalidate_ok hv h
    simp only [revalidate, beq_iff_eq, hv, if_false, unchangedSince_of_strict hb hcheck]
    rcases hend with ⟨rfl, rfl, rfl⟩ | ⟨rfl, hexecute⟩
    · rfl
    · exact execute_of_strict hb hexecute

end

variable [BEq K] [Coherent K V] [∀ k, BEq (V k)] {rules : Rules K V}

theorem fetch_of_strict {depth : Nat} {k : K} {node : Stamped (V k)}
    (h : fetch (strictly rules) depth k s = (.ok node, s')) :
    fetch rules depth k s = (.ok node, s') := by
  induction depth generalizing k s s' with
  | zero =>
    unfold fetch at h ⊢
    cases hk : rules k with
    | input absent => simpa [strictly, hk] using h
    | refused e => simp [strictly, hk] at h
    | query p => simp [strictly, hk] at h
  | succ depth ih =>
    unfold fetch at h ⊢
    cases hk : rules k with
    | input absent => simpa [strictly, hk] using h
    | refused e => simp [strictly, hk] at h
    | query p =>
      simp only [strictly, hk] at h ⊢
      cases hm : s.memos.get? k with
      | none =>
        simp only [hm] at h
        exact execute_of_strict (fun k s node s' => ih) h
      | some m =>
        simp only [hm] at h
        exact revalidate_of_strict (fun k s node s' => ih) h

/-- No read fails that a program makes or that is made for it: it would come to its end as well if
the first failure ended it. -/
def Undisturbed (rules : Rules K V) (p : Program K V α) (depth : Nat) (s : Store K V) : Prop :=
  ∃ a, (p.strict.run (strictly rules) depth s).1 = .ok a

theorem Program.run_of_strict {p : Program K V α} {depth : Nat} {a : α}
    (h : p.strict.run (strictly rules) depth s = (.ok a, s')) :
    p.run rules depth s = (.ok a, s') :=
  p.runWith_of_strict (fun _ _ _ _ => fetch_of_strict) h

/-- A run that meets no failure is a strict one. -/
theorem Undisturbed.run_strict {p : Program K V α} {depth : Nat} (h : Undisturbed rules p depth s) :
    ∃ a, p.strict.run (strictly rules) depth s = (.ok a, (p.run rules depth s).2) := by
  obtain ⟨a, ha⟩ := h
  have heq : p.strict.run (strictly rules) depth s =
      (.ok a, (p.strict.run (strictly rules) depth s).2) := by rw [← ha]
  exact ⟨a, by rw [Program.run_of_strict heq, ← ha]⟩

end SceneCodegen.Graph
