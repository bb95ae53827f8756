import SceneCodegen.Proofs.Graph.Cancellation

/-!
# Programs of one course

Programs that go on in the same way after the values that inputs have. Rules with such queries
cannot be told apart on a store with these inputs.
-/
namespace SceneCodegen.Graph

variable {K : Type} {V : K → Type} {α β : Type} {rules rules' : Rules K V} {inputs : Inputs K V}

/-- Programs that read the same inputs and, as these are, come to the same program. -/
inductive Program.SameCourse (rules : Rules K V) (inputs : Inputs K V) :
    Program K V α → Program K V α → Prop
  | refl (p : Program K V α) : SameCourse rules inputs p p
  | read {k : K} {absent : V k} {next next' : Except (Failure K) (V k) → Program K V α}
      (hk : rules k = .input absent)
      (h : SameCourse rules inputs (next (.ok ((inputs k).getD absent)))
        (next' (.ok ((inputs k).getD absent)))) :
      SameCourse rules inputs (.read k next) (.read k next')

namespace Program.SameCourse
variable {p q : Program K V α}

theorem bind (h : p.SameCourse rules inputs q) (f : α → Program K V β) :
    (p.bind f).SameCourse rules inputs (q.bind f) := by
  induction h with
  | refl p => exact .refl _
  | read hk _ ih => exact .read hk ih

theorem catching (h : p.SameCourse rules inputs q) (f : Failure K → Program K V α) :
    (p.catching f).SameCourse rules inputs (q.catching f) := by
  induction h with
  | refl p => exact .refl _
  | read hk _ ih => exact .read hk ih

variable [BEq K] [LawfulBEq K]

theorem runWith {below : (k : K) → Reader K V (Stamped (V k))}
    (hb : ∀ k absent s, rules k = .input absent →
      below k s = (.ok ((s.inputs.get? k).getD ⟨absent, 0⟩), s))
    (h : p.SameCourse rules inputs q) {s : Store K V} (hs : s.input? = inputs) :
    p.runWith below s = q.runWith below s := by
  induction h generalizing s with
  | refl p => rfl
  | @read k absent next next' hk _ ih =>
    have hs' : (s.noteRead k).input? = inputs := by
      rw [← hs]
      funext a
      simp [Store.input?]
    have hvalue : (((s.noteRead k).inputs.get? k).getD ⟨absent, 0⟩).value =
        (inputs k).getD absent := by
      rw [← hs']
      simp only [Store.input?]
      cases (s.noteRead k).inputs.get? k <;> rfl
    simp only [Program.runWith, hb k absent _ hk]
    rw [hvalue]
    exact ih hs'

end Program.SameCourse

/-- Rules under which each node is the same or a query of one course. -/
def SameRules (rules rules' : Rules K V) (inputs : Inputs K V) : Prop :=
  ∀ k, rules k = rules' k ∨ ∃ p q, rules k = .query p ∧ rules' k = .query q ∧
    p.SameCourse rules inputs q

variable [BEq K] [LawfulBEq K]

section
variable {below below' : (k : K) → Reader K V (Stamped (V k))}
  (h : ∀ k s, s.input? = inputs → below k s = below' k s)
  (hkeep : ∀ k s, (below k s).2.input? = s.input?)
include h hkeep

theorem unchangedSince_congr (r : Nat) (ks : List K) {s : Store K V} (hs : s.input? = inputs) :
    unchangedSince below r ks s = unchangedSince below' r ks s := by
  induction ks generalizing s with
  | nil => rfl
  | cons k ks ih =>
    have hk := hkeep k s
    simp only [unchangedSince, ← h k s hs]
    generalize below k s = out at hk
    obtain ⟨result, s'⟩ := out
    cases result with
    | error halt => rfl
    | ok node =>
      simp only
      rw [ih (hk.trans hs)]

theorem Program.runWith_congr (p : Program K V α) {s : Store K V} (hs : s.input? = inputs) :
    p.runWith below s = p.runWith below' s := by
  induction p generalizing s with
  | done a => rfl
  | fail e => rfl
  | read k next ih =>
    have hs' : (s.noteRead k).input? = inputs := by
      rw [← hs]
      funext a
      simp [Store.input?]
    have hk := hkeep k (s.noteRead k)
    simp only [runWith, ← h k _ hs']
    generalize below k (s.noteRead k) = out at hk
    obtain ⟨result, s'⟩ := out
    cases result with
    | ok node => exact ih _ (hk.trans hs')
    | error halt =>
      cases halt with
      | failed e => exact ih _ (hk.trans hs')
      | tooDeep => rfl
  | cancel next ih => exact ih (s := s.cancelPass) hs

end

variable [∀ k, BEq (V k)]

theorem fetch_input? (rules : Rules K V) (depth : Nat) (k : K) (s : Store K V) :
    (fetch rules depth k s).2.input? = s.input? := by
  funext a
  simp only [Store.input?, (extends_stepwise.fetch rules depth k s).inputs]

/-- Reads under rules of one course do not differ. -/
theorem SameRules.fetch (h : SameRules rules rules' inputs) (depth : Nat) (k : K) {s : Store K V}
    (hs : s.input? = inputs) : fetch rules depth k s = fetch rules' depth k s := by
  induction depth generalizing k s with
  | zero =>
    unfold Graph.fetch
    rcases h k with hk | ⟨p, q, hp, hq, -⟩
    · rw [hk]
    · rw [hp, hq]
  | succ depth ih =>
    have hquery {p q : Program K V (V k)} (hp : rules k = .query p) (hq : rules' k = .query q)
        (hpq : p.SameCourse rules inputs q) :
        Graph.fetch rules (depth + 1) k s = Graph.fetch rules' (depth + 1) k s := by
      have hkeep := fetch_input? rules depth
      have hbelow (k : K) (s : Store K V) (hs : s.input? = inputs) :
          Graph.fetch rules depth k s = Graph.fetch rules' depth k s := ih k hs
      have hexecute (previous : Option (Memo K (V k))) {s : Store K V} (hs : s.input? = inputs) :
          execute (Graph.fetch rules depth) k p previous s =
            execute (Graph.fetch rules' depth) k q previous s := by
        have hrun : p.runWith (Graph.fetch rules depth) (s.start k) =
            q.runWith (Graph.fetch rules' depth) (s.start k) :=
          (hpq.runWith (s := s.start k) (fun k absent s hk => fetch_input hk depth s) hs).trans
            (q.runWith_congr (s := s.start k) hbelow hkeep hs)
        simp only [execute, compute, hrun]
      cases hm : s.memos.get? k with
      | none =>
        rw [fetch_of_unkept hp depth hm, fetch_of_unkept hq depth hm]
        exact hexecute none hs
      | some m =>
        have hu := unchangedSince_congr hbelow hkeep m.verifiedAt m.reads hs
        have hi := Stepwise.unchangedSince extends_stepwise
          (extends_stepwise.fetch rules depth) m.verifiedAt m.reads s
        rw [fetch_of_kept hp depth hm, fetch_of_kept hq depth hm]
        simp only [revalidate, ← hu]
        split
        · rfl
        · generalize unchangedSince (Graph.fetch rules depth) m.verifiedAt m.reads s = out at hi
          obtain ⟨r, s'⟩ := out
          have hs' : s'.input? = inputs := by
            rw [← hs]
            funext a
            rw [Store.input?, Store.input?, show s'.inputs = s.inputs from hi.inputs]
          cases r with
          | error halt => rfl
          | ok unchanged =>
            cases unchanged with
            | true => rfl
            | false => exact hexecute (some m) hs'
    rcases h k with hk | ⟨p, q, hp, hq, hpq⟩
    · cases hp : rules k with
      | input absent => rw [fetch_input hp, fetch_input (hk ▸ hp)]
      | refused e =>
        unfold Graph.fetch
        rw [← hk, hp]
      | query p => exact hquery hp (hk ▸ hp) (.refl p)
    · exact hquery hp hq hpq

theorem SameRules.run (h : SameRules rules rules' inputs) (depth : Nat) (p : Program K V α)
    {s : Store K V} (hs : s.input? = inputs) : p.run rules depth s = p.run rules' depth s :=
  p.runWith_congr (fun k _ hs => h.fetch depth k hs) (fetch_input? rules depth) hs

end SceneCodegen.Graph
