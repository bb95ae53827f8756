import SceneCodegen.Graph.Evaluation

/-!
# Frames

However a read ends, the queries being computed are afterwards those of before, and so are the
inputs. A program run for a query leaves it the innermost one, with further reads noted.
-/
namespace SceneCodegen.Graph

variable {K : Type} {V : K → Type} {α : Type}

namespace Store

@[simp] theorem noteRead_revision (k : K) (s : Store K V) :
    (s.noteRead k).revision = s.revision := by
  unfold noteRead
  split <;> rfl

@[simp] theorem noteRead_inputs (k : K) (s : Store K V) : (s.noteRead k).inputs = s.inputs := by
  unfold noteRead
  split <;> rfl

@[simp] theorem noteRead_memos (k : K) (s : Store K V) : (s.noteRead k).memos = s.memos := by
  unfold noteRead
  split <;> rfl

@[simp] theorem noteRead_token (k : K) (s : Store K V) : (s.noteRead k).token = s.token := by
  unfold noteRead
  split <;> rfl

@[simp] theorem noteRead_recent (k : K) (s : Store K V) : (s.noteRead k).recent = s.recent := by
  unfold noteRead
  split <;> rfl

@[simp] theorem noteRead_executed (k : K) (s : Store K V) :
    (s.noteRead k).executed = s.executed := by
  unfold noteRead
  split <;> rfl

@[simp] theorem noteRead_started (k : K) (s : Store K V) :
    (s.noteRead k).started = s.started := by
  unfold noteRead
  split <;> rfl

theorem noteRead_active {k : K} {s : Store K V} {a : Active K} {rest : List (Active K)}
    (h : s.active = a :: rest) :
    (s.noteRead k).active = { a with reads := k :: a.reads } :: rest := by
  simp [noteRead, h]

theorem noteRead_of_idle {k : K} {s : Store K V} (h : s.active = []) : s.noteRead k = s := by
  simp [noteRead, h]

theorem finish_active {s : Store K V} {a : Active K} {rest : List (Active K)}
    (h : s.active = a :: rest) : s.finish.active = rest := by
  simp [finish, h]

@[simp] theorem cancelled?_noteRead (k : K) (s : Store K V) :
    (s.noteRead k).cancelled? = s.cancelled? := by
  simp [cancelled?]

theorem cancelled?_of_token_none {s : Store K V} (h : s.token = none) : s.cancelled? = none := by
  simp [cancelled?, h]

theorem cancelled?_eq_some_iff {s : Store K V} {g : Int} : s.cancelled? = some g ↔
    ∃ t, s.token = some t ∧ t.isCancelled = true ∧ t.generation = g := by
  simp [cancelled?, Option.bind_eq_some_iff]

theorem cancelled?_cancelPass {s : Store K V} {g : Int} (h : s.cancelled? = some g) :
    s.cancelPass.cancelled? = some g := by
  obtain ⟨t, ht, -, rfl⟩ := cancelled?_eq_some_iff.mp h
  simp [cancelled?, cancelPass, ht, Token.isCancelled]

theorem cancelled?_start {s : Store K V} {g : Int} (k : K) (h : s.cancelled? = some g) :
    (s.start k).cancelled? = some g := by
  obtain ⟨t, ht, hcancelled, rfl⟩ := cancelled?_eq_some_iff.mp h
  simp only [Token.isCancelled, Bool.or_eq_true, beq_iff_eq] at hcancelled
  obtain hc | hc := hcancelled <;>
    simp [cancelled?, start, ht, Token.isCancelled, Token.countStart, hc]

end Store

section
variable {below : (k : K) → Reader K V (Stamped (V k))}
  (hb : ∀ k s, (below k s).2.active = s.active)
include hb

theorem unchangedSince_active (r : Nat) (ks : List K) (s : Store K V) :
    (unchangedSince below r ks s).2.active = s.active := by
  induction ks generalizing s with
  | nil => rfl
  | cons k ks ih =>
    have hk := hb k s
    simp only [unchangedSince]
    split
    · rename_i h
      rwa [h] at hk
    · rename_i h
      rw [h] at hk
      split
      · exact hk
      · exact (ih _).trans hk

theorem Program.runWith_active (p : Program K V α) {s : Store K V} {a : Active K}
    {rest : List (Active K)} (h : s.active = a :: rest) :
    ∃ reads, (p.runWith below s).2.active = ⟨a.key, reads⟩ :: rest := by
  induction p generalizing s a with
  | done x => exact ⟨a.reads, h⟩
  | fail e => exact ⟨a.reads, h⟩
  | read k next ih =>
    have hk := (hb k (s.noteRead k)).trans (Store.noteRead_active h)
    simp only [runWith]
    split
    · rename_i node s' he
      rw [he] at hk
      have hrest := ih (.ok node.value) hk
      exact hrest
    · rename_i e s' he
      rw [he] at hk
      have hrest := ih (.error e) hk
      exact hrest
    · rename_i s' he
      rw [he] at hk
      exact ⟨_, hk⟩
  | cancel next ih => exact ih h

variable [BEq K] [∀ k, BEq (V k)]

theorem compute_active (k : K) (p : Program K V (V k)) (previous : Option (Memo K (V k)))
    (s : Store K V) : (compute below k p previous s).2.active = s.active := by
  obtain ⟨reads, hr⟩ := p.runWith_active hb (s := s.start k) rfl
  simp only [compute]
  split
  all_goals
    rename_i h
    rw [h] at hr
    exact Store.finish_active hr

theorem execute_active (k : K) (p : Program K V (V k)) (previous : Option (Memo K (V k)))
    (s : Store K V) : (execute below k p previous s).2.active = s.active := by
  simp only [execute]
  split
  · rfl
  · split
    · rfl
    · exact compute_active hb k p previous s

theorem revalidate_active (k : K) (p : Program K V (V k)) (memo : Memo K (V k))
    (s : Store K V) : (revalidate below k p memo s).2.active = s.active := by
  have hu := unchangedSince_active hb memo.verifiedAt memo.reads s
  simp only [revalidate]
  split
  · rfl
  · split
    all_goals
      rename_i h
      rw [h] at hu
    · exact hu
    · exact hu
    · exact (execute_active hb k p (some memo) _).trans hu

end

/-- A store with the inputs of another, at the same revision. -/
structure Store.SameInputs (s s' : Store K V) : Prop where
  inputs : s'.inputs = s.inputs
  revision : s'.revision = s.revision

theorem Store.SameInputs.refl (s : Store K V) : s.SameInputs s := ⟨rfl, rfl⟩

theorem Store.SameInputs.trans {s s' s'' : Store K V} (h : s.SameInputs s')
    (h' : s'.SameInputs s'') : s.SameInputs s'' :=
  ⟨h'.inputs.trans h.inputs, h'.revision.trans h.revision⟩

section
variable {below : (k : K) → Reader K V (Stamped (V k))}
  (hb : ∀ k (s : Store K V), s.SameInputs (below k s).2)
include hb

theorem unchangedSince_inputs (r : Nat) (ks : List K) (s : Store K V) :
    s.SameInputs (unchangedSince below r ks s).2 := by
  induction ks generalizing s with
  | nil => exact .refl s
  | cons k ks ih =>
    have hk := hb k s
    simp only [unchangedSince]
    split
    · rename_i h
      rwa [h] at hk
    · rename_i h
      rw [h] at hk
      split
      · exact hk
      · exact hk.trans (ih _)

theorem Program.runWith_inputs (p : Program K V α) (s : Store K V) :
    s.SameInputs (p.runWith below s).2 := by
  induction p generalizing s with
  | done x => exact .refl s
  | fail e => exact .refl s
  | read k next ih =>
    have hk : s.SameInputs (below k (s.noteRead k)).2 :=
      .trans ⟨Store.noteRead_inputs k s, Store.noteRead_revision k s⟩ (hb k (s.noteRead k))
    simp only [runWith]
    split
    · rename_i node s' he
      rw [he] at hk
      exact hk.trans (ih (.ok node.value) s')
    · rename_i e s' he
      rw [he] at hk
      exact hk.trans (ih (.error e) s')
    · rename_i s' he
      rwa [he] at hk
  | cancel next ih =>
    have hcancel : s.SameInputs s.cancelPass := ⟨rfl, rfl⟩
    exact hcancel.trans (ih s.cancelPass)

variable [BEq K] [∀ k, BEq (V k)]

theorem execute_inputs (k : K) (p : Program K V (V k)) (previous : Option (Memo K (V k)))
    (s : Store K V) : s.SameInputs (execute below k p previous s).2 := by
  have hr := p.runWith_inputs hb (s.start k)
  simp only [execute]
  split
  · exact .refl s
  · split
    · exact .refl s
    · simp only [compute]
      split
      all_goals
        rename_i h
        rw [h] at hr
        exact ⟨hr.inputs, hr.revision⟩

theorem revalidate_inputs (k : K) (p : Program K V (V k)) (memo : Memo K (V k))
    (s : Store K V) : s.SameInputs (revalidate below k p memo s).2 := by
  have hu := unchangedSince_inputs hb memo.verifiedAt memo.reads s
  simp only [revalidate]
  split
  · exact .refl s
  · split
    all_goals
      rename_i h
      rw [h] at hu
    · exact hu
    · exact ⟨hu.inputs, hu.revision⟩
    · exact hu.trans (execute_inputs hb k p (some memo) _)

end

variable [BEq K] [Coherent K V] [∀ k, BEq (V k)]

theorem fetch_input {rules : Rules K V} {k : K} {absent : V k} (h : rules k = .input absent)
    (depth : Nat) (s : Store K V) :
    fetch rules depth k s = (.ok ((s.inputs.get? k).getD ⟨absent, 0⟩), s) := by
  unfold fetch
  rw [h]

/-- A query without a memo is executed. -/
theorem fetch_of_unkept {rules : Rules K V} {k : K} {p : Program K V (V k)}
    (h : rules k = .query p) (depth : Nat) {s : Store K V} (hm : s.memos.get? k = none) :
    fetch rules (depth + 1) k s = execute (fetch rules depth) k p none s := by
  unfold fetch
  rw [h]
  simp only [hm]

theorem fetch_of_kept {rules : Rules K V} {k : K} {p : Program K V (V k)}
    (h : rules k = .query p) (depth : Nat) {s : Store K V} {m : Memo K (V k)}
    (hm : s.memos.get? k = some m) :
    fetch rules (depth + 1) k s = revalidate (fetch rules depth) k p m s := by
  unfold fetch
  rw [h]
  simp only [hm]

/-- A memo found valid at the current revision is read as it is. -/
theorem fetch_of_verified {rules : Rules K V} {k : K} {p : Program K V (V k)}
    (h : rules k = .query p) (depth : Nat) {s : Store K V} {m : Memo K (V k)}
    (hm : s.memos.get? k = some m) (hv : m.verifiedAt = s.revision) :
    fetch rules (depth + 1) k s = (.ok m.toStamped, s) := by
  rw [fetch_of_kept h depth hm, revalidate, if_pos (by simp [hv])]

/-- No read leaves a computing mark. -/
theorem fetch_active (rules : Rules K V) (depth : Nat) (k : K) (s : Store K V) :
    (fetch rules depth k s).2.active = s.active := by
  induction depth generalizing k s with
  | zero =>
    unfold fetch
    cases rules k <;> rfl
  | succ depth ih =>
    unfold fetch
    cases rules k with
    | input absent => rfl
    | refused e => rfl
    | query p =>
      simp only
      split
      · exact execute_active ih k p none s
      · exact revalidate_active ih k p _ s

/-- A program run from outside leaves nothing computing. -/
theorem run_idle (rules : Rules K V) (depth : Nat) (p : Program K V α) {s : Store K V}
    (h : s.active = []) : (p.run rules depth s).2.active = [] := by
  induction p generalizing s with
  | done a => exact h
  | fail e => exact h
  | read k next ih =>
    have hk := (fetch_active rules depth k s).trans h
    simp only [Program.run, Program.runWith, Store.noteRead_of_idle h]
    generalize fetch rules depth k s = out at hk
    obtain ⟨result, s'⟩ := out
    cases result with
    | ok node => exact ih (.ok node.value) hk
    | error halt =>
      cases halt with
      | failed e => exact ih (.error e) hk
      | tooDeep => exact hk
  | cancel next ih => exact ih (s := s.cancelPass) h

/-- A read from outside. -/
theorem run_get {rules : Rules K V} {s : Store K V} (h : s.active = []) (depth : Nat) (k : K) :
    ((Program.get k).run rules depth s).1 = (fetch rules depth k s).1.map (·.value) := by
  simp only [Program.run, Program.get, Program.runWith, Store.noteRead_of_idle h]
  cases fetch rules depth k s with
  | mk result s' =>
    rcases result with (e | _) | node <;> rfl

/-- No read changes an input. -/
theorem fetch_inputs (rules : Rules K V) (depth : Nat) (k : K) (s : Store K V) :
    s.SameInputs (fetch rules depth k s).2 := by
  induction depth generalizing k s with
  | zero =>
    unfold fetch
    cases rules k <;> exact .refl s
  | succ depth ih =>
    unfold fetch
    cases rules k with
    | input absent => exact .refl s
    | refused e => exact .refl s
    | query p =>
      simp only
      split
      · exact execute_inputs ih k p none s
      · exact revalidate_inputs ih k p _ s

theorem run_inputs (rules : Rules K V) (depth : Nat) (p : Program K V α) (s : Store K V) :
    s.SameInputs (p.run rules depth s).2 :=
  p.runWith_inputs (fetch_inputs rules depth) s

end SceneCodegen.Graph
