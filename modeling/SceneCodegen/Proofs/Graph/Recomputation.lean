import Mathlib.Data.List.Induction
import SceneCodegen.Proofs.Graph.Cycles
import SceneCodegen.Proofs.Graph.Data
import SceneCodegen.Proofs.Graph.Strictness

/-!
# Recomputation

How little is executed while no read fails and no pass is cancelled. Between two changes of inputs
each query is executed at most once; one that has a memo is executed only after a recorded node has
changed; and one whose recorded reads rest on inputs that have not changed is read without executing
anything.
-/
namespace SceneCodegen.Graph

section
variable {K : Type} {V : K → Type} {α : Type} [BEq K] [Coherent K V] [∀ k, BEq (V k)]
  {rules : Rules K V} {history before after : List (Move K V)} {move : Move K V} {s s' : Store K V}
  {k d : K} {r : Nat}

/-- The query was executed on the way from one store to another, under some spelling of its key. -/
def Executed (s s' : Store K V) (k : K) : Prop :=
  ∃ ks, s'.executed = ks ++ s.executed ∧ ks.contains k = true

namespace Move

/-- No read of a move fails, and no pass ends by its cancellation. -/
def Untroubled (rules : Rules K V) (s : Store K V) : Move K V → Prop
  | run depth program => Undisturbed rules program depth s
  | leave wasCancelled => wasCancelled = false
  | _ => True

/-- A move sets an input to a new value or executes a query to a value other than the one before,
under some spelling of the key. -/
def Changes (rules : Rules K V) (s : Store K V) (d : K) : Move K V → Prop
  | set k v => k == d ∧ (s.setInput k v).1 = .ok true
  | run depth program => ∃ k, k == d ∧ Executed s (program.run rules depth s).2 k ∧
    ∃ m m', s.memos.get? k = some m ∧ (program.run rules depth s).2.memos.get? k = some m' ∧
      (m.value == m'.value) = false
  | _ => False

end Move

/-- No move of a history meets a failure. -/
def Smooth (rules : Rules K V) (history : List (Move K V)) : Prop :=
  ∀ before move after, history = before ++ move :: after →
    move.Untroubled rules (reach rules before)

/-- A node was changed at a revision after a given one. -/
def ChangedSince (rules : Rules K V) (history : List (Move K V)) (r : Nat) (d : K) : Prop :=
  ∃ before move after, history = before ++ move :: after ∧
    r < (reach rules (before ++ [move])).revision ∧ move.Changes rules (reach rules before) d

theorem reach_snoc (rules : Rules K V) (before : List (Move K V)) (move : Move K V) :
    reach rules (before ++ [move]) = move.apply rules (reach rules before) := by
  simp [reach, follow, List.foldl_append]

namespace Smooth

theorem of_append (h : Smooth rules (before ++ after)) : Smooth rules before := by
  rintro first move last rfl
  exact h first move (last ++ after) (by simp)

theorem nil : Smooth rules [] := by
  intro before move after h
  simp at h

theorem snoc (h : Smooth rules before) (hm : move.Untroubled rules (reach rules before)) :
    Smooth rules (before ++ [move]) := by
  intro first m rest hsplit
  rcases List.eq_nil_or_concat rest with rfl | ⟨rest, x, rfl⟩
  · obtain ⟨rfl, hm'⟩ := List.append_inj' hsplit rfl
    cases hm'
    exact hm
  · rw [List.concat_eq_append, ← List.cons_append, ← List.append_assoc] at hsplit
    exact h first m rest (List.append_inj' hsplit rfl).1

theorem last (h : Smooth rules (before ++ [move])) : move.Untroubled rules (reach rules before) :=
  h before move [] rfl

end Smooth

namespace ChangedSince

theorem append (h : ChangedSince rules before r d) (after : List (Move K V)) :
    ChangedSince rules (before ++ after) r d := by
  obtain ⟨first, move, last, rfl, hr, hc⟩ := h
  exact ⟨first, move, last ++ after, by simp, hr, hc⟩

theorem last (hr : r < (move.apply rules (reach rules before)).revision)
    (hc : move.Changes rules (reach rules before) d) :
    ChangedSince rules (before ++ [move]) r d :=
  ⟨before, move, [], rfl, by rwa [reach_snoc], hc⟩

end ChangedSince

/-- Setting an input does nothing, or changes it at the next revision. -/
theorem setInput_cases (k : K) (v : V k) (s : Store K V) :
    (s.setInput k v).2 = s ∨ (s.setInput k v).1 = .ok true ∧ (s.setInput k v).2 =
      { s with revision := s.revision + 1, inputs := s.inputs.set k ⟨v, s.revision + 1⟩ } := by
  simp only [Store.setInput]
  split
  · exact .inl rfl
  · split
    · exact .inl rfl
    · exact .inr ⟨rfl, rfl⟩

theorem Kept.setInput (h : Kept rules s) (k : K) (v : V k) : Kept rules (s.setInput k v).2 := by
  rcases setInput_cases k v s with he | ⟨-, he⟩
  · rwa [he]
  · rw [he]
    refine ⟨⟨h.query, h.changed_le, ?_⟩, ?_⟩
    · intro d m hm
      exact Nat.le_succ_of_le (h.le_revision d m hm)
    · intro d m hm hv
      have hle := h.le_revision d m hm
      simp only at hv
      omega

variable [EquivBEq K] [OneSort rules]

/-- A run that meets no failure is a visit. -/
theorem Undisturbed.visit {p : Program K V α} {depth : Nat} (h : Undisturbed rules p depth s)
    (hs : Kept (strictly rules) s) (hidle : s.active = []) :
    ∃ ks, Visit (strictly rules) [] ks s (p.run rules depth s).2 ∧
      Kept (strictly rules) (p.run rules depth s).2 := by
  obtain ⟨a, hrun⟩ := h.run_strict
  exact p.relays_strict.run_visits (relays_strictly rules) hs hidle hrun

/-- What is known of memos stays known over a move without failures, which is a visit unless it
changes an input. -/
theorem Move.Untroubled.step (h : move.Untroubled rules s) (hs : Kept (strictly rules) s)
    (hidle : s.active = []) : Kept (strictly rules) (move.apply rules s) ∧
      (s.revision < (move.apply rules s).revision ∨
        ∃ ks, Visit (strictly rules) [] ks s (move.apply rules s)) := by
  cases move with
  | set k v =>
    refine ⟨hs.setInput k v, ?_⟩
    simp only [Move.apply]
    rcases setInput_cases k v s with he | ⟨-, he⟩
    · rw [he]
      exact .inr ⟨[], .refl [] s⟩
    · rw [he]
      exact .inl (Nat.lt_succ_self _)
  | run depth program =>
    obtain ⟨ks, hvisit, hs'⟩ := Undisturbed.visit h hs hidle
    exact ⟨hs', .inr ⟨ks, hvisit⟩⟩
  | enter token => exact ⟨hs.of_same rfl rfl rfl, .inr ⟨[], .of_same [] rfl rfl rfl rfl rfl⟩⟩
  | leave wasCancelled =>
    obtain rfl : wasCancelled = false := h
    exact ⟨hs.of_same rfl rfl rfl, .inr ⟨[], .of_same [] rfl rfl rfl rfl rfl⟩⟩

theorem Smooth.kept (h : Smooth rules history) : Kept (strictly rules) (reach rules history) := by
  induction history using List.reverseRecOn with
  | nil => exact .empty
  | append_singleton before move ih =>
    rw [reach_snoc]
    exact (h.last.step (ih h.of_append) (reach_idle rules before)).1

/-- While no input changes, all that is done is one visit. -/
theorem Smooth.visit (h : Smooth rules (before ++ after)) :
    (reach rules before).revision < (reach rules (before ++ after)).revision ∨
      ∃ ks, Visit (strictly rules) [] ks (reach rules before) (reach rules (before ++ after)) := by
  induction after using List.reverseRecOn with
  | nil =>
    rw [List.append_nil]
    exact .inr ⟨[], .refl [] _⟩
  | append_singleton after move ih =>
    rw [← List.append_assoc] at h ⊢
    obtain ⟨-, hlast⟩ := h.last.step h.of_append.kept (reach_idle rules _)
    rw [← reach_snoc] at hlast
    rcases ih h.of_append with hlt | ⟨ks, hvisit⟩
    · rcases hlast with hlt' | ⟨ls, hvisit'⟩
      · exact .inl (by omega)
      · exact .inl (by rw [hvisit'.revision]; exact hlt)
    · rcases hlast with hlt' | ⟨ls, hvisit'⟩
      · rw [hvisit.revision] at hlt'
        exact .inl hlt'
      · exact .inr ⟨ls ++ ks, hvisit.trans hvisit'⟩

/-- What is recorded in a memo is an input or has a memo as well. -/
def Linked (rules : Rules K V) (s : Store K V) : Prop :=
  ∀ k m, s.memos.get? k = some m → ∀ d ∈ m.reads,
    (∃ absent, rules d = .input absent) ∨ ∃ x, s.memos.get? d = some x

omit [OneSort rules] in
/-- A visit drops no memo, and what it executes rests on valid memos. -/
theorem Linked.visit {S ks : List K} (h : Linked rules s) (hvisit : Visit rules S ks s s')
    (hs' : Kept rules s') : Linked rules s' := by
  have hstays {d : K} (hd : ∃ x, s.memos.get? d = some x) : ∃ x, s'.memos.get? d = some x := by
    cases hks : ks.contains d with
    | true =>
      obtain ⟨-, x, hx, -⟩ := hvisit.recomputed_of_contains hks
      exact ⟨x, hx⟩
    | false =>
      rcases hvisit.rested d hks with he | ⟨x, -, -, hx, -⟩
      · rwa [he]
      · exact ⟨_, hx⟩
  intro k m hm d hd
  cases hks : ks.contains k with
  | true =>
    obtain ⟨-, x, hx, hv⟩ := hvisit.recomputed_of_contains hks
    obtain rfl : x = m := Option.some.inj (hx.symm.trans hm)
    have hg := hs'.grounded k x hm (hv.trans hvisit.revision.symm)
    cases hg with
    | input hk =>
      obtain ⟨p, hp⟩ := hs'.query k x hm
      rw [hk] at hp
      cases hp
    | @memo _ y hy _ hreads =>
      obtain rfl : y = x := Option.some.inj (hy.symm.trans hm)
      cases hreads d hd with
      | input hk => exact .inl ⟨_, hk⟩
      | memo hx _ _ => exact .inr ⟨_, hx⟩
  | false =>
    obtain ⟨x, hx, hreads⟩ : ∃ x, s.memos.get? k = some x ∧ x.reads = m.reads := by
      rcases hvisit.rested k hks with he | ⟨x, hx, -, hx', -⟩
      · exact ⟨m, he ▸ hm, rfl⟩
      · rw [hm] at hx'
        cases hx'
        exact ⟨x, hx, rfl⟩
    exact (h k x hx d (by rwa [hreads])).imp_right hstays

theorem Smooth.linked (h : Smooth rules history) :
    Linked (strictly rules) (reach rules history) := by
  induction history using List.reverseRecOn with
  | nil =>
    intro k m hm
    cases hm
  | append_singleton before move ih =>
    rw [reach_snoc]
    have hlinked := ih h.of_append
    cases move with
    | set k v =>
      intro d m hm
      simp only [Move.apply, (setInput_frame k v _).1] at hm ⊢
      exact hlinked d m hm
    | run depth program =>
      obtain ⟨ks, hvisit, hs'⟩ := Undisturbed.visit h.last h.of_append.kept
        (reach_idle rules before)
      exact hlinked.visit hvisit hs'
    | enter token => exact hlinked
    | leave wasCancelled =>
      obtain rfl : wasCancelled = false := h.last
      exact hlinked

/-- Where the store has a node changed after a revision, the history has it so: for inputs, and for
what is recorded in a memo, counted from when the memo was found valid. -/
structure Traced (rules : Rules K V) (history : List (Move K V)) : Prop where
  input : ∀ d x r, (reach rules history).inputs.get? d = some x → r < x.changedAt →
    ChangedSince rules history r d
  memo : ∀ k m d x, (reach rules history).memos.get? k = some m → d ∈ m.reads →
    (reach rules history).memos.get? d = some x → m.verifiedAt < x.changedAt →
    ChangedSince rules history m.verifiedAt d

omit [OneSort rules] in
/-- What is recorded in a memo and changed after it was found valid is so in the history. -/
theorem Traced.recorded (h : Traced rules history)
    (hlinked : Linked (strictly rules) (reach rules history)) {depth : Nat}
    {program : Program K V Unit} {ks : List K}
    (hvisit : Visit (strictly rules) [] ks (reach rules history)
      (program.run rules depth (reach rules history)).2)
    (hs' : Kept (strictly rules) (program.run rules depth (reach rules history)).2)
    {m : Memo K (V k)} (hm : (reach rules history).memos.get? k = some m) (hd : d ∈ m.reads)
    {x : Memo K (V d)}
    (hx : (program.run rules depth (reach rules history)).2.memos.get? d = some x)
    (hc : m.verifiedAt < x.changedAt) :
    ChangedSince rules (history ++ [.run depth program]) m.verifiedAt d := by
  cases hdk : ks.contains d with
  | true =>
    -- the memo is compared with the one before under the spelling that was executed
    obtain ⟨e, he, hde⟩ := List.contains_iff_exists_mem_beq.mp hdk
    obtain ⟨-, x', hx', hv', hchanged⟩ := hvisit.recomputed e he
    obtain ⟨x'', hx'', hcoeval⟩ := exists_memo_of_beq hde hx
    obtain rfl : x'' = x' := Option.some.inj (hx''.symm.trans hx')
    obtain ⟨y, hy⟩ : ∃ y, (reach rules history).memos.get? d = some y := by
      rcases hlinked k m hm d hd with ⟨absent, ha⟩ | hy
      · obtain ⟨p, hp⟩ := hs'.query d x hx
        rw [ha] at hp
        cases hp
      · exact hy
    obtain ⟨y', hy', hcoeval'⟩ := exists_memo_of_beq hde hy
    rw [hcoeval.changedAt] at hchanged
    simp only [Store.changedAt, hy', hcoeval'.changedAt] at hchanged
    split at hchanged
    · exact (h.memo k m d y hm hd hy (by omega)).append _
    · rename_i hne
      have hexecuted : Executed (reach rules history) _ e :=
        ⟨ks, hvisit.executed, contains_of_mem he⟩
      refine .last ?_ ⟨e, BEq.symm hde, hexecuted, y', x'', hy', hx'', by simpa using hne⟩
      show m.verifiedAt < (program.run rules depth (reach rules history)).2.revision
      rw [hvisit.revision]
      omega
  | false =>
    rcases hvisit.rested d hdk with he | ⟨y, hy, -, hy', -⟩
    · exact (h.memo k m d x hm hd (by rwa [← he]) hc).append _
    · rw [hx] at hy'
      cases hy'
      exact (h.memo k m d y hm hd hy hc).append _

theorem Smooth.traced (h : Smooth rules history) : Traced rules history := by
  induction history using List.reverseRecOn with
  | nil =>
    constructor
    · intro d x r hx
      cases hx
    · intro k m d x hm
      cases hm
  | append_singleton before move ih =>
    have htraced := ih h.of_append
    have hs := h.of_append.kept
    cases move with
    | set k v =>
      rcases setInput_cases k v (reach rules before) with he | ⟨hc, he⟩
      · constructor
        all_goals rw [reach_snoc, Move.apply, he]
        · exact fun d x r hx hr => (htraced.input d x r hx hr).append _
        · exact fun k m d x hm hd hx hr => (htraced.memo k m d x hm hd hx hr).append _
      · constructor
        all_goals rw [reach_snoc, Move.apply, he]
        · intro d x r hx hr
          cases hkd : k == d with
          | true =>
            rw [NodeTable.get?_set_of_beq hkd] at hx
            cases hx
            refine .last ?_ ⟨hkd, hc⟩
            rw [Move.apply, he]
            rwa [respell_stamped] at hr
          | false =>
            rw [NodeTable.get?_set_of_unlike hkd] at hx
            exact (htraced.input d x r hx hr).append _
        · exact fun k m d x hm hd hx hr => (htraced.memo k m d x hm hd hx hr).append _
    | run depth program =>
      obtain ⟨ks, hvisit, hs'⟩ := Undisturbed.visit h.last hs (reach_idle rules before)
      constructor
      all_goals rw [reach_snoc, Move.apply]
      · intro d x r hx hr
        rw [hvisit.inputs] at hx
        exact (htraced.input d x r hx hr).append _
      · intro k m d x hm hd hx hr
        have hnow (hv : m.verifiedAt = (reach rules before).revision) : False := by
          have hle := Nat.le_trans (hs'.changed_le d x hx) (hs'.le_revision d x hx)
          rw [hvisit.revision] at hle
          omega
        cases hk : ks.contains k with
        | true =>
          obtain ⟨-, m', hm', hv⟩ := hvisit.recomputed_of_contains hk
          rw [hm] at hm'
          cases hm'
          exact absurd hv hnow
        | false =>
          rcases hvisit.rested k hk with he | ⟨y, -, -, hy, -⟩
          · exact htraced.recorded h.of_append.linked hvisit hs' (by rwa [← he]) hd hx hr
          · rw [hm] at hy
            cases hy
            exact absurd rfl hnow
    | enter token =>
      constructor
      all_goals rw [reach_snoc, Move.apply]
      · exact fun d x r hx hr => (htraced.input d x r hx hr).append _
      · exact fun k m d x hm hd hx hr => (htraced.memo k m d x hm hd hx hr).append _
    | leave wasCancelled =>
      obtain rfl : wasCancelled = false := h.last
      constructor
      all_goals rw [reach_snoc, Move.apply]
      · exact fun d x r hx hr => (htraced.input d x r hx hr).append _
      · exact fun k m d x hm hd hx hr => (htraced.memo k m d x hm hd hx hr).append _

/-- A query with a memo that a run executes has recorded a node that changed since. -/
theorem Smooth.cause {depth : Nat} {program : Program K V Unit}
    (h : Smooth rules (before ++ [.run depth program])) {m : Memo K (V k)}
    (hm : (reach rules before).memos.get? k = some m)
    (hk : Executed (reach rules before) (reach rules (before ++ [.run depth program])) k) :
    ∃ d ∈ m.reads, ChangedSince rules (before ++ [.run depth program]) m.verifiedAt d := by
  have hs := h.of_append.kept
  obtain ⟨ks, hvisit, hs'⟩ := Undisturbed.visit h.last hs (reach_idle rules before)
  rw [reach_snoc] at hk
  obtain ⟨ls, hls, hk⟩ := hk
  obtain rfl : ks = ls := List.append_cancel_right (hvisit.executed.symm.trans hls)
  obtain ⟨-, first, d, rest, node, hreads, -, hd, hc⟩ := (hvisit.recomputed_of_contains hk).1 m hm
  have hmem : d ∈ m.reads := by simp [hreads]
  refine ⟨d, hmem, ?_⟩
  cases hd with
  | @input absent _ he =>
    subst he
    rw [hvisit.inputs] at hc
    cases hx : (reach rules before).inputs.get? d with
    | none =>
      rw [hx] at hc
      cases hc
    | some x =>
      rw [hx] at hc
      exact (h.of_append.traced.input d x _ hx hc).append _
  | @memo x hx _ he =>
    subst he
    exact h.of_append.traced.recorded h.of_append.linked hvisit hs' hm hmem hx hc

/-- A node rests on another through the reads recorded in memos. -/
inductive RestsOn (s : Store K V) : K → K → Prop
  | self (k : K) : RestsOn s k k
  | read {k d e : K} {m : Memo K (V k)} (hm : s.memos.get? k = some m) (hd : d ∈ m.reads)
      (h : RestsOn s d e) : RestsOn s k e

/-- A node stands in a later store as it stood in an earlier one: an input has not changed, and of a
memo no more than the revision is new at which it was found valid. -/
def Stands (rules : Rules K V) (s s' : Store K V) (k : K) : Prop :=
  (∃ absent, rules k = .input absent ∧
    ((s'.inputs.get? k).getD ⟨absent, 0⟩).changedAt ≤ s.revision) ∨
  ∃ m r, s.memos.get? k = some m ∧ s.revision ≤ r ∧
    s'.memos.get? k = some { m with verifiedAt := r }

namespace Stands

omit [EquivBEq K] [OneSort rules] [∀ k, BEq (V k)] in
/-- What stands, and is valid, did not change after the earlier store. -/
theorem changedAt_le (h : Stands rules s s' k) (hs : Tidy rules s) (hs' : Tidy rules s')
    {node : Stamped (V k)} (hn : Holds rules s' k node) : node.changedAt ≤ s.revision := by
  rcases h with ⟨absent, hk, hle⟩ | ⟨m, r, hm, -, hm'⟩
  · cases hn with
    | input hk' he =>
      rw [hk] at hk'
      cases hk'
      rwa [he]
    | memo hx _ _ =>
      obtain ⟨p, hp⟩ := hs'.query k _ hx
      rw [hk] at hp
      cases hp
  · cases hn with
    | input hk' _ =>
      obtain ⟨p, hp⟩ := hs.query k m hm
      rw [hk'] at hp
      cases hp
    | memo hx _ he =>
      rw [hm'] at hx
      cases hx
      subst he
      exact Nat.le_trans (hs.changed_le k m hm) (hs.le_revision k m hm)

omit [EquivBEq K] [OneSort rules] [∀ k, BEq (V k)] in
/-- A memo that stands has kept its value. -/
theorem value_eq (h : Stands rules s s' k) (hs : Tidy rules s) {m : Memo K (V k)}
    (hm : s.memos.get? k = some m) {node : Stamped (V k)} (hn : Holds rules s' k node) :
    node.value = m.value := by
  obtain ⟨p, hp⟩ := hs.query k m hm
  rcases h with ⟨absent, hk, -⟩ | ⟨m', r, hm', -, hx⟩
  · rw [hk] at hp
    cases hp
  · rw [hm] at hm'
    cases hm'
    cases hn with
    | input hk _ =>
      rw [hk] at hp
      cases hp
    | memo hy _ he =>
      rw [hx] at hy
      cases hy
      rw [he]

omit [OneSort rules] in
/-- What rests on nodes that stand is not executed, and stands. -/
theorem visit {s'' : Store K V} {S ks : List K} (hs : Tidy rules s) (hs'' : Tidy rules s'')
    (hvisit : Visit rules S ks s' s'') (hle : s.revision ≤ s'.revision) (hg : Grounded rules s k)
    (h : ∀ d, RestsOn s k d → Stands rules s s' d) :
    ks.contains k = false ∧ Stands rules s s'' k := by
  induction hg with
  | @input k absent hk =>
    have hself := h k (.self k)
    refine ⟨Bool.eq_false_iff.mpr fun hks => ?_, ?_⟩
    · obtain ⟨-, m, hm, -⟩ := hvisit.recomputed_of_contains hks
      obtain ⟨p, hp⟩ := hs''.query k m hm
      rw [hk] at hp
      cases hp
    · rcases hself with ⟨absent, hk, hc⟩ | ⟨m, r, hm, -⟩
      · exact .inl ⟨absent, hk, by rwa [hvisit.inputs]⟩
      · obtain ⟨p, hp⟩ := hs.query k m hm
        rw [hk] at hp
        cases hp
  | @memo k m hm hv hreads ih =>
    obtain ⟨r, hr, hm'⟩ : ∃ r, s.revision ≤ r ∧
        s'.memos.get? k = some { m with verifiedAt := r } := by
      rcases h k (.self k) with ⟨absent, hk, -⟩ | ⟨m', r, hx, hr, hm'⟩
      · obtain ⟨p, hp⟩ := hs.query k m hm
        rw [hk] at hp
        cases hp
      · rw [hm] at hx
        cases hx
        exact ⟨r, hr, hm'⟩
    have hks : ks.contains k = false := by
      refine Bool.eq_false_iff.mpr fun hks => ?_
      obtain ⟨-, first, d, rest, node, hsplit, -, hd, hc⟩ :=
        (hvisit.recomputed_of_contains hks).1 _ hm'
      have hmem : d ∈ m.reads := by simp [show m.reads = _ from hsplit]
      have hstands := (ih d hmem fun e he => h e (.read hm hmem he)).2
      have hle' := hstands.changedAt_le hs hs'' hd
      simp only at hc
      omega
    refine ⟨hks, .inr ?_⟩
    rcases hvisit.rested k hks with he | ⟨x, hx, -, hx', -⟩
    · exact ⟨m, r, hm, hr, he.trans hm'⟩
    · rw [hm'] at hx
      cases hx
      exact ⟨m, s'.revision, hm, hle, hx'⟩

end Stands

/-- From every later store in which some nodes stand, reads of a node succeed at sufficient depths
and execute nothing. -/
def ReadsIdly (rules : Rules K V) (s : Store K V) (T : K → Prop) (k : K) : Prop :=
  ∃ N, ∀ depth, N ≤ depth → ∀ s', Kept rules s' → s.revision ≤ s'.revision →
    (∀ e, T e → Stands rules s s' e) → ∃ node s'', fetch rules depth k s' = (.ok node, s'') ∧
      s''.executed = s'.executed ∧ s''.started = s'.started

section
variable (hF : ∀ k p, rules k = .query p → p.Relays fun _ => True) (hs : Kept rules s)
  {T : K → Prop} (hT : ∀ d, T d → Grounded rules s d)
  (hclosed : ∀ k m d, T k → s.memos.get? k = some m → d ∈ m.reads → T d)
include hF hs hT hclosed

omit [OneSort rules] hF in
theorem Stands.of_visit {s'' : Store K V} {S ks : List K} (hs'' : Kept rules s'')
    (hvisit : Visit rules S ks s' s'') (hle : s.revision ≤ s'.revision)
    (h : ∀ e, T e → Stands rules s s' e) (e : K) (he : T e) : Stands rules s s'' e := by
  have hrests {d : K} (hd : RestsOn s e d) : T d := by
    clear hle hvisit
    induction hd with
    | self k => exact he
    | read hm hd _ ih => exact ih (hclosed _ _ _ he hm hd)
  exact (Stands.visit hs hs'' hvisit hle (hT e he) fun d hd => h d (hrests hd)).2

/-- Checking what stands finds it unchanged and executes nothing. -/
theorem unchangedSince_idly {ks : List K} (hks : ∀ d ∈ ks, T d ∧ ReadsIdly rules s T d) :
    ∃ N, ∀ depth, N ≤ depth → ∀ r s', s.revision ≤ r → Kept rules s' →
      s.revision ≤ s'.revision → (∀ e, T e → Stands rules s s' e) → ∃ s'',
        unchangedSince (fetch rules depth) r ks s' = (.ok true, s'') ∧
        s''.executed = s'.executed ∧ s''.started = s'.started := by
  induction ks with
  | nil => exact ⟨0, fun depth _ r s' _ _ _ _ => ⟨s', rfl, rfl, rfl⟩⟩
  | cons d ks ih =>
    obtain ⟨hd, N, hN⟩ := hks d List.mem_cons_self
    obtain ⟨M, hM⟩ := ih fun e he => hks e (List.mem_cons_of_mem d he)
    refine ⟨max N M, fun depth hdepth r s' hr hs' hle hstands => ?_⟩
    obtain ⟨node, s₁, hfetch, hexecuted, hstarted⟩ := hN depth (by omega) s' hs' hle hstands
    obtain ⟨ls, hvisit, hs₁, hholds⟩ :=
      fetch_visits hF depth [] d s' node s₁ hs' (by simp [Pending]) hfetch
    have hstands₁ := Stands.of_visit hs hT hclosed hs₁ hvisit hle hstands
    have hc := (hstands₁ d hd).changedAt_le hs hs₁ hholds
    obtain ⟨s₂, hrest, hexecuted', hstarted'⟩ :=
      hM depth (by omega) r s₁ hr hs₁ (by rwa [hvisit.revision]) hstands₁
    refine ⟨s₂, ?_, hexecuted'.trans hexecuted, hstarted'.trans hstarted⟩
    simp only [unchangedSince, hfetch]
    rwa [if_neg (by omega)]

/-- What stands is read without executing anything. -/
theorem readsIdly (hg : Grounded rules s k) (hk : T k) : ReadsIdly rules s T k := by
  induction hg with
  | input hrule =>
    exact ⟨0, fun depth _ s' _ _ _ => ⟨_, s', fetch_input hrule depth s', rfl, rfl⟩⟩
  | @memo k m hm hv _ ih =>
    obtain ⟨p, hp⟩ := hs.query k m hm
    have hreads (d : K) (hd : d ∈ m.reads) : T d ∧ ReadsIdly rules s T d :=
      ⟨hclosed k m d hk hm hd, ih d hd (hclosed k m d hk hm hd)⟩
    obtain ⟨N, hN⟩ := unchangedSince_idly hF hs hT hclosed hreads
    refine ⟨N + 1, fun depth hdepth s' hs' hle hstands => ?_⟩
    obtain ⟨depth, rfl⟩ : ∃ n, depth = n + 1 := ⟨depth - 1, by omega⟩
    obtain ⟨r, hr, hm'⟩ : ∃ r, s.revision ≤ r ∧
        s'.memos.get? k = some { m with verifiedAt := r } := by
      rcases hstands k hk with ⟨absent, hinput, -⟩ | ⟨m', r, hx, hr, hm'⟩
      · rw [hinput] at hp
        cases hp
      · rw [hm] at hx
        cases hx
        exact ⟨r, hr, hm'⟩
    by_cases hvalid : r = s'.revision
    · exact ⟨_, s', fetch_of_verified hp depth hm' hvalid, rfl, rfl⟩
    · obtain ⟨s₁, hcheck, hexecuted, hstarted⟩ :=
        hN depth (by omega) r s' hr hs' hle hstands
      refine ⟨m.toStamped, s₁.verify k { m with verifiedAt := r }, ?_, hexecuted, hstarted⟩
      rw [fetch_of_kept hp depth hm']
      simp [revalidate, hvalid, hcheck]

end

theorem Smooth.revision_le (h : Smooth rules (before ++ after)) :
    (reach rules before).revision ≤ (reach rules (before ++ after)).revision := by
  rcases h.visit with hlt | ⟨ks, hvisit⟩
  · exact Nat.le_of_lt hlt
  · exact Nat.le_of_eq hvisit.revision.symm

omit [EquivBEq K] [OneSort rules] [∀ k, BEq (V k)] in
theorem grounded_of_restsOn (hs : Tidy rules s) (h : RestsOn s k d) (hg : Grounded rules s k) :
    Grounded rules s d := by
  induction h with
  | self k => exact hg
  | @read k d e m hm hd _ ih =>
    refine ih ?_
    cases hg with
    | input hk =>
      obtain ⟨p, hp⟩ := hs.query k m hm
      rw [hk] at hp
      cases hp
    | memo hm' _ hreads =>
      rw [hm] at hm'
      cases hm'
      exact hreads d hd

omit [EquivBEq K] [∀ k, BEq (V k)] in
theorem RestsOn.snoc (h : RestsOn s k d) {m : Memo K (V d)} (hm : s.memos.get? d = some m) {e : K}
    (he : e ∈ m.reads) : RestsOn s k e := by
  induction h with
  | self k => exact .read hm he (.self e)
  | read hm' hd _ ih => exact .read hm' hd (ih hm he)

/-- What a valid node rests on stands for as long as no input does not that it rests on. -/
theorem Smooth.stands (h : Smooth rules (before ++ after))
    (hg : Grounded (strictly rules) (reach rules before) k)
    (hinputs : ∀ d absent, RestsOn (reach rules before) k d → rules d = .input absent →
      ¬ ChangedSince rules (before ++ after) (reach rules before).revision d) (d : K)
    (hd : RestsOn (reach rules before) k d) :
    Stands (strictly rules) (reach rules before) (reach rules (before ++ after)) d := by
  have hs := h.of_append.kept
  -- an input stands whatever was done
  have hinput {later : List (Move K V)} (hlater : Smooth rules (before ++ later))
      (hunchanged : ∀ d absent, RestsOn (reach rules before) k d → rules d = .input absent →
        ¬ ChangedSince rules (before ++ later) (reach rules before).revision d) {d : K}
      (hd : RestsOn (reach rules before) k d) {absent : V d}
      (hk : strictly rules d = .input absent) :
      Stands (strictly rules) (reach rules before) (reach rules (before ++ later)) d := by
    refine .inl ⟨absent, hk, ?_⟩
    cases hx : (reach rules (before ++ later)).inputs.get? d with
    | none => exact Nat.zero_le _
    | some x =>
      refine Nat.le_of_not_lt fun hlt => ?_
      exact hunchanged d absent hd (strictly_input_iff.mp hk) (hlater.traced.input d x _ hx hlt)
  induction after using List.reverseRecOn generalizing d with
  | nil =>
    cases grounded_of_restsOn hs hd hg with
    | input hk => exact hinput h hinputs hd hk
    | @memo _ m hm hv _ =>
      rw [List.append_nil]
      exact .inr ⟨m, m.verifiedAt, hm, Nat.le_of_eq hv.symm, hm⟩
  | append_singleton after move ih =>
    have hbefore : Smooth rules (before ++ after) := by
      rw [← List.append_assoc] at h
      exact h.of_append
    have hstands (d : K) (hd : RestsOn (reach rules before) k d) :
        Stands (strictly rules) (reach rules before) (reach rules (before ++ after)) d := by
      refine ih hbefore (fun d absent hd hk hc => hinputs d absent hd hk ?_) d hd
      rw [← List.append_assoc]
      exact hc.append [move]
    have hlast : Move.Untroubled rules (reach rules (before ++ after)) move := by
      rw [← List.append_assoc] at h
      exact h.last
    cases grounded_of_restsOn hs hd hg with
    | input hk => exact hinput h hinputs hd hk
    | @memo _ m hm hv _ =>
      have hkept := h.kept
      rw [← List.append_assoc, reach_snoc] at hkept ⊢
      have hvisit {ks : List K} (hvisit : Visit (strictly rules) [] ks
          (reach rules (before ++ after)) (move.apply rules (reach rules (before ++ after)))) :=
        Stands.of_visit hs (fun d hd => grounded_of_restsOn hs hd hg)
          (fun a m e ha hm he => ha.snoc hm he) hkept hvisit hbefore.revision_le hstands d hd
      obtain ⟨-, hlt | ⟨ks, hks⟩⟩ := hlast.step hbefore.kept (reach_idle rules _)
      · -- only an input has changed
        cases move with
        | set i v =>
          rcases hstands d hd with ⟨absent, hk, -⟩ | ⟨m', r, hm', hr, hx⟩
          · obtain ⟨p, hp⟩ := hs.query d m hm
            rw [hk] at hp
            cases hp
          · refine .inr ⟨m', r, hm', hr, ?_⟩
            simp only [Move.apply, (setInput_frame i v _).1]
            exact hx
        | run depth program =>
          obtain ⟨ks, hks, -⟩ := Undisturbed.visit hlast hbefore.kept (reach_idle rules _)
          exact hvisit hks
        | enter token => exact absurd hlt (Nat.lt_irrefl _)
        | leave wasCancelled => exact absurd hlt (Nat.lt_irrefl _)
      · exact hvisit hks

omit [EquivBEq K] [OneSort rules] in
theorem run_get_ok {depth : Nat} {node : Stamped (V k)} (hidle : s.active = [])
    (hf : fetch rules depth k s = (.ok node, s')) :
    (Program.get k).run rules depth s = (.ok node.value, s') := by
  simp [Program.run, Program.get, Program.runWith, Store.noteRead_of_idle hidle, hf]

/-- How little is executed in a history: no query twice before an input changes; none that has a
memo before something recorded in it changes; and none at all to read one that was valid when the
inputs last changed on which it rests. -/
structure RecomputesLittle (rules : Rules K V) (history : List (Move K V)) : Prop where
  once : ∀ before after, history = before ++ after →
    (reach rules before).revision = (reach rules history).revision →
    ∃ ks ls, (reach rules history).executed = ks ++ (reach rules before).executed ∧ Unlike ks ∧
      (reach rules history).started.map Prod.fst =
        ls ++ (reach rules before).started.map Prod.fst ∧ Unlike ls
  cause : ∀ before depth program after, history = before ++ .run depth program :: after →
    ∀ k m, (reach rules before).memos.get? k = some m →
    Executed (reach rules before) (reach rules (before ++ [.run depth program])) k →
    ∃ d ∈ m.reads, ChangedSince rules (before ++ [.run depth program]) m.verifiedAt d
  idle : ∀ before after, history = before ++ after →
    ∀ k m, (reach rules before).memos.get? k = some m →
    m.verifiedAt = (reach rules before).revision →
    (∀ d absent, RestsOn (reach rules before) k d → rules d = .input absent →
      ¬ ChangedSince rules history m.verifiedAt d) →
    ∃ N, ∀ depth, N ≤ depth → ∃ s',
      (Program.get k).run rules depth (reach rules history) = (.ok m.value, s') ∧
      s'.executed = (reach rules history).executed ∧ s'.started = (reach rules history).started

theorem recomputesLittle (h : Smooth rules history) : RecomputesLittle rules history := by
  refine ⟨?_, ?_, ?_⟩
  · rintro before after rfl hrevision
    rcases h.visit with hlt | ⟨ks, hvisit⟩
    · omega
    · obtain ⟨ls, hls, hperm⟩ := hvisit.started
      exact ⟨ks, ls, hvisit.executed, hvisit.unlike, hls,
        hvisit.unlike.perm hperm.symm BEq.symm_false⟩
  · rintro before depth program after rfl k m hm hk
    rw [List.append_cons] at h
    exact h.of_append.cause hm hk
  · rintro before after rfl k m hm hv hinputs
    have hs := h.of_append.kept
    have hg := hs.grounded k m hm hv
    rw [hv] at hinputs
    have hstands := h.stands hg hinputs
    obtain ⟨N, hN⟩ := readsIdly (relays_strictly rules) hs
      (fun d hd => grounded_of_restsOn hs hd hg) (fun a m e ha hm he => ha.snoc hm he) hg
      (RestsOn.self k)
    refine ⟨N, fun depth hdepth => ?_⟩
    obtain ⟨node, s', hfetch, hexecuted, hstarted⟩ :=
      hN depth hdepth (reach rules (before ++ after)) h.kept h.revision_le hstands
    obtain ⟨ks, hvisit, hs', hholds⟩ := fetch_visits (relays_strictly rules) depth [] k _ node s'
      h.kept (by simp [Pending]) hfetch
    have hvalue := (Stands.of_visit hs (fun d hd => grounded_of_restsOn hs hd hg)
      (fun a m e ha hm he => ha.snoc hm he) hs' hvisit h.revision_le hstands k
      (.self k)).value_eq hs hm hholds
    refine ⟨s', ?_, hexecuted, hstarted⟩
    rw [← hvalue]
    exact run_get_ok (reach_idle rules _) (fetch_of_strict hfetch)

end

namespace Open

/-- A query of one argument, which puts an input beside it. -/
def shelf : OpenGraph where
  queries := [("shelf", OpenGraph.keyedQuery fun x =>
    (Program.get (keyOf "book" [])).bind fun book => .done (.tuple [x, book]))]

namespace Shelf

def key (x : Datum) : Key := keyOf "shelf" [x]

def look (x : Datum) : Move Key Value := .run 2 ((Program.get (key x)).bind fun _ => .done ())

/-- The query is read under two spellings of its key, before and after the input is set. -/
def history : List (Move Key Value) :=
  [look (.int 1), look (.bool true), .set (keyOf "book" []) (.text "poems"), look (.bool true),
    look (.int 1)]

theorem smooth : Smooth shelf.rules history := by
  have h₀ : Smooth shelf.rules [] := .nil
  have h₁ : Smooth shelf.rules [look (.int 1)] := h₀.snoc ⟨(), rfl⟩
  have h₂ : Smooth shelf.rules [look (.int 1), look (.bool true)] := h₁.snoc ⟨(), rfl⟩
  have h₃ : Smooth shelf.rules [look (.int 1), look (.bool true),
      .set (keyOf "book" []) (.text "poems")] := h₂.snoc trivial
  have h₄ : Smooth shelf.rules [look (.int 1), look (.bool true),
      .set (keyOf "book" []) (.text "poems"), look (.bool true)] := h₃.snoc ⟨(), rfl⟩
  exact h₄.snoc ⟨(), rfl⟩

end Shelf

theorem recomputesLittle_shelf :
    Smooth shelf.rules Shelf.history ∧ RecomputesLittle shelf.rules Shelf.history :=
  ⟨Shelf.smooth, recomputesLittle Shelf.smooth⟩

end Open

/-- A supply of one number in either form, a gauge that shows a dial for one of them only, and a
node that watches the gauge. -/
inductive Meter | switch | dial | supply | gauge | watcher
  deriving DecidableEq

namespace Meter

instance : Node Meter where
  queryName _ := "meter"
  text _ := "meter"

def ruleOf : Rules Meter fun _ => Numeral
  | switch => .input ⟨0, false⟩
  | dial => .input ⟨0, false⟩
  | supply => .query ((Program.get switch).bind fun n => .done ⟨1, n.value != 0⟩)
  | gauge => .query ((Program.get supply).bind fun n =>
      if n.pointed then .done ⟨9, false⟩ else Program.get dial)
  | watcher => .query (Program.get gauge)

def look (k : Meter) : Move Meter fun _ => Numeral :=
  .run 4 ((Program.get k).bind fun _ => .done ())

/-- The watcher is read before and after the supply takes its other form; then the dial is set, and
the gauge alone is read. -/
def history : List (Move Meter fun _ => Numeral) :=
  [look watcher, .set switch ⟨1, false⟩, look watcher, .set dial ⟨5, false⟩, look gauge]

theorem smooth : Smooth ruleOf history := by
  have h₀ : Smooth ruleOf [] := .nil
  have h₁ : Smooth ruleOf [look watcher] := h₀.snoc ⟨(), rfl⟩
  have h₂ : Smooth ruleOf [look watcher, .set switch ⟨1, false⟩] := h₁.snoc trivial
  have h₃ : Smooth ruleOf [look watcher, .set switch ⟨1, false⟩, look watcher] :=
    h₂.snoc ⟨(), rfl⟩
  have h₄ : Smooth ruleOf [look watcher, .set switch ⟨1, false⟩, look watcher,
      .set dial ⟨5, false⟩] := h₃.snoc trivial
  exact h₄.snoc ⟨(), rfl⟩

/-- By the memos there are in the end, the watcher rests on the switch and not on the dial. -/
theorem mem_of_restsOn {d : Meter} (h : RestsOn (reach ruleOf history) watcher d) :
    d ∈ [watcher, gauge, supply, switch] := by
  have hclosed {k d : Meter} (h : RestsOn (reach ruleOf history) k d)
      (hk : k ∈ [watcher, gauge, supply, switch]) : d ∈ [watcher, gauge, supply, switch] := by
    induction h with
    | self k => exact hk
    | @read k d e m hm hd _ ih =>
      refine ih ?_
      cases k with
      | switch => cases hm
      | dial => simp at hk
      | supply =>
        cases hm
        exact List.mem_singleton.mp hd ▸ by simp
      | gauge =>
        cases hm
        exact List.mem_singleton.mp hd ▸ by simp
      | watcher =>
        cases hm
        exact List.mem_singleton.mp hd ▸ by simp
  exact hclosed h (by simp)

/-- The switch was not set after the watcher was last found valid. -/
theorem not_changedSince : ¬ ChangedSince ruleOf history 1 switch := by
  rintro ⟨before, move, after, hsplit, hr, hc⟩
  rcases before with _ | ⟨a, _ | ⟨b, _ | ⟨c, _ | ⟨d, _ | ⟨e, rest⟩⟩⟩⟩⟩
  all_goals simp only [history, List.nil_append, List.cons_append, List.cons.injEq] at hsplit
  · obtain ⟨rfl, -⟩ := hsplit
    obtain ⟨k, hk, -, m, m', hm, -⟩ := hc
    obtain rfl := eq_of_beq hk
    cases hm
  · obtain ⟨rfl, rfl, -⟩ := hsplit
    exact absurd hr (Nat.lt_irrefl 1)
  · obtain ⟨rfl, rfl, rfl, -⟩ := hsplit
    obtain ⟨k, hk, -, m, m', hm, -⟩ := hc
    obtain rfl := eq_of_beq hk
    cases hm
  · obtain ⟨rfl, rfl, rfl, rfl, -⟩ := hsplit
    obtain ⟨hdial, -⟩ := hc
    cases hdial
  · obtain ⟨rfl, rfl, rfl, rfl, rfl, -⟩ := hsplit
    obtain ⟨k, hk, -, m, m', hm, -⟩ := hc
    obtain rfl := eq_of_beq hk
    cases hm
  · simp at hsplit

end Meter

/-- No input has changed on which the watcher now rests, and yet a read executes it: the gauge was
executed anew, and no longer reads the dial. -/
theorem closure_moved_on :
    Smooth Meter.ruleOf Meter.history ∧
    (∃ m, (reach Meter.ruleOf Meter.history).memos.get? .watcher = some m ∧ m.verifiedAt = 1) ∧
    (∀ d absent, RestsOn (reach Meter.ruleOf Meter.history) .watcher d →
      Meter.ruleOf d = .input absent → ¬ ChangedSince Meter.ruleOf Meter.history 1 d) ∧
    ((Program.get .watcher).run Meter.ruleOf 4 (reach Meter.ruleOf Meter.history)).2.executed =
      .watcher :: (reach Meter.ruleOf Meter.history).executed := by
  refine ⟨Meter.smooth, ⟨_, rfl, rfl⟩, fun d absent hd hk => ?_, rfl⟩
  have hmem := Meter.mem_of_restsOn hd
  cases d with
  | switch => exact Meter.not_changedSince
  | dial => simp at hmem
  | supply => cases hk
  | gauge => cases hk
  | watcher => cases hk

end SceneCodegen.Graph
