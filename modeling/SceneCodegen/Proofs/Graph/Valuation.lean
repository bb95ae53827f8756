import SceneCodegen.Proofs.Graph.Frames
import SceneCodegen.Proofs.Graph.Safety

/-!
# Valuations

Where every query is safe and reads nodes of lower levels only, the nodes have values that fit each
other: each query's program comes to the query's value when all that it reads has its value. A store
whose memos were all found valid at its revision and hold these values reads every node as its
value, whatever the values of the nodes can be told apart by.
-/
namespace SceneCodegen.Graph

variable {K : Type} {V : K → Type} {α β : Type} {rules : Rules K V} {inputs : Inputs K V}
  {value : (k : K) → V k}

/-- What a program comes to when every node has the given value. -/
def Program.ComesTo (value : (k : K) → V k) (p : Program K V α) (a : α) : Prop :=
  p.evalWith (fun k => .ok (value k)) = .ok a

namespace Program.ComesTo

theorem done (a : α) : (Program.done a : Program K V α).ComesTo value a := rfl

theorem get (k : K) : (Program.get k).ComesTo value (value k) := rfl

theorem unique {p : Program K V α} {a b : α} (ha : p.ComesTo value a) (hb : p.ComesTo value b) :
    a = b := Except.ok.inj (ha.symm.trans hb)

theorem bind {p : Program K V α} {a : α} (hp : p.ComesTo value a) {f : α → Program K V β} {b : β}
    (hf : (f a).ComesTo value b) : (p.bind f).ComesTo value b := by
  induction p with
  | done a' =>
    cases hp
    exact hf
  | fail e => cases hp
  | read k next ih => exact ih (.ok (value k)) hp
  | cancel next ih => exact ih hp

theorem map {p : Program K V α} {a : α} (hp : p.ComesTo value a) (f : α → β) :
    (f <$> p).ComesTo value (f a) := hp.bind (done (f a))

theorem mapM {f : α → Program K V β} {g : α → β} {l : List α}
    (h : ∀ a ∈ l, (f a).ComesTo value (g a)) : (l.mapM f).ComesTo value (l.map g) := by
  induction l with
  | nil =>
    rw [List.mapM_nil]
    exact done []
  | cons a l ih =>
    rw [List.mapM_cons]
    have hrest := ih fun b hb => h b (List.mem_cons_of_mem a hb)
    exact (h a List.mem_cons_self).bind (hrest.bind (done (g a :: l.map g)))

theorem ofExcept {r : Except (Failure K) α} {a : α} (h : r = .ok a) :
    (Program.ofExcept r : Program K V α).ComesTo value a := by
  rw [h]
  exact done a

/-- A handler is of no account to a program that comes to a result. -/
theorem catching {p : Program K V α} {a : α} (hp : p.ComesTo value a)
    (handler : Failure K → Program K V α) : (p.catching handler).ComesTo value a := by
  induction p with
  | done a' => exact hp
  | fail e => cases hp
  | read k next ih => exact ih (.ok (value k)) hp
  | cancel next ih => exact ih hp

theorem of_settleWith {below : (k : K) → Except (Halt K) (V k)}
    (hbelow : ∀ k v, below k = .ok v → v = value k) {p : Program K V α} {ks : List K} {a : α}
    (h : p.settleWith below = .ok (ks, a)) : p.ComesTo value a := by
  induction p generalizing ks with
  | done a' =>
    cases h
    exact done a
  | fail e => cases h
  | read k next ih =>
    simp only [Program.settleWith] at h
    cases hv : below k with
    | error halt => simp [hv] at h
    | ok v =>
      simp only [hv] at h
      obtain ⟨⟨ks', a'⟩, hnext, heq⟩ := map_eq_ok_iff.mp h
      cases heq
      obtain rfl := hbelow k v hv
      exact ih (.ok (value k)) hnext
  | cancel next ih => exact ih h

end Program.ComesTo

/-- A value for each node that fits its rule when all other nodes have theirs. -/
structure Valuation (rules : Rules K V) (inputs : Inputs K V) (value : (k : K) → V k) : Prop where
  input : ∀ k absent, rules k = .input absent → value k = (inputs k).getD absent
  query : ∀ k p, rules k = .query p → p.ComesTo value (value k)

/-- What nodes settle to fits. -/
theorem Valuation.of_settles (h : ∀ k, ∃ n, settle rules inputs n k = .ok (value k)) :
    Valuation rules inputs value where
  input k absent hk := by
    obtain ⟨n, hn⟩ := h k
    rw [settle_input hk] at hn
    exact (Except.ok.inj hn).symm
  query k p hk := by
    obtain ⟨n, hn⟩ := h k
    cases n with
    | zero =>
      rw [settle_zero hk] at hn
      cases hn
    | succ n =>
      rw [settle_succ hk] at hn
      obtain ⟨⟨ks, v⟩, hrun, hv⟩ := map_eq_ok_iff.mp hn
      obtain rfl : v = value k := hv
      refine .of_settleWith (fun d w hw => ?_) hrun
      obtain ⟨m, hm⟩ := h d
      exact settle_ok_unique hw hm

/-- Nodes that all settle have values that fit. -/
theorem Leveled.exists_valuation {level : K → Nat} (h : Leveled rules level) (inputs : Inputs K V) :
    ∃ value, Valuation rules inputs value := by
  have hsettles (k : K) : ∃ v, settle rules inputs (level k + 1) k = .ok v :=
    h.settles (Nat.lt_succ_self (level k))
  obtain ⟨value, hvalue⟩ := Classical.skolem.mp hsettles
  exact ⟨value, .of_settles fun k => ⟨_, hvalue k⟩⟩

section
variable [BEq K] [LawfulBEq K] {s : Store K V} {k : K}

/-- Outside any pass, inputs and memos hold the values of their nodes, and every memo is of the
current revision. -/
structure Current (rules : Rules K V) (value : (k : K) → V k) (s : Store K V) : Prop where
  token : s.token = none
  input : ∀ k absent, rules k = .input absent → (s.input? k).getD absent = value k
  memo : ∀ k p m, rules k = .query p → s.memos.get? k = some m →
    m.verifiedAt = s.revision ∧ m.value = value k

namespace Current

theorem of_same {s' : Store K V} (h : Current rules value s) (htoken : s'.token = none)
    (hinputs : s'.inputs = s.inputs) (hmemos : s'.memos = s.memos)
    (hrevision : s'.revision = s.revision) : Current rules value s' where
  token := htoken
  input k absent hk := by
    rw [Store.input?, hinputs]
    exact h.input k absent hk
  memo k p m hk hm := by
    rw [hrevision]
    rw [hmemos] at hm
    exact h.memo k p m hk hm

theorem noteRead (h : Current rules value s) (k : K) : Current rules value (s.noteRead k) :=
  h.of_same (by simpa using h.token) (by simp) (by simp) (by simp)

theorem start (h : Current rules value s) (k : K) : Current rules value (s.start k) :=
  h.of_same (by simp [Store.start, h.token]) rfl rfl rfl

theorem finish (h : Current rules value s) : Current rules value s.finish :=
  h.of_same h.token rfl rfl rfl

theorem keep (h : Current rules value s) {m : Memo K (V k)} (hrevision : m.verifiedAt = s.revision)
    (hm : m.value = value k) : Current rules value (s.keep k m) where
  token := h.token
  input := h.input
  memo d p m' hd hm' := by
    by_cases hkd : k = d
    · subst hkd
      rw [Store.keep, NodeTable.get?_set_self] at hm'
      cases hm'
      exact ⟨hrevision, hm⟩
    · rw [Store.keep, NodeTable.get?_set_of_ne _ hkd] at hm'
      exact h.memo d p m' hd hm'

end Current

section
variable {level : K → Nat} {n : Nat}

/-- Only queries from a level on are being computed. -/
def ComputesFrom (level : K → Nat) (n : Nat) (s : Store K V) : Prop :=
  ∀ a ∈ s.active, n ≤ level a.key

omit [BEq K] [LawfulBEq K] in
theorem ComputesFrom.noteRead (h : ComputesFrom level n s) (k : K) :
    ComputesFrom level n (s.noteRead k) := by
  unfold Store.noteRead
  split
  · exact h
  · rename_i a rest hs
    intro b hb
    rcases List.mem_cons.mp hb with rfl | hb
    · exact h a (hs ▸ List.mem_cons_self)
    · exact h b (hs ▸ List.mem_cons_of_mem a hb)

omit [BEq K] [LawfulBEq K] in
theorem ComputesFrom.start (h : ComputesFrom level (level k + 1) s) :
    ComputesFrom level (level k) (s.start k) := by
  intro a ha
  rcases List.mem_cons.mp ha with rfl | ha
  · exact Nat.le_refl _
  · exact Nat.le_of_succ_le (h a ha)

/-- A read that gives the nodes below a level their values and leaves a current store current. -/
def ReadsBelow (rules : Rules K V) (value : (k : K) → V k) (level : K → Nat) (n : Nat)
    (below : (k : K) → Reader K V (Stamped (V k))) : Prop :=
  ∀ k s, level k < n → Current rules value s → ComputesFrom level (level k + 1) s →
    ∃ node s', below k s = (.ok node, s') ∧ node.value = value k ∧ Current rules value s' ∧
      s'.active = s.active

/-- A safe program comes to the same through reads as by the values. -/
theorem Program.ComesTo.runWith {below : (k : K) → Reader K V (Stamped (V k))}
    (hbelow : ReadsBelow rules value level n below) {p : Program K V α} {a : α}
    (hp : p.ComesTo value a) (hsafe : p.Safe (level · < n) (Unfailing K))
    (h : Current rules value s) (hs : ComputesFrom level n s) :
    ∃ s', p.runWith below s = (.ok a, s') ∧ Current rules value s' := by
  induction hsafe generalizing s with
  | done b =>
    cases hp
    exact ⟨s, rfl, h⟩
  | fail he => exact he.elim
  | @read k next hk _ _ ih =>
    have hnoted := hs.noteRead k
    obtain ⟨node, s', hread, hnode, hcurrent, hactive⟩ := hbelow k (s.noteRead k) hk (h.noteRead k)
      fun b hb => Nat.le_trans hk (hnoted b hb)
    have hs' : ComputesFrom level n s' := by
      intro b hb
      exact hnoted b (hactive ▸ hb)
    obtain ⟨s'', hrun, hcurrent'⟩ := ih (value k) hp hcurrent hs'
    refine ⟨s'', ?_, hcurrent'⟩
    simp only [Program.runWith, hread, hnode]
    exact hrun

variable [∀ k, BEq (V k)]

/-- Every node is read as its value. -/
theorem Valuation.readsBelow (hvalue : Valuation rules inputs value)
    (hlevel : Leveled rules level) (depth : Nat) :
    ReadsBelow rules value level depth (fetch rules depth) := by
  induction depth with
  | zero => exact fun k s hk => absurd hk (Nat.not_lt_zero _)
  | succ depth ih =>
    intro k s hk h hs
    have hactive := fetch_active rules (depth + 1) k s
    cases hrule : rules k with
    | input absent =>
      rw [fetch_input hrule]
      have hinput := h.input k absent hrule
      refine ⟨_, s, rfl, ?_, h, rfl⟩
      rw [← hinput, Store.input?]
      cases s.inputs.get? k <;> rfl
    | refused e => exact absurd hrule (hlevel.known k e)
    | query p =>
      cases hmemo : s.memos.get? k with
      | some m =>
        obtain ⟨hverified, hm⟩ := h.memo k p m hrule hmemo
        exact ⟨_, s, fetch_of_verified hrule depth hmemo hverified, hm, h, rfl⟩
      | none =>
        rw [fetch_of_unkept hrule depth hmemo] at hactive ⊢
        have hnew : s.isComputing k = false := by
          rw [Store.isComputing, List.any_eq_false]
          rintro a ha
          rw [beq_iff_eq]
          rintro rfl
          exact absurd (hs a ha) (by omega)
        have hsafe : p.Safe (level · < level k) (Unfailing K) := hlevel.safe k p hrule
        have hbelow : ReadsBelow rules value level (level k) (fetch rules depth) := by
          intro d s' hd
          exact ih d s' (by omega)
        obtain ⟨s', hrun, hcurrent⟩ :=
          (hvalue.query k p hrule).runWith hbelow hsafe (h.start k) hs.start
        simp only [execute, hnew, Bool.false_eq_true, if_false,
          Store.cancelled?_of_token_none h.token, compute, hrun] at hactive ⊢
        exact ⟨_, _, rfl, rfl, hcurrent.finish.keep rfl rfl, hactive⟩

variable {depth : Nat} {p : Program K V α} {a : α}

/-- A safe program run from outside comes to the same as by the values. -/
theorem Valuation.run (hvalue : Valuation rules inputs value) (hlevel : Leveled rules level)
    (hp : p.ComesTo value a) (hsafe : p.Safe (level · < depth) (Unfailing K))
    (h : Current rules value s) (hidle : s.active = []) :
    ∃ s', p.run rules depth s = (.ok a, s') ∧ Current rules value s' ∧ s'.active = [] := by
  obtain ⟨s', hrun, hcurrent⟩ := hp.runWith (hvalue.readsBelow hlevel depth) hsafe h fun b hb => by
    rw [hidle] at hb
    cases hb
  refine ⟨s', hrun, hcurrent, ?_⟩
  have hafter := run_idle rules depth p hidle
  rw [Program.run, hrun] at hafter
  exact hafter

/-- So does one run as a pass that cannot be cancelled. -/
theorem Valuation.runPass (hvalue : Valuation rules inputs value) (hlevel : Leveled rules level)
    (hp : p.ComesTo value a) (hsafe : p.Safe (level · < depth) (Unfailing K))
    (h : Current rules value s) (hidle : s.active = []) :
    ∃ s', p.runPass rules depth none s = (.ok a, s') ∧ Current rules value s' ∧ s'.active = [] := by
  have hbegin : Current rules value (s.beginPass none) := h.of_same rfl rfl rfl rfl
  obtain ⟨s', hrun, hcurrent, hidle'⟩ := hvalue.run hlevel hp hsafe hbegin hidle
  refine ⟨s'.endPass false, ?_, hcurrent.of_same rfl rfl rfl rfl, hidle'⟩
  simp only [Program.runPass, hrun]
  rfl

end
end
end SceneCodegen.Graph
