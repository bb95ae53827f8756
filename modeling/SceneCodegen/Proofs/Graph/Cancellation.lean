import SceneCodegen.Proofs.Graph.Freshness
import SceneCodegen.Proofs.Graph.Steps

/-!
# Cancelled passes

Once a pass is cancelled no query of it starts. If it ends by its cancellation, what it computed is
gone, and a memo that is still there is one of before the pass, found valid in it at most.
-/
namespace SceneCodegen.Graph

variable {K : Type} {V : K → Type} {α : Type}

/-- What a memo holds besides the revision at which it was last found valid. -/
def Memo.result (m : Memo K α) : Stamped α × List K := (m.toStamped, m.reads)

variable {s s' s'' : Store K V}

/-- While a pass is cancelled it stays so, and no query starts. -/
def StaysCancelled (s s' : Store K V) : Prop :=
  ∀ g, s.cancelled? = some g → s'.cancelled? = some g ∧ s'.started = s.started

theorem staysCancelled_of_same (hc : s'.cancelled? = s.cancelled?) (hs : s'.started = s.started) :
    StaysCancelled s s' :=
  fun g hg => ⟨by rw [hc, hg], hs⟩

variable [BEq K] [Coherent K V] {rules : Rules K V}

/-- The starts noted since were each made under no token or one that was not cancelled. -/
def StartsUncancelled (s s' : Store K V) : Prop :=
  ∃ starts, s'.started = starts ++ s.started ∧
    ∀ start ∈ starts, ∀ t, start.2 = some t → t.isCancelled = false

/-- What reads may do to a store: start and finish queries, keep results and find memos valid. -/
structure Extends (s s' : Store K V) : Prop where
  inputs : s'.inputs = s.inputs
  revision : s'.revision = s.revision
  starts : StartsUncancelled s s'
  results : ∃ ks, s'.executed = ks ++ s.executed ∧ s'.recent = ks ++ s.recent ∧
    ∀ k, ks.contains k = false →
      (s'.memos.get? k).map Memo.result = (s.memos.get? k).map Memo.result

namespace Extends

theorem of_same (hi : s'.inputs = s.inputs) (hr : s'.revision = s.revision)
    (hs : s'.started = s.started) (hm : s'.memos = s.memos) (he : s'.executed = s.executed)
    (hc : s'.recent = s.recent) : Extends s s' where
  inputs := hi
  revision := hr
  starts := ⟨[], hs, by simp⟩
  results := ⟨[], he, hc, fun k _ => by rw [hm]⟩

theorem trans (h : Extends s s') (h' : Extends s' s'') : Extends s s'' where
  inputs := h'.inputs.trans h.inputs
  revision := h'.revision.trans h.revision
  starts := by
    obtain ⟨starts, hs, hu⟩ := h.starts
    obtain ⟨starts', hs', hu'⟩ := h'.starts
    refine ⟨starts' ++ starts, by rw [hs', hs, List.append_assoc], fun start hmem => ?_⟩
    rcases List.mem_append.mp hmem with hmem | hmem
    · exact hu' start hmem
    · exact hu start hmem
  results := by
    obtain ⟨ks, he, hr, hm⟩ := h.results
    obtain ⟨ks', he', hr', hm'⟩ := h'.results
    refine ⟨ks' ++ ks, by rw [he', he, List.append_assoc], by rw [hr', hr, List.append_assoc],
      fun k hk => ?_⟩
    rw [List.contains_append, Bool.or_eq_false_iff] at hk
    exact (hm' k hk.1).trans (hm k hk.2)

theorem start {k : K} (h : s.cancelled? = none) : Extends s (s.start k) where
  inputs := rfl
  revision := rfl
  starts := by
    refine ⟨[(k, s.token)], rfl, fun start hmem t ht => ?_⟩
    rw [List.mem_singleton.mp hmem] at ht
    simp only at ht
    simpa [Store.cancelled?, ht] using h
  results := ⟨[], rfl, rfl, fun _ _ => rfl⟩

variable [EquivBEq K]

theorem keep (k : K) (m : Memo K (V k)) (s : Store K V) : Extends s (s.keep k m) where
  inputs := rfl
  revision := rfl
  starts := ⟨[], rfl, by simp⟩
  results := by
    refine ⟨[k], rfl, rfl, fun a ha => ?_⟩
    have hka : (k == a) = false := by simpa [BEq.comm (a := a)] using ha
    rw [Store.keep, NodeTable.get?_set_of_unlike hka]

theorem verify {k : K} {m : Memo K (V k)} (hm : s.memos.get? k = some m) (h : Extends s s') :
    Extends s (s'.verify k m) := by
  obtain ⟨ks, he, hr, hmemos⟩ := h.results
  refine ⟨h.inputs, h.revision, h.starts, ks, he, hr, fun a ha => ?_⟩
  cases hka : k == a with
  | true =>
    rw [Store.verify, NodeTable.get?_set_of_beq hka, NodeTable.get?_respell hka, hm,
      Option.map_some, Option.map_some, Option.map_some, respell_memo, respell_memo]
    rfl
  | false =>
    rw [Store.verify, NodeTable.get?_set_of_unlike hka]
    exact hmemos a ha

end Extends

theorem staysCancelled_stepwise : Stepwise (StaysCancelled (K := K) (V := V)) where
  refl _ := staysCancelled_of_same rfl rfl
  trans h h' g hg := by
    obtain ⟨hg', hs'⟩ := h g hg
    obtain ⟨hg'', hs''⟩ := h' g hg'
    exact ⟨hg'', hs''.trans hs'⟩
  noteRead k s := staysCancelled_of_same (by simp) (by simp)
  cancelPass _ _ hg := ⟨Store.cancelled?_cancelPass hg, rfl⟩
  start k s h g hg := by
    rw [h] at hg
    cases hg
  finish _ := staysCancelled_of_same rfl rfl
  keep _ _ _ := staysCancelled_of_same rfl rfl
  verify _ h := h

variable [EquivBEq K] in
theorem extends_stepwise : Stepwise (Extends (K := K) (V := V)) where
  refl _ := .of_same rfl rfl rfl rfl rfl rfl
  trans := .trans
  noteRead _ _ := .of_same (by simp) (by simp) (by simp) (by simp) (by simp) (by simp)
  cancelPass _ := .of_same rfl rfl rfl rfl rfl rfl
  start _ _ h := .start h
  finish _ := .of_same rfl rfl rfl rfl rfl rfl
  keep := .keep
  verify := .verify

/-- A store after a pass that left nothing of what was computed in it. -/
structure LeftNothing (s s' : Store K V) : Prop where
  inputs : s'.inputs = s.inputs
  revision : s'.revision = s.revision
  idle : s'.active = []
  outside : s'.token = none
  results : ∃ ks, s'.executed = ks ++ s.executed ∧
    (∀ k, ks.contains k = true → s'.memos.get? k = none) ∧
    ∀ k, ks.contains k = false →
      (s'.memos.get? k).map Memo.result = (s.memos.get? k).map Memo.result

variable [∀ k, BEq (V k)]

/-- A pass is its entering, what is run in it and its leaving. -/
theorem runPass_eq_follow (rules : Rules K V) (depth : Nat) (token : Option Token)
    (p : Program K V Unit) (s : Store K V) :
    (p.runPass rules depth token s).2 = follow rules [.enter token, .run depth p,
      .leave (wasCancelled (p.runPass rules depth token s).1)] s := rfl

variable [EquivBEq K]

/-- What a program did in a pass, before the pass was left. -/
theorem extends_of_pass (rules : Rules K V) (depth : Nat) (token : Option Token)
    (p : Program K V α) (s : Store K V) :
    Extends (s.beginPass token) (p.run rules depth (s.beginPass token)).2 :=
  extends_stepwise.run rules depth p _

theorem startsUncancelled_of_pass (rules : Rules K V) (depth : Nat) (token : Option Token)
    (p : Program K V α) (s : Store K V) :
    StartsUncancelled s (p.runPass rules depth token s).2 :=
  (extends_of_pass rules depth token p s).starts

theorem leftNothing_of_cancelled (rules : Rules K V) (depth : Nat) (token : Option Token)
    (p : Program K V α) {s : Store K V} (hs : s.active = [])
    (hc : wasCancelled (p.runPass rules depth token s).1 = true) :
    LeftNothing s (p.runPass rules depth token s).2 := by
  have hext := extends_of_pass rules depth token p s
  have hidle := run_idle rules depth p (s := s.beginPass token) hs
  simp only [Program.runPass] at hc ⊢
  rw [hc]
  obtain ⟨ks, he, hr, hm⟩ := hext.results
  have hrecent : (p.run rules depth (s.beginPass token)).2.recent = ks := by
    simpa [Store.beginPass] using hr
  refine ⟨hext.inputs, hext.revision, hidle, rfl, ks, he, fun k hk => ?_, fun k hk => ?_⟩
  · simp [Store.endPass, hrecent, hk]
  · have hsame : _ = (s.memos.get? k).map Memo.result := hm k hk
    simpa [Store.endPass, hrecent, hk] using hsame

/-- A cancelled pass leaves no partial result. No query starts once the pass is cancelled; if the
pass ends by its cancellation, nothing computed in it is left, inputs and computations are as
before, and where queries pass failures on and tell nothing apart that counts as the same, all later
reads outside a pass are fresh. -/
theorem cancelled_pass_leaves_nothing [Node K] (rules : Rules K V) (history : List (Move K V))
    (depth : Nat) (token : Option Token) (program : Program K V Unit) :
    StartsUncancelled (reach rules history)
      (program.runPass rules depth token (reach rules history)).2 ∧
    (∀ (s : Store K V) (rest : Program K V Unit), StaysCancelled s (rest.run rules depth s).2) ∧
    (wasCancelled (program.runPass rules depth token (reach rules history)).1 = true →
      LeftNothing (reach rules history)
        (program.runPass rules depth token (reach rules history)).2 ∧
      ∀ L, Impartial rules L → ∀ later : List (Move K V),
        (follow rules later (program.runPass rules depth token (reach rules history)).2).token =
          none →
        ∀ k, Fresh rules L
          (follow rules later (program.runPass rules depth token (reach rules history)).2) k) := by
  refine ⟨startsUncancelled_of_pass rules depth token program _,
    fun s rest => staysCancelled_stepwise.run rules depth rest s, fun hc => ⟨?_, ?_⟩⟩
  · exact leftNothing_of_cancelled rules depth token program (reach_idle rules history) hc
  · intro L hL later ht k
    rw [runPass_eq_follow] at ht ⊢
    exact (((hL.mirrored_reach history).follow _).follow later).fresh ht k

namespace Circuit

/-- Reads a node, cancels the pass and reads another. -/
def cut : Program Numeral (fun _ => Nat) Unit :=
  (Program.get ⟨1, false⟩).bind fun _ =>
    .cancel ((Program.get ⟨2, false⟩).bind fun _ => .done ())

/-- The store after a cancelled pass, with the switch set anew. -/
def afterCut : Store Numeral fun _ => Nat :=
  follow circuit [.set ⟨0, false⟩ 7]
    (cut.runPass circuit 5 (some ⟨2, false, none⟩) (reach circuit history)).2

end Circuit

theorem cancelled_pass_leaves_nothing_circuit :
    LeftNothing (reach circuit Circuit.history)
      (Circuit.cut.runPass circuit 5 (some ⟨2, false, none⟩) (reach circuit Circuit.history)).2 ∧
    Fresh circuit .eq Circuit.afterCut ⟨2, true⟩ := by
  have hc : wasCancelled (Circuit.cut.runPass circuit 5 (some ⟨2, false, none⟩)
      (reach circuit Circuit.history)).1 = true := by decide
  obtain ⟨-, -, hpass⟩ :=
    cancelled_pass_leaves_nothing circuit Circuit.history 5 (some ⟨2, false, none⟩) Circuit.cut
  obtain ⟨hleft, hfresh⟩ := hpass hc
  exact ⟨hleft, hfresh .eq Circuit.impartial [.set ⟨0, false⟩ 7] (by decide) _⟩

/-- Reads a node, cancels the pass and reads another. -/
def Scale.cut : Program Numeral (fun _ => Nat) Unit :=
  (Program.get ⟨2, false⟩).bind fun _ =>
    .cancel ((Program.get ⟨3, false⟩).bind fun _ => .done ())

/-- Reads the gauge, cancels the pass and reads the node behind it. -/
def Dial.cut : Program Dial (fun _ => Numeral) Unit :=
  (Program.get gauge).bind fun _ => .cancel ((Program.get tangle).bind fun _ => .done ())

/-- Where queries tell equal things apart, reads after a cancelled pass need not be fresh: what was
read before it under another form of the number is left, and so is what was read with another form
of an equal value. -/
theorem stale_after_cancelled_pass :
    (Propagating scale .eq ∧
      wasCancelled (Scale.cut.runPass scale 2 (some ⟨1, false, none⟩)
        (reach scale Scale.history)).1 = true ∧
      ¬ Fresh scale .eq (Scale.cut.runPass scale 2 (some ⟨1, false, none⟩)
        (reach scale Scale.history)).2 ⟨1, true⟩) ∧
    ((∀ k p, Dial.ruleOf k = .query p → p.Relays fun _ => True) ∧
      wasCancelled (Dial.cut.runPass Dial.ruleOf 3 (some ⟨1, false, none⟩)
        (reach Dial.ruleOf Dial.history)).1 = true ∧
      ¬ Fresh Dial.ruleOf .eq (Dial.cut.runPass Dial.ruleOf 3 (some ⟨1, false, none⟩)
        (reach Dial.ruleOf Dial.history)).2 .gauge) := by
  refine ⟨⟨Scale.propagating, rfl, fun hfresh => ?_⟩, Dial.relays, rfl, fun hfresh => ?_⟩
  · obtain ⟨N, hN⟩ := hfresh.failed 1 (.raised "TypeError" "a number with a point") rfl
    obtain ⟨e, he, -⟩ := hN (N + 1) (Nat.le_succ N)
    cases he
  · obtain ⟨N, hN⟩ := hfresh.failed 2 (.raised "TypeError" "a number with a point") rfl
    obtain ⟨e, he, -⟩ := hN (N + 2) (Nat.le_add_right N 2)
    cases he

end SceneCodegen.Graph
