import SceneCodegen.Proofs.Graph.Impartial

/-!
# Fresh reads

Whatever was set, read and cancelled before, a read of a graph with impartial rules ends as the
memo-free evaluation of the current inputs does, and with a cycle exactly where that comes back to a
node being computed. Where queries tell apart keys that count as the same, neither holds: the memo
of a node answers for all spellings of its key.
-/
namespace SceneCodegen.Graph

variable {K : Type} {V : K → Type} {α : Type}

section
variable [BEq K] [EquivBEq K] [Coherent K V] [Node K] [∀ k, BEq (V k)] {rules : Rules K V}
  {L : Likeness K V}

namespace Impartial
variable (h : Impartial rules L) {s : Store K V}

section
variable {s' : Store (NodeOf K) fun c => V c.key} (hs : h.mirror.LikeStore s s')
include hs

/-- A node is fresh if it is so in the graph of nodes. -/
theorem fresh_of_like {k : K} (hfresh : Fresh (overNodes rules) L.overNodes s' (nodeOf k)) :
    Fresh rules L s k := by
  have hscratch (n : Nat) := h.likeRules.scratch hs.input? n [] k
  have hrun (depth : Nat) := (h.likeRules.run_get depth k hs).1
  constructor
  · intro n v hv
    obtain ⟨w, hw, hvw⟩ := (hscratch n).ok_right hv
    obtain ⟨N, hN⟩ := hfresh.ok n w hw
    refine ⟨N, fun depth hle => ?_⟩
    obtain ⟨u', hu', hwu⟩ := hN depth hle
    obtain ⟨u, hu, huu'⟩ := (hrun depth).ok_left hu'
    have hnow := h.like_carry (key_nodeOf k) hwu
    exact ⟨u, hu, L.trans hvw (L.trans hnow (L.symm huu'))⟩
  · intro n e he
    obtain ⟨e', hw, hkind⟩ := (hscratch n).failed_right he
    obtain ⟨N, hN⟩ := hfresh.failed n e' hw
    refine ⟨N, fun depth hle => ?_⟩
    obtain ⟨e'', he'', hkind'⟩ := hN depth hle
    obtain ⟨e₁, he₁, hkind₁⟩ := (hrun depth).failed_left he''
    exact ⟨e₁, he₁, hkind₁.symm.trans (hkind'.trans hkind)⟩

/-- Reads of a node end exactly if they do in the graph of nodes. -/
theorem endsExactly_of_like {k : K}
    (hends : EndsExactly (overNodes rules) L.overNodes s' (nodeOf k)) :
    EndsExactly rules L s k := by
  have hrun (depth : Nat) := h.likeRules.run_get depth k hs
  refine ⟨?_, fun hcycle => ?_, fun depth e he hkind => ?_, fun depth => ?_, ?_⟩
  · obtain ⟨N, hN⟩ := hends.ends
    exact ⟨N, fun depth hle => (hrun depth).1.ended_iff.mpr (hN depth hle)⟩
  · obtain ⟨N, hN⟩ := hends.cycle (h.likeRules.reenters hs.input? hcycle)
    refine ⟨N, fun depth hle => ?_⟩
    obtain ⟨e', he', hkind⟩ := hN depth hle
    obtain ⟨e, he, hkind'⟩ := (hrun depth).1.failed_left he'
    refine ⟨e, he, ?_⟩
    rwa [← hkind', ← hs.token]
  · obtain ⟨e', he', hkind'⟩ := (hrun depth).1.failed_right he
    rcases hends.of_cycle depth e' he' (hkind'.trans hkind) with hcycle | ⟨n, e₁, hsettle, hkind₁⟩
    · exact .inl (h.likeRules.of_reenters hs.input? hcycle)
    · obtain ⟨e₂, he₂, hkind₂⟩ := (h.likeRules.settle hs.input? n k).failed_left hsettle
      exact .inr ⟨n, e₂, he₂, hkind₂.symm.trans hkind₁⟩
  · have hidle := hends.idle depth
    have hactive : _ = List.map h.mirror.image _ := (hrun depth).2.active
    exact List.map_eq_nil_iff.mp (hactive.symm.trans hidle)
  · intro depth history ht j
    obtain ⟨history', hfollow⟩ := h.likeRules.exists_follow history (hrun depth).2
    exact h.fresh_of_like hfollow (hends.fresh depth history' (hfollow.token.trans ht) _)

end

variable {h} in
theorem Mirrored.follow (hs : h.Mirrored s) (history : List (Move K V)) :
    h.Mirrored (follow rules history s) := by
  obtain ⟨s', hlike, hrest⟩ := hs
  obtain ⟨history', hfollow⟩ := h.likeRules.exists_follow history hlike
  exact ⟨_, hfollow, h.propagating.follow history' hrest⟩

theorem mirrored_reach (history : List (Move K V)) : h.Mirrored (reach rules history) := by
  obtain ⟨history', hreach⟩ := h.likeRules.exists_reach history
  exact ⟨_, hreach, h.propagating.follow history' .empty⟩

variable {h} in
theorem Mirrored.fresh (hs : h.Mirrored s) (ht : s.token = none) (k : K) : Fresh rules L s k := by
  obtain ⟨s', hlike, hrest⟩ := hs
  exact h.fresh_of_like hlike (h.propagating.fresh hrest (hlike.token.trans ht) _)

end Impartial

/-- From-scratch consistency: whatever was set, read and cancelled before, reads outside a pass are
fresh. -/
theorem get_consistent (h : Impartial rules L) (history : List (Move K V))
    (ht : (reach rules history).token = none) (k : K) : Fresh rules L (reach rules history) k :=
  (h.mirrored_reach history).fresh ht k

end

/-- Nodes under numbers, which read one another under the other form of their numbers: a switch, a
node that shows the switch or, while that is off, the double of itself, this double, and a node tied
to itself. -/
def circuit : Rules Numeral fun _ => Nat := fun k =>
  match k.value with
  | 1 => .query ((Program.get ⟨0, !k.pointed⟩).bind fun n =>
      if n = 0 then Program.get ⟨2, !k.pointed⟩ else .done n)
  | 2 => .query ((Program.get ⟨1, !k.pointed⟩).bind fun v => .done (v + v))
  | 3 => .query (Program.get ⟨3, !k.pointed⟩)
  | _ => .input 0

namespace Circuit

theorem kindred {k l : Numeral} (h : k == l) : (circuit k).Kindred .eq h (circuit l) := by
  obtain ⟨n, pointed⟩ := k
  obtain ⟨m, pointed'⟩ := l
  obtain rfl : n = m := eq_of_beq (α := Nat) h
  have hget (m : Nat) : (Program.get ⟨m, !pointed⟩ : Program Numeral (fun _ => Nat) Nat).Kindred
      .eq Eq (Program.get ⟨m, !pointed'⟩ : Program Numeral (fun _ => Nat) Nat) :=
    Program.kindred_get .eq (show (⟨m, !pointed⟩ : Numeral) == ⟨m, !pointed'⟩ from
      beq_self_eq_true m)
  match n with
  | 0 => exact .input rfl
  | 1 =>
    refine .query ((hget 0).bind fun n m hnm => ?_)
    subst hnm
    by_cases hn : n = 0
    · rw [if_pos hn, if_pos hn]
      exact hget 2
    · rw [if_neg hn, if_neg hn]
      exact .done rfl
  | 2 =>
    refine .query ((hget 1).bind fun v w hvw => ?_)
    subst hvw
    exact .done rfl
  | 3 => exact .query (hget 3)
  | n + 4 => exact .input rfl

theorem relays (k : Numeral) (p : Program Numeral (fun _ => Nat) Nat)
    (hk : circuit k = .query p) : p.Relays fun _ => True := by
  obtain ⟨n, pointed⟩ := k
  match n with
  | 0 => cases hk
  | 1 =>
    cases hk
    refine (Program.relays_get _ _).bind fun n => ?_
    split
    · exact Program.relays_get _ _
    · exact .done n
  | 2 =>
    cases hk
    exact (Program.relays_get _ _).bind fun v => .done _
  | 3 =>
    cases hk
    exact Program.relays_get _ _
  | n + 4 => cases hk

theorem impartial : Impartial circuit .eq where
  kindred := kindred
  relays := relays
  refl _ _ := rfl
  of_beq _ _ _ he := eq_of_beq he
  beq_like hv hw := by
    cases hv
    cases hw
    rfl
  like_carry _ _ _ hv := congrArg _ hv
  beq_carry _ _ _ := rfl

theorem queriesIn : QueriesIn circuit [⟨1, false⟩, ⟨2, false⟩, ⟨3, false⟩] := by
  rintro ⟨n, pointed⟩ p hk
  match n with
  | 0 => cases hk
  | 1 => rfl
  | 2 => rfl
  | 3 => rfl
  | n + 4 => cases hk

/-- The switch is set and the double read, and then again under the other forms, the second time in
a pass that ends by its cancellation. -/
def history : List (Move Numeral fun _ => Nat) :=
  [.set ⟨0, false⟩ 3, .run 5 ((Program.get ⟨2, false⟩).bind fun _ => .done ()), .set ⟨0, true⟩ 5,
    .enter (some { generation := 1 }),
    .run 5 ((Program.get ⟨1, true⟩).bind fun _ => .cancel (.done ())), .leave true]

end Circuit

theorem get_consistent_circuit :
    (reach circuit Circuit.history).token = none ∧
    (∃ N, ∀ depth, N ≤ depth → ∃ w,
      ((Program.get ⟨2, true⟩).run circuit depth (reach circuit Circuit.history)).1 = .ok w ∧
        10 = w) ∧
    (∃ N, ∀ depth, N ≤ depth → ∃ e',
      ((Program.get ⟨3, false⟩).run circuit depth (reach circuit Circuit.history)).1 =
        .error (.failed e') ∧ e'.kind = (Failure.cycle (⟨3, true⟩ : Numeral)).kind) := by
  have ht : (reach circuit Circuit.history).token = none := by decide
  have hdouble := get_consistent Circuit.impartial Circuit.history ht ⟨2, true⟩
  have hknot := get_consistent Circuit.impartial Circuit.history ht ⟨3, false⟩
  exact ⟨ht, hdouble.ok 2 10 rfl, hknot.failed 2 (.cycle ⟨3, true⟩) rfl⟩

/-- A query that takes its argument without a point only. -/
def scale : Rules Numeral fun _ => Nat := fun k =>
  .query (if k.pointed then .fail (.raised "TypeError" "a number with a point") else .done k.value)

theorem Scale.propagating : Propagating scale .eq := by
  refine ⟨extensional_of_lawful _, fun k p hk => ?_⟩
  cases hk
  split
  · exact .fail _
  · exact .done _

/-- The query is read with a number without a point. -/
def Scale.history : List (Move Numeral fun _ => Nat) :=
  [.run 1 ((Program.get ⟨1, false⟩).bind fun _ => .done ())]

/-- Once read with the number without a point, the query answers with the point as well, where the
evaluation without memory fails. -/
theorem stale_under_other_spelling :
    Propagating scale .eq ∧ (reach scale Scale.history).token = none ∧
    scratch scale (reach scale Scale.history).input? 1 [] ⟨1, true⟩ =
      .error (.failed (.raised "TypeError" "a number with a point")) ∧
    (∀ depth, ((Program.get ⟨1, true⟩).run scale (depth + 1) (reach scale Scale.history)).1 =
      .ok 1) ∧
    ¬ Fresh scale .eq (reach scale Scale.history) ⟨1, true⟩ := by
  have hscratch : scratch scale (reach scale Scale.history).input? 1 [] ⟨1, true⟩ =
      .error (.failed (.raised "TypeError" "a number with a point")) := rfl
  have hget (depth : Nat) :
      ((Program.get ⟨1, true⟩).run scale (depth + 1) (reach scale Scale.history)).1 = .ok 1 := rfl
  refine ⟨Scale.propagating, rfl, hscratch, hget, fun hfresh => ?_⟩
  obtain ⟨N, hN⟩ := hfresh.failed 1 _ hscratch
  obtain ⟨e, he, -⟩ := hN (N + 1) (Nat.le_succ N)
  rw [hget N] at he
  cases he

section
variable [BEq K] [EquivBEq K] [Coherent K V] [Node K] [∀ k, BEq (V k)] {rules : Rules K V}
  {L : Likeness K V}

/-- Whatever was set, read and cancelled before, reads end, and with a cycle exactly where the nodes
come back to themselves. -/
theorem get_endsExactly (h : Impartial rules L) {queries : List K} (hq : QueriesIn rules queries)
    (history : List (Move K V)) (k : K) : EndsExactly rules L (reach rules history) k := by
  obtain ⟨s', hlike, hrest⟩ := h.mirrored_reach history
  exact h.endsExactly_of_like hlike (h.propagating.endsExactly (queriesIn_overNodes hq) hrest _)

end

theorem get_endsExactly_circuit :
    QueriesIn circuit [⟨1, false⟩, ⟨2, false⟩, ⟨3, false⟩] ∧
    ∃ N, ∀ depth, N ≤ depth → ∃ e,
      ((Program.get ⟨2, true⟩).run circuit depth
        (reach circuit (Circuit.history ++ [.set ⟨0, false⟩ 0]))).1 = .error (.failed e) ∧
      (e.kind = "CycleError" ∨
        (reach circuit (Circuit.history ++ [.set ⟨0, false⟩ 0])).token ≠ none ∧
          e.kind = "GenerationCancelled") := by
  have hends := get_endsExactly Circuit.impartial Circuit.queriesIn
    (Circuit.history ++ [.set ⟨0, false⟩ 0]) ⟨2, true⟩
  refine ⟨Circuit.queriesIn, hends.cycle ?_⟩
  have hswitch : settle circuit
      (reach circuit (Circuit.history ++ [.set ⟨0, false⟩ 0])).input? 0 ⟨0, true⟩ = .ok 0 := rfl
  refine .read rfl rfl (.here _) ?_
  refine .read (d := ⟨2, true⟩) rfl rfl (.read hswitch (.here _)) ?_
  exact .here rfl rfl

/-- A switch, a supply of the same number in either form, a gauge that takes it without a point
only, and a node that reads the gauge and then itself. -/
inductive Dial | switch | supply | gauge | tangle
  deriving DecidableEq

namespace Dial

instance : Node Dial where
  queryName _ := "dial"
  text _ := "dial"

def ruleOf : Rules Dial fun _ => Numeral
  | switch => .input ⟨0, false⟩
  | supply => .query ((Program.get switch).bind fun n => .done ⟨1, n.value != 0⟩)
  | gauge => .query ((Program.get supply).bind fun n =>
      if n.pointed then .fail (.raised "TypeError" "a number with a point") else .done n)
  | tangle => .query ((Program.get gauge).bind fun _ => Program.get tangle)

/-- The gauge is read, and the supply takes its other form. -/
def history : List (Move Dial fun _ => Numeral) :=
  [.run 3 ((Program.get gauge).bind fun _ => .done ()), .set switch ⟨1, false⟩]

theorem relays (k : Dial) (p : Program Dial (fun _ => Numeral) Numeral)
    (hk : ruleOf k = .query p) : p.Relays fun _ => True := by
  cases k with
  | switch => cases hk
  | supply =>
    cases hk
    exact (Program.relays_get _ switch).bind fun n => .done _
  | gauge =>
    cases hk
    refine (Program.relays_get _ supply).bind fun n => ?_
    split
    · exact .fail _
    · exact .done n
  | tangle =>
    cases hk
    exact (Program.relays_get _ gauge).bind fun _ => Program.relays_get _ tangle

theorem queriesIn : QueriesIn ruleOf [supply, gauge, tangle] := by
  intro k p hk
  cases k with
  | switch => cases hk
  | supply => simp
  | gauge => simp
  | tangle => simp

end Dial

/-- A switch, an input, a query that reads the input under a number without a point and another
query with the point, and that other, which once the switch is on reads the first. -/
def detour : Rules Numeral fun _ => Nat := fun k =>
  match k.value with
  | 1 => .query (if k.pointed then Program.get ⟨2, false⟩ else Program.get ⟨3, false⟩)
  | 2 => .query ((Program.get ⟨0, false⟩).bind fun n =>
      if n = 0 then .done 7 else Program.get ⟨1, false⟩)
  | _ => .input 0

namespace Detour

theorem propagating : Propagating detour .eq := by
  refine ⟨extensional_of_lawful _, fun ⟨n, pointed⟩ p hk => ?_⟩
  match n with
  | 0 => cases hk
  | 1 =>
    cases hk
    split
    · exact Program.relays_get _ _
    · exact Program.relays_get _ _
  | 2 =>
    cases hk
    refine (Program.relays_get _ _).bind fun n => ?_
    split
    · exact .done 7
    · exact Program.relays_get _ _
  | n + 3 => cases hk

theorem queriesIn : QueriesIn detour [⟨1, false⟩, ⟨2, false⟩] := by
  rintro ⟨n, pointed⟩ p hk
  match n with
  | 0 => cases hk
  | 1 => rfl
  | 2 => rfl
  | n + 3 => cases hk

/-- The query is read with the point, and the switch is put on. -/
def history : List (Move Numeral fun _ => Nat) :=
  [.run 3 ((Program.get ⟨1, true⟩).bind fun _ => .done ()), .set ⟨0, false⟩ 1]

/-- Without the point, the query reads nothing but the input. -/
theorem not_reenters (inputs : Inputs Numeral fun _ => Nat) :
    ¬ Reenters detour inputs [] ⟨1, false⟩ := by
  intro h
  cases h with
  | here _ hc => cases hc
  | read hk _ hp hd =>
    cases hk
    cases hp with
    | here =>
      cases hd with
      | here hk _ => cases hk
      | read hk _ _ _ => cases hk
    | read _ hdone => cases hdone

end Detour

/-- Where queries tell equal things apart, reads end with cycles that the evaluation without
memory does not come to. The gauge keeps its value, so that the read goes on to the cycle behind
it, and the evaluation fails at the gauge. The detour is taken as it was under the other form of
the number. -/
theorem cycles_where_equals_are_told_apart :
    ((∀ k p, Dial.ruleOf k = .query p → p.Relays fun _ => True) ∧
      QueriesIn Dial.ruleOf [.supply, .gauge, .tangle] ∧
      ((Program.get .tangle).run Dial.ruleOf 3 (reach Dial.ruleOf Dial.history)).1 =
        .error (.failed (.cycle .tangle)) ∧
      scratch Dial.ruleOf (reach Dial.ruleOf Dial.history).input? 3 [] .tangle =
        .error (.failed (.raised "TypeError" "a number with a point")) ∧
      ¬ Reenters Dial.ruleOf (reach Dial.ruleOf Dial.history).input? [] .tangle) ∧
    (Propagating detour .eq ∧ QueriesIn detour [⟨1, false⟩, ⟨2, false⟩] ∧
      ((Program.get ⟨1, false⟩).run detour 4 (reach detour Detour.history)).1 =
        .error (.failed (.cycle ⟨2, false⟩)) ∧
      scratch detour (reach detour Detour.history).input? 1 [] ⟨1, false⟩ = .ok 0 ∧
      ¬ Reenters detour (reach detour Detour.history).input? [] ⟨1, false⟩) := by
  refine ⟨⟨Dial.relays, Dial.queriesIn, rfl, rfl, ?_⟩,
    Detour.propagating, Detour.queriesIn, rfl, rfl, Detour.not_reenters _⟩
  rw [reenters_iff Dial.queriesIn]
  have hsettle : settle Dial.ruleOf (reach Dial.ruleOf Dial.history).input? 3 .tangle =
      .error (.failed (.raised "TypeError" "a number with a point")) := rfl
  intro h
  exact h ⟨3, by rw [hsettle]; exact ended_failed _⟩

end SceneCodegen.Graph
