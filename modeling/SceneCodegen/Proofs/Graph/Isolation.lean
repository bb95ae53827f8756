import SceneCodegen.Proofs.Graph.Sheet
import SceneCodegen.Proofs.Graph.Streams

/-!
# Fault isolation

While every shared value has a value whenever something is read, mapped streams never fail to be
read and read as they do afresh. At the first read at which a shared value fails, an item is read as
afresh too, unless it was computed before and did not change since: then checking its memo reads the
shared value outside the isolation of the item's handler, and the read fails.
-/
namespace SceneCodegen.Graph

theorem Family.relays_get {K : Type} {V : K → Type} {N : Type} {W : N → Type} (f : Family K V W)
    (F : Failure K → Prop) (n : N) : (f.get n).Relays F := by
  refine (Program.relays_get F (f.key n)).bind fun v => ?_
  cases f.decode n v with
  | ok w => exact .done w
  | error e => exact .fail e

namespace Sheet
variable {S D M ι α : Type}

theorem relays_handle {F : Failure (SheetNode S D M ι) → Prop} (g : Sheet S D M ι α) (m : M)
    (a : α) : (g.handle m a).Relays F := by
  unfold handle
  cases g.operator m with
  | map handler => exact Program.relays_ofExcept F _
  | combine shared handler =>
    exact (Program.relays_get F _).bind fun y => Program.relays_ofExcept F _

variable [Node (SheetNode S D M ι)] [ItemKey ι] {g : Sheet S D M ι α}
  {inputs : Inputs (SheetNode S D M ι) (SheetNode.Value α)}

section
variable {F : Failure (SheetNode S D M ι) → Prop}

theorem relays_item (g : Sheet S D M ι α) (m : M) (i : ι) : (g.program m (.item i)).Relays F := by
  rw [program_item]
  exact .read (fun _ _ => rfl) fun _ => .done _

theorem relays_diagnostics (g : Sheet S D M ι α) (m : M) :
    (g.program m .diagnostics).Relays F := by
  have hget (j : ι) : (do return (← (mappedFamily m).get (.outcome j)).diagnostics :
      SheetProgram S D M ι α (List Diagnostic)).Relays F :=
    ((mappedFamily m).relays_get F _).bind fun _ => .done _
  have hnone : (g.sourceStream m).diagnostics.Relays F := .done []
  have hkeys : (g.sourceStream m).keys.Relays F := by
    show ((sourceFamily (g.source m)).get .keys).Relays F
    exact Family.relays_get _ F _
  simp only [program, Family.rule, mapProgram]
  exact (hnone.bind fun inherited => hkeys.bind fun keys =>
    (Program.relays_mapM hget keys).bind fun own => .done _).map _

theorem relays_outcome (g : Sheet S D M ι α) (m : M) (i : ι) :
    (g.program m (.outcome i)).Relays IsCancellation := by
  rw [program_outcome]
  refine .read (fun _ _ => rfl) fun v => ?_
  cases v with
  | none => exact .done _
  | some a => exact isolate_relays _ (relays_handle g m a)

end

section
variable [∀ k : SheetNode S D M ι, BEq (SheetNode.Value α k)]
  {L : Likeness (SheetNode S D M ι) (SheetNode.Value α)}

theorem Ordinary.relays (h : g.Ordinary L) (k : SheetNode S D M ι)
    (p : SheetProgram S D M ι α (SheetNode.Value α k)) (hk : g.rules k = .query p) :
    p.Relays IsCancellation := by
  cases k with
  | source s n => cases hk
  | value d =>
    cases hk
    exact (h.derived_relays d).mono fun _ _ => trivial
  | mapped m n =>
    cases hk
    cases n with
    | outcome i => exact relays_outcome g m i
    | item i => exact relays_item g m i
    | diagnostics => exact relays_diagnostics g m

theorem Ordinary.orderly (h : g.Ordinary L) : Orderly g.rules L :=
  h.toExtensional.orderly h.relays

/-- The handling of an item ends with an outcome if the shared value has a value. -/
theorem Ordinary.handle_completes (h : g.Ordinary L) (m : M)
    (hc : ∀ d, (g.operator m).shared? = some d →
      ∃ n v, settle g.rules inputs n (.value d) = .ok v) (label : String) (a : α) :
    (isolate label (g.handle m a)).Completes g.rules inputs := by
  have hfails := h.handler_fails m
  unfold handle
  cases hm : g.operator m with
  | map handler =>
    have ⟨outcome, ho⟩ : ∃ outcome, (isolate label (.ofExcept (handler a)) :
        SheetProgram S D M ι α (Outcome α)) = .done outcome :=
      isolate_ofExcept label fun e he => hfails e (by rw [hm]; exact .map he)
    rw [ho]
    exact .done outcome
  | combine shared handler =>
    obtain ⟨n, v, hv⟩ := hc shared (by rw [hm]; rfl)
    have ⟨outcome, ho⟩ : ∃ outcome, (isolate label (.ofExcept (handler a v)) :
        SheetProgram S D M ι α (Outcome α)) = .done outcome :=
      isolate_ofExcept label fun e he => hfails e (by rw [hm]; exact .combine he)
    refine .read hv ?_
    show (isolate label (.ofExcept (handler a v))).Completes g.rules inputs
    rw [ho]
    exact .done outcome

theorem Ordinary.outcome_settles (h : g.Ordinary L) (m : M)
    (hc : ∀ d, (g.operator m).shared? = some d →
      ∃ n v, settle g.rules inputs n (.value d) = .ok v) (i : ι) :
    ∃ n v, settle g.rules inputs n (.mapped m (.outcome i)) = .ok v := by
  have hk : g.rules (.mapped m (.outcome i)) = .query (g.program m (.outcome i)) := rfl
  rw [program_outcome] at hk
  refine Program.Completes.settles hk (.read (settle_input rfl 0) ?_)
  generalize (inputs (.source (g.source m) (.item i))).getD _ = x
  rcases x with _ | a
  · exact .done _
  · exact h.handle_completes m hc _ a

theorem Ordinary.item_settles (h : g.Ordinary L) (m : M)
    (hc : ∀ d, (g.operator m).shared? = some d →
      ∃ n v, settle g.rules inputs n (.value d) = .ok v) (i : ι) :
    ∃ n v, settle g.rules inputs n (.mapped m (.item i)) = .ok v := by
  have hk : g.rules (.mapped m (.item i)) = .query (g.program m (.item i)) := rfl
  rw [program_item] at hk
  obtain ⟨n, v, hv⟩ := h.outcome_settles m hc i
  exact Program.Completes.settles hk (.read hv (.done _))

theorem Ordinary.diagnostics_settles (h : g.Ordinary L) (m : M)
    (hc : ∀ d, (g.operator m).shared? = some d →
      ∃ n v, settle g.rules inputs n (.value d) = .ok v) :
    ∃ n v, settle g.rules inputs n (.mapped m .diagnostics) = .ok v := by
  have hk : g.rules (.mapped m .diagnostics) = .query (g.program m .diagnostics) := rfl
  refine Program.Completes.settles hk ?_
  have hnone : (g.sourceStream m).diagnostics.Completes g.rules inputs := .done []
  have hkeys : (g.sourceStream m).keys.Completes g.rules inputs :=
    .read (settle_input rfl 0) (.done _)
  have hget (i : ι) : (do return (← (mappedFamily m).get (.outcome i)).diagnostics :
      SheetProgram S D M ι α (List Diagnostic)).Completes g.rules inputs := by
    obtain ⟨n, v, hv⟩ := h.outcome_settles m hc i
    exact .read hv (.done _)
  simp only [program, Family.rule, mapProgram]
  exact (hnone.bind fun inherited => hkeys.bind fun keys =>
    (Program.Completes.mapM hget keys).bind fun own => .done _).bind fun _ => .done _

theorem Ordinary.steady (h : g.Ordinary L) (hc : g.Calm inputs) :
    Steady g.rules inputs fun _ => True where
  passes k p _ hk := by
    cases k with
    | source s n => cases hk
    | value d =>
      cases hk
      exact .inl (h.derived_relays d)
    | mapped m n =>
      cases hk
      cases n with
      | outcome i => exact .inr (h.outcome_settles m (hc m) i)
      | item i => exact .inl (relays_item g m i)
      | diagnostics => exact .inl (relays_diagnostics g m)
  closed _ _ _ _ _ _ _ _ := trivial

/-- While every shared value has a value, all nodes are firm. -/
theorem Ordinary.firm_of_calm (h : g.Ordinary L) (hc : g.Calm inputs) (k : SheetNode S D M ι) :
    Firm g.rules inputs k :=
  ⟨_, h.steady hc, trivial⟩

/-- Nodes that are not of mapped streams. -/
def IsPlain : SheetNode S D M ι → Prop
  | .mapped _ _ => False
  | _ => True

/-- Values that are derived without mapped streams are firm. -/
theorem Ordinary.firm_value (h : g.Ordinary L) (hd : ∀ d, (g.derived d).Within IsPlain) (d : D) :
    Firm g.rules inputs (.value d) := by
  refine ⟨IsPlain, ⟨?_, ?_⟩, trivial⟩
  · intro k p hk hp
    cases k with
    | source s n => cases hp
    | value d =>
      cases hp
      exact .inl (h.derived_relays d)
    | mapped m n => cases hk
  · intro k p ks x next hk hp hreach
    cases k with
    | source s n => cases hp
    | value d =>
      cases hp
      cases hreach.within (hd d) with
      | read hx _ => exact hx
    | mapped m n => cases hk

end

section
variable {m : M} {i : ι} {d : D} {f : α → α → Except (Failure (SheetNode S D M ι)) (Outcome α)}

/-- What becomes of an item once the shared value has been read. -/
def settled (f : α → α → Except (Failure (SheetNode S D M ι)) (Outcome α)) (i : ι) (a : α) :
    Except (Failure (SheetNode S D M ι)) α → SheetProgram S D M ι α (Outcome α)
  | .ok y => isolate (ItemKey.label i) (.ofExcept (f a y))
  | .error e => isolate (ItemKey.label i) (.fail e)

theorem isolate_handle (hm : g.operator m = .combine d f) (a : α) :
    isolate (ItemKey.label i) (g.handle m a) = .read (.value d) (settled f i a) := by
  unfold handle
  rw [hm]
  show Program.read _ _ = _
  congr 1
  funext r
  cases r <;> rfl

variable (hm : g.operator m = .combine d f) {a : α}
  (ha : inputs (.source (g.source m) (.item i)) = some (some a))
include hm ha

/-- The outcome of an item that is there reads the shared value after the item. -/
theorem outcome_reaches : (g.program m (.outcome i)).Reaches g.rules inputs
    [.source (g.source m) (.item i)] (.read (.value d) (settled f i a)) := by
  rw [program_outcome]
  refine .read (settle_input rfl 0) ?_
  simp only [ha, Option.getD_some]
  show Program.Reaches _ _ (isolate (ItemKey.label i) (g.handle m a)) [] _
  rw [isolate_handle hm]
  exact .here _

theorem value_before_outcome :
    Before g.rules inputs (.value d) (.mapped m (.outcome i)) :=
  before_of_reaches rfl (outcome_reaches hm ha)

theorem outcome_fails {n : Nat} {e : Failure (SheetNode S D M ι)}
    (he : settle g.rules inputs n (.value d) = .error (.failed e)) :
    ∃ l, settle g.rules inputs l (.mapped m (.outcome i)) = .error (.failed e) :=
  settles_of_failed_read rfl (outcome_reaches hm ha) he

end

theorem item_reaches (g : Sheet S D M ι α)
    (inputs : Inputs (SheetNode S D M ι) (SheetNode.Value α)) (m : M) (i : ι) :
    ∃ next, (g.program m (.item i)).Reaches g.rules inputs []
      (.read (.mapped m (.outcome i)) next) := by
  rw [program_item]
  exact ⟨_, .here _⟩

theorem outcome_before_item (g : Sheet S D M ι α)
    (inputs : Inputs (SheetNode S D M ι) (SheetNode.Value α)) (m : M) (i : ι) :
    Before g.rules inputs (.mapped m (.outcome i)) (.mapped m (.item i)) := by
  obtain ⟨next, hnext⟩ := item_reaches g inputs m i
  exact before_of_reaches rfl hnext

/-- An item that is not there settles without its shared value. -/
theorem item_settles_of_absent (g : Sheet S D M ι α) {m : M} {i : ι}
    {inputs : Inputs (SheetNode S D M ι) (SheetNode.Value α)}
    (ha : ¬ ∃ a, inputs (.source (g.source m) (.item i)) = some (some a)) :
    ∃ n v, settle g.rules inputs n (.mapped m (.item i)) = .ok v := by
  have hitem : (inputs (.source (g.source m) (.item i))).getD none = none := by
    rcases hx : inputs (.source (g.source m) (.item i)) with _ | _ | a
    · rfl
    · rfl
    · exact absurd ⟨a, hx⟩ ha
  have hout : ∃ n v, settle g.rules inputs n (.mapped m (.outcome i)) = .ok v := by
    have hk : g.rules (.mapped m (.outcome i)) = .query (g.program m (.outcome i)) := rfl
    rw [program_outcome] at hk
    refine Program.Completes.settles hk (.read (settle_input rfl 0) ?_)
    simp only [InputNode.absent, hitem]
    exact .done _
  obtain ⟨n, v, hv⟩ := hout
  have hk : g.rules (.mapped m (.item i)) = .query (g.program m (.item i)) := rfl
  rw [program_item] at hk
  exact Program.Completes.settles hk (.read hv (.done _))

/-- While nothing but the item is computed, its outcome can be. -/
theorem above_outcome {s : Store (SheetNode S D M ι) (SheetNode.Value α)} {m : M} {i : ι}
    (hidle : s.active = []) : Above g.rules inputs
    ((s.start (.mapped m (.item i))).noteRead (.mapped m (.outcome i))) (.mapped m (.outcome i)) :=
  (Above.of_idle hidle).read rfl (outcome_before_item g inputs m i)

section
variable {m : M} {i : ι} {n : Nat}

/-- The item of a node's source is there, and the failing shared value is combined with it. -/
structure Faulty (g : Sheet S D M ι α)
    (inputs : Inputs (SheetNode S D M ι) (SheetNode.Value α)) (m : M) (i : ι) (n : Nat) : Prop where
  exists_item : ∃ a, inputs (.source (g.source m) (.item i)) = some (some a)
  exists_value : ∃ d f e, g.operator m = .combine d f ∧ Firm g.rules inputs (.value d) ∧
    settle g.rules inputs n (.value d) = .error (.failed e)

theorem Faulty.outcome_fails (hF : g.Faulty inputs m i n) :
    ∃ l e, settle g.rules inputs l (.mapped m (.outcome i)) = .error (.failed e) := by
  obtain ⟨a, ha⟩ := hF.exists_item
  obtain ⟨d, f, e, hm, -, he⟩ := hF.exists_value
  obtain ⟨l, hl⟩ := Sheet.outcome_fails hm ha he
  exact ⟨l, e, hl⟩

theorem Faulty.item_fails (hF : g.Faulty inputs m i n) :
    ∃ l e, settle g.rules inputs l (.mapped m (.item i)) = .error (.failed e) := by
  obtain ⟨l, e, he⟩ := hF.outcome_fails
  obtain ⟨next, hnext⟩ := item_reaches g inputs m i
  obtain ⟨j, hj⟩ := settles_of_failed_read rfl hnext he
  exact ⟨j, e, hj⟩

/-- For the outcome of an item that is there, the item and the shared value are read. -/
theorem outcome_run {d : D} {f : α → α → Except (Failure (SheetNode S D M ι)) (Outcome α)}
    (hm : g.operator m = .combine d f)
    {below : (k : SheetNode S D M ι) → Except _ (SheetNode.Value α k)} {a : α}
    (ha : below (.source (g.source m) (.item i)) = .ok (some a)) {ks : List (SheetNode S D M ι)}
    {v : Outcome α} (hp : (g.program m (.outcome i)).settleWith below = .ok (ks, v)) :
    ks = [.source (g.source m) (.item i), .value d] := by
  rw [program_outcome] at hp
  simp only [Program.settleWith, ha, isolate_handle hm] at hp
  cases hy : below (.value d) with
  | error halt => simp [hy, Except.map] at hp
  | ok y =>
    have hend : ∀ ls w, (settled f i a (.ok y) : SheetProgram S D M ι α _).settleWith below =
        .ok (ls, w) → ls = [] := by
      intro ls w hw
      cases hr : f a y with
      | ok outcome =>
        simp only [settled, hr] at hw
        cases hw
        rfl
      | error e =>
        simp only [settled, hr] at hw
        cases e <;> cases hw <;> rfl
    simp only [hy] at hp
    obtain ⟨⟨ls, w⟩, hls, heq⟩ := map_eq_ok_iff.mp hp
    obtain ⟨⟨ls', w'⟩, hls', heq'⟩ := map_eq_ok_iff.mp hls
    obtain rfl := hend ls' w' hls'
    simp only [Prod.mk.injEq] at heq heq'
    rw [← heq.1, ← heq'.1]

/-- The one node read for an item is its outcome. -/
theorem item_run {below : (k : SheetNode S D M ι) → Except _ (SheetNode.Value α k)}
    {ks : List (SheetNode S D M ι)} {v : Option α}
    (hp : (g.program m (.item i)).settleWith below = .ok (ks, v)) :
    ks = [.mapped m (.outcome i)] ∧ ∃ w, below (.mapped m (.outcome i)) = .ok w ∧ w.value = v := by
  rw [program_item] at hp
  simp only [Program.settleWith] at hp
  cases hw : below (.mapped m (.outcome i)) with
  | error halt => simp [hw] at hp
  | ok w =>
    simp only [hw, Except.map, Except.ok.injEq, Prod.mk.injEq] at hp
    exact ⟨hp.1.symm, w, rfl, hp.2⟩

/-- The first node read for an outcome is the item. -/
theorem exists_outcome_reads [BEq (SheetNode S D M ι)]
    {below : (k : SheetNode S D M ι) → Except _ (SheetNode.Value α k)}
    {ks : List (SheetNode S D M ι)} {v : Outcome α}
    (hp : (g.program m (.outcome i)).settleWith below = .ok (ks, v)) :
    ∃ rest, ks.eraseDups = .source (g.source m) (.item i) :: rest := by
  rw [program_outcome] at hp
  simp only [Program.settleWith] at hp
  cases hx : below (.source (g.source m) (.item i)) with
  | error halt => simp [hx] at hp
  | ok x =>
    simp only [hx] at hp
    obtain ⟨⟨ls, w⟩, -, heq⟩ := map_eq_ok_iff.mp hp
    rw [Prod.mk.injEq] at heq
    rw [← heq.1, List.eraseDups_cons]
    exact ⟨_, rfl⟩

end

section
variable [BEq (SheetNode S D M ι)] [LawfulBEq (SheetNode S D M ι)]
  [∀ k : SheetNode S D M ι, BEq (SheetNode.Value α k)]
  {L : Likeness (SheetNode S D M ι) (SheetNode.Value α)}
  {past : Nat → Inputs (SheetNode S D M ι) (SheetNode.Value α)}
  {s : Store (SheetNode S D M ι) (SheetNode.Value α)} {R n depth : Nat}
  {m : M} {i : ι} {d : D} {e : Failure (SheetNode S D M ι)}

/-- The failure is met by whoever reads the value, and it is an ordinary one. -/
theorem Ordinary.fetch_value (h : g.Ordinary L) (hf : Firm g.rules (past R) (.value d))
    (he : settle g.rules (past R) n (.value d) = .error (.failed e)) (hR : s.revision = R)
    (hs : Sound g.rules L past s) (ht : s.token = none)
    (ha : Above g.rules (past R) s (.value d)) (hle : n ≤ depth) :
    ∃ e' s', fetch g.rules depth (.value d) s = (.error (.failed e'), s') ∧ IsOrdinary e' ∧
      Advances g.rules L past (After g.rules (past R) (.value d)) s s' := by
  have hserved := serves h.orderly (steady_firm g.rules (past R)) depth _ s hf hR hs ha
  have hagree := hserved.agree ht hle (by rw [he]; exact ended_failed e)
  rw [he] at hagree
  obtain ⟨e', he', hkind⟩ := hagree.of_failed
  rw [map_eq_error_iff] at he'
  refine ⟨e', _, Prod.ext he' rfl, ?_, hserved.advances.mono fun _ h => .inl h⟩
  rintro ⟨c, hc⟩
  exact h.derived_fails d (past R) n e he ⟨c, hkind.trans hc⟩

/-- An outcome without a value was computed now. -/
structure Emptied (m : M) (i : ι) (memo : Memo (SheetNode S D M ι) (Outcome α))
    (s s' : Store (SheetNode S D M ι) (SheetNode.Value α)) : Prop where
  value : memo.value.value = none
  kept : s'.memos.get? (.mapped m (.outcome i)) = some memo
  verified : memo.verifiedAt = s'.revision
  revision : s'.revision = s.revision
  inputs : s'.inputs = s.inputs
  token : s'.token = none
  item : s'.memos.get? (.mapped m (.item i)) = s.memos.get? (.mapped m (.item i))
  since : memo.changedAt < s.revision → ∃ o, s.memos.get? (.mapped m (.outcome i)) = some o ∧
    o.changedAt = memo.changedAt ∧ o.value == memo.value

/-- An item that is there is read as it is. -/
theorem fetch_item {s : Store (SheetNode S D M ι) (SheetNode.Value α)} {a : α}
    (ha : s.input? (.source (g.source m) (.item i)) = some (some a)) (depth : Nat) :
    ∃ x, fetch g.rules depth (.source (g.source m) (.item i)) s = (.ok x, s) ∧
      x.value = some a ∧ s.inputs.get? (.source (g.source m) (.item i)) = some x := by
  rw [fetch_input rfl]
  cases hx : s.inputs.get? (.source (g.source m) (.item i)) with
  | none => simp [Store.input?, hx] at ha
  | some x => exact ⟨x, rfl, by simpa [Store.input?, hx] using ha, rfl⟩

/-- Run now, the program of an outcome ends without a value. -/
theorem Ordinary.runWith_outcome (h : g.Ordinary L) (hF : g.Faulty (past R) m i n)
    (hR : s.revision = R) (hs : Sound g.rules L past s) (ht : s.token = none)
    (ha : Above g.rules (past R) s (.mapped m (.outcome i))) (hle : n ≤ depth) :
    ∃ ds s', (g.program m (.outcome i)).runWith (fetch g.rules depth)
        (s.start (.mapped m (.outcome i))) = (.ok { diagnostics := ds }, s') ∧
      Advances g.rules L past (FromOn g.rules (past R) (.mapped m (.outcome i))) s s' := by
  obtain ⟨a, hitem⟩ := hF.exists_item
  obtain ⟨d, f, e, hm, hf, he⟩ := hF.exists_value
  have hbefore := value_before_outcome hm hitem
  let s₁ := (s.start (.mapped m (.outcome i))).noteRead (.source (g.source m) (.item i))
  have habove : Above g.rules (past R) (s₁.noteRead (.value d)) (.value d) :=
    ha.read rfl hbefore
  have hnow : s.input? (.source (g.source m) (.item i)) = some (some a) := by
    rw [← hs.past_revision, hR, hitem]
  obtain ⟨x, hx, hxa, -⟩ := fetch_item (s := s₁) hnow depth
  obtain ⟨e', s', hfetch, he', hadv⟩ := h.fetch_value hf he (s := s₁.noteRead (.value d)) hR
    (hs.of_same rfl rfl rfl) (by simp [s₁, Store.start, ht]) habove hle
  obtain ⟨ds, hds⟩ := isolate_fail (V := SheetNode.Value α) (β := α) (ItemKey.label i) he'
  refine ⟨ds, s', ?_, ?_⟩
  · rw [program_outcome]
    simp only [Program.runWith]
    rw [hx]
    simp only [hxa, isolate_handle hm]
    simp only [Program.runWith]
    rw [hfetch]
    simp only [settled, hds, Program.runWith]
  · have hstart : Advances g.rules L past (After g.rules (past R) (.value d)) s
        (s₁.noteRead (.value d)) :=
      ((Advances.start _ _ s).trans (.noteRead _ _ _)).trans (.noteRead _ _ _)
    exact (hstart.trans hadv).mono fun x hx => hx.after hbefore

/-- An outcome that is executed now has no value. -/
theorem Ordinary.execute_outcome (h : g.Ordinary L) (hF : g.Faulty (past R) m i n)
    (hR : s.revision = R) (hs : Sound g.rules L past s) (ht : s.token = none)
    (ha : Above g.rules (past R) s (.mapped m (.outcome i))) (hle : n ≤ depth) :
    ∃ memo s', execute (fetch g.rules depth) (.mapped m (.outcome i)) (g.program m (.outcome i))
        (s.memos.get? (.mapped m (.outcome i))) s = (.ok memo.toStamped, s') ∧
      Emptied m i memo s s' := by
  obtain ⟨l, e, hout⟩ := hF.outcome_fails
  obtain ⟨j, e', hitem⟩ := hF.item_fails
  have hsettles : Settles g.rules (past R) (.mapped m (.outcome i)) :=
    ⟨l, by rw [hout]; exact ended_failed e⟩
  have hcomputing : s.isComputing (.mapped m (.outcome i)) = false := by
    refine Bool.eq_false_iff.mpr fun hc => ?_
    obtain ⟨a, hmem, hak⟩ := List.any_eq_true.mp hc
    have hbefore := ha a hmem
    rw [eq_of_beq hak] at hbefore
    exact hbefore.irrefl hsettles
  obtain ⟨ds, s', hrun, hadv⟩ := h.runWith_outcome hF hR hs ht ha hle
  have hrev : s'.revision = s.revision := hadv.revision
  let k : SheetNode S D M ι := .mapped m (.outcome i)
  let v : SheetNode.Value α k := { diagnostics := ds }
  let memo : Memo (SheetNode S D M ι) (SheetNode.Value α k) :=
    { value := v, changedAt := s'.changedAt (s.memos.get? k) v, verifiedAt := s'.revision
      reads := s'.currentReads }
  have hexecute : execute (fetch g.rules depth) k (g.program m (.outcome i)) (s.memos.get? k) s =
      (.ok memo.toStamped, s'.finish.keep k memo) := by
    simp only [execute, k, hcomputing, Store.cancelled?_of_token_none ht, compute, hrun]
    rfl
  refine ⟨memo, _, hexecute, rfl, NodeTable.get?_set_self _ k memo, rfl, hadv.revision,
    hadv.inputs, hadv.token ht, ?_, ?_⟩
  · have hne : k ≠ .mapped m (.item i) := by simp [k]
    show (s'.memos.set k memo).get? _ = _
    rw [NodeTable.get?_set_of_ne _ hne]
    exact hadv.frame _ ⟨⟨j, by rw [hitem]; exact ended_failed e'⟩,
      .inr (outcome_before_item g (past R) m i)⟩
  · intro hlt
    have hchanged : s'.changedAt (s.memos.get? k) v < s'.revision := by
      rw [hrev]
      exact hlt
    cases ho : s.memos.get? k with
    | none => simp [Store.changedAt, ho] at hchanged
    | some o =>
      simp only [Store.changedAt, ho] at hchanged
      split at hchanged
      · rename_i heq
        exact ⟨o, rfl, by simp [memo, Store.changedAt, ho, heq], heq⟩
      · omega

/-- The item is there and did not change since its outcome was kept. -/
def Blocked (g : Sheet S D M ι α) (s : Store (SheetNode S D M ι) (SheetNode.Value α)) (m : M)
    (i : ι) : Prop :=
  ∃ x memo, s.inputs.get? (.source (g.source m) (.item i)) = some x ∧ x.value.isSome ∧
    s.memos.get? (.mapped m (.outcome i)) = some memo ∧ x.changedAt ≤ memo.verifiedAt

/-- An item that is not blocked has an outcome without a value. -/
theorem Ordinary.fetch_outcome (h : g.Ordinary L) (hF : g.Faulty (past R) m i n)
    (hR : s.revision = R) (hs : Sound g.rules L past s) (ht : s.token = none)
    (ha : Above g.rules (past R) s (.mapped m (.outcome i))) (hle : n ≤ depth)
    (hb : ¬ g.Blocked s m i) :
    ∃ memo s', fetch g.rules (depth + 1) (.mapped m (.outcome i)) s = (.ok memo.toStamped, s') ∧
      Emptied m i memo s s' := by
  have hexecute := h.execute_outcome hF hR hs ht ha hle
  have hk : g.rules (.mapped m (.outcome i)) = .query (g.program m (.outcome i)) := rfl
  cases hm : s.memos.get? (.mapped m (.outcome i)) with
  | none =>
    rw [hm] at hexecute
    rw [fetch_of_unkept hk depth hm]
    exact hexecute
  | some o =>
    rw [hm] at hexecute
    rw [fetch_of_kept hk depth hm]
    obtain ⟨l, e, hout⟩ := hF.outcome_fails
    rw [← hR] at hout
    have hlt := hs.verifiedAt_lt hm hout
    obtain ⟨p, l', ks, v, hp, hrun, -, hreads, -⟩ := (hs.memos _ o hm).exists_run
    cases hp
    obtain ⟨rest, hrest⟩ := exists_outcome_reads hrun
    obtain ⟨a, hitem⟩ := hF.exists_item
    have hnow : s.input? (.source (g.source m) (.item i)) = some (some a) := by
      rw [← hs.past_revision, hR, hitem]
    obtain ⟨x, hx, hxa, hxs⟩ := fetch_item hnow depth
    have hchanged : o.verifiedAt < x.changedAt := by
      refine Nat.lt_of_not_le fun hc => hb ⟨x, o, hxs, by rw [hxa]; rfl, hm, hc⟩
    have hsince : unchangedSince (fetch g.rules depth) o.verifiedAt o.reads s = (.ok false, s) := by
      rw [hreads, hrest]
      simp only [unchangedSince, hx]
      rw [if_pos hchanged]
    simp only [revalidate, hsince]
    rw [if_neg (by simp; omega)]
    exact hexecute

theorem execute_item (hidle : s.active = []) (ht : s.token = none)
    {previous : Option (Memo (SheetNode S D M ι) (Option α))} {node : Stamped (Outcome α)}
    {s' : Store (SheetNode S D M ι) (SheetNode.Value α)}
    (hfetch : fetch g.rules depth (.mapped m (.outcome i))
      ((s.start (.mapped m (.item i))).noteRead (.mapped m (.outcome i))) = (.ok node, s'))
    (hv : node.value.value = none) :
    ∃ node s', execute (fetch g.rules depth) (.mapped m (.item i))
        (g.program m (.item i)) previous s
      = (.ok node, s') ∧ node.value = none := by
  have hcomputing : s.isComputing (.mapped m (.item i)) = false := by
    simp [Store.isComputing, hidle]
  have hrun : (g.program m (.item i)).runWith (fetch g.rules depth)
      (s.start (.mapped m (.item i))) = (.ok none, s') := by
    rw [program_item]
    simp only [Program.runWith]
    rw [hfetch]
    simp only [hv]
  simp only [execute, hcomputing, Store.cancelled?_of_token_none ht, compute, hrun]
  exact ⟨_, _, rfl, rfl⟩

/-- An item that is not blocked reads as one without a value. -/
theorem Ordinary.fetch_unblocked (h : g.Ordinary L) (hF : g.Faulty (past R) m i n)
    (hR : s.revision = R) (hs : Sound g.rules L past s) (ht : s.token = none)
    (hidle : s.active = []) (hle : n ≤ depth) (hb : ¬ g.Blocked s m i) :
    ∃ node s', fetch g.rules (depth + 2) (.mapped m (.item i)) s = (.ok node, s') ∧
      L.like (.mapped m (.item i)) none node.value := by
  have hk : g.rules (.mapped m (.item i)) = .query (g.program m (.item i)) := rfl
  have hempty : L.like (.mapped m (.item i)) none none := h.refl (.mapped m (.item i)) none
  cases hm : s.memos.get? (.mapped m (.item i)) with
  | none =>
    obtain ⟨memo, s₁, hfetch, hempt⟩ := h.fetch_outcome hF
      (s := (s.start (.mapped m (.item i))).noteRead (.mapped m (.outcome i))) hR
      (hs.of_same rfl rfl rfl) (by simp [Store.start, ht]) (above_outcome hidle) hle hb
    obtain ⟨node, s₂, hexecute, hnode⟩ := execute_item (m := m) (i := i) hidle ht hfetch hempt.value
    rw [fetch_of_unkept hk (depth + 1) hm]
    exact ⟨node, s₂, hexecute, by rw [hnode]; exact hempty⟩
  | some t =>
    obtain ⟨l, e, hitem⟩ := hF.item_fails
    rw [← hR] at hitem
    have hlt := hs.verifiedAt_lt hm hitem
    obtain ⟨memo, s₁, hfetch, hempt⟩ := h.fetch_outcome hF hR hs ht (.of_idle hidle) hle hb
    have hidle₁ : s₁.active = [] := by
      have hactive := fetch_active g.rules (depth + 1) (.mapped m (.outcome i)) s
      rw [hfetch] at hactive
      exact hactive.trans hidle
    obtain ⟨p, l', ks, v, hp, hrun, hv, hreads, htracks⟩ := (hs.memos _ t hm).exists_run
    cases hp
    obtain ⟨rfl, w, hw, hwv⟩ := item_run hrun
    have hsince : unchangedSince (fetch g.rules (depth + 1)) t.verifiedAt t.reads s =
        (.ok (decide (memo.changedAt ≤ t.verifiedAt)), s₁) := by
      rw [hreads]
      show unchangedSince _ _ [.mapped m (.outcome i)] s = _
      simp only [unchangedSince, hfetch]
      by_cases hc : memo.changedAt ≤ t.verifiedAt
      · rw [if_neg (by simpa using hc), decide_eq_true hc]
      · rw [if_pos (by simpa using hc), decide_eq_false hc]
    rw [fetch_of_kept hk (depth + 1) hm, revalidate, if_neg (by simp; omega), hsince]
    by_cases hc : memo.changedAt ≤ t.verifiedAt
    · rw [decide_eq_true hc]
      refine ⟨_, _, rfl, ?_⟩
      obtain ⟨o, ho, hoc, heq⟩ := hempt.since (by omega)
      have hwo := (htracks _ List.mem_cons_self _ w hw o ho).2 (by omega)
      have hlike := L.trans hwo (h.of_beq _ o.value memo.value heq)
      have halike := h.alike _ _ hk
      rw [program_item] at halike
      cases halike with
      | read hnext =>
        cases hnext w memo.value hlike with
        | done hend =>
          rw [hempt.value, hwv] at hend
          exact L.trans (L.symm hend) hv
    · rw [decide_eq_false hc]
      have hverified : fetch g.rules (depth + 1) (.mapped m (.outcome i))
          ((s₁.start (.mapped m (.item i))).noteRead (.mapped m (.outcome i))) =
          (.ok memo.toStamped, (s₁.start (.mapped m (.item i))).noteRead
            (.mapped m (.outcome i))) :=
        fetch_of_verified rfl depth hempt.kept hempt.verified
      obtain ⟨node, s₂, hexecute, hnode⟩ := execute_item hidle₁ hempt.token hverified hempt.value
      exact ⟨node, s₂, hexecute, by rw [hnode]; exact hempty⟩

/-- The outcome of a blocked item cannot be read. -/
theorem Ordinary.fetch_blocked_outcome (h : g.Ordinary L) (hF : g.Faulty (past R) m i n)
    (hR : s.revision = R) (hs : Sound g.rules L past s) (ht : s.token = none)
    (ha : Above g.rules (past R) s (.mapped m (.outcome i))) (hle : n ≤ depth)
    (hb : g.Blocked s m i) :
    ∃ e s', fetch g.rules (depth + 1) (.mapped m (.outcome i)) s = (.error (.failed e), s') := by
  obtain ⟨x, o, hx, -, ho, hc⟩ := hb
  obtain ⟨a, hitem⟩ := hF.exists_item
  obtain ⟨l, e, hout⟩ := hF.outcome_fails
  obtain ⟨d, f, e', hm, hf, he⟩ := hF.exists_value
  rw [← hR] at hout
  have hlt := hs.verifiedAt_lt ho hout
  obtain ⟨p, l', ks, v, hp, hrun, -, hreads, -⟩ := (hs.memos _ o ho).exists_run
  cases hp
  have hnow : s.input? (.source (g.source m) (.item i)) = some (some a) := by
    rw [← hs.past_revision, hR, hitem]
  obtain ⟨y, hfetch, hya, hy⟩ := fetch_item hnow depth
  obtain rfl : y = x := by
    rw [hx] at hy
    exact (Option.some.inj hy).symm
  have hthen : settle g.rules (past o.verifiedAt) l' (.source (g.source m) (.item i)) =
      .ok (some a) := by
    rw [settle_input rfl, (hs.inputs _ y hx).2 _ hc (by omega), hya]
    rfl
  obtain rfl := outcome_run hm hthen hrun
  obtain ⟨e'', s', hvalue, -, -⟩ := h.fetch_value hf he hR hs ht
    (fun b hb => (value_before_outcome hm hitem).trans (ha b hb)) hle
  refine ⟨e'', s', ?_⟩
  rw [fetch_of_kept rfl depth ho, revalidate, if_neg (by simp; omega), hreads]
  have hdups : ([.source (g.source m) (.item i), .value d] : List (SheetNode S D M ι)).eraseDups =
      [.source (g.source m) (.item i), .value d] := by
    simp [List.eraseDups_cons]
  rw [hdups]
  simp only [unchangedSince, hfetch, if_neg (Nat.not_lt.mpr hc), hvalue]

/-- A blocked item cannot be read. -/
theorem Ordinary.fetch_blocked (h : g.Ordinary L) (hF : g.Faulty (past R) m i n)
    (hR : s.revision = R) (hs : Sound g.rules L past s) (ht : s.token = none)
    (hidle : s.active = []) (hle : n ≤ depth) (hb : g.Blocked s m i) :
    ∃ e s', fetch g.rules (depth + 2) (.mapped m (.item i)) s = (.error (.failed e), s') := by
  have hk : g.rules (.mapped m (.item i)) = .query (g.program m (.item i)) := rfl
  cases hm : s.memos.get? (.mapped m (.item i)) with
  | none =>
    obtain ⟨e, s', hfetch⟩ := h.fetch_blocked_outcome hF
      (s := (s.start (.mapped m (.item i))).noteRead (.mapped m (.outcome i))) hR
      (hs.of_same rfl rfl rfl) (by simp [Store.start, ht]) (above_outcome hidle) hle hb
    have hcomputing : s.isComputing (.mapped m (.item i)) = false := by
      simp [Store.isComputing, hidle]
    have hrun : (g.program m (.item i)).runWith (fetch g.rules (depth + 1))
        (s.start (.mapped m (.item i))) = (.error (.failed e), s') := by
      rw [program_item]
      simp only [Program.runWith]
      rw [hfetch]
    rw [fetch_of_unkept hk (depth + 1) hm]
    simp only [execute, hcomputing, Store.cancelled?_of_token_none ht, compute, hrun]
    exact ⟨_, _, rfl⟩
  | some t =>
    obtain ⟨l, e', hitem⟩ := hF.item_fails
    rw [← hR] at hitem
    have hlt := hs.verifiedAt_lt hm hitem
    obtain ⟨p, l', ks, v, hp, hrun, -, hreads, -⟩ := (hs.memos _ t hm).exists_run
    cases hp
    obtain ⟨rfl, -⟩ := item_run hrun
    obtain ⟨e, s', hfetch⟩ := h.fetch_blocked_outcome hF hR hs ht (.of_idle hidle) hle hb
    have hsince : unchangedSince (fetch g.rules (depth + 1)) t.verifiedAt t.reads s =
        (.error (.failed e), s') := by
      rw [hreads]
      show unchangedSince _ _ [.mapped m (.outcome i)] s = _
      simp only [unchangedSince, hfetch]
    refine ⟨e, s', ?_⟩
    rw [fetch_of_kept hk (depth + 1) hm, revalidate, if_neg (by simp; omega), hsince]

theorem Ordinary.readsAfresh (h : g.Ordinary L) (hs : AtRest g.rules L s) (ht : s.token = none)
    {k : SheetNode S D M ι} (hk : ∃ n v, settle g.rules s.input? n k = .ok v) :
    ReadsAfresh g.rules L s k := by
  obtain ⟨n, v, hv⟩ := hk
  exact hs.readsAfresh h.orderly h.refl (steady_firm _ _) ht (firm_of_settles hv) hv

theorem Ordinary.raises_of_blocked (h : g.Ordinary L) (hs : AtRest g.rules L s)
    (ht : s.token = none) (hF : g.Faulty s.input? m i n) (hb : g.Blocked s m i) :
    Raises g.rules s (.mapped m (.item i)) := by
  obtain ⟨past, hsound⟩ := hs.exists_sound
  rw [← hsound.past_eq] at hF
  refine ⟨n + 2, fun depth hle => ?_⟩
  obtain ⟨l, rfl⟩ := Nat.exists_eq_add_of_le hle
  obtain ⟨e, s', hfetch⟩ := h.fetch_blocked hF rfl hsound ht hs.idle (Nat.le_add_right n l) hb
  refine ⟨e, ?_⟩
  rw [run_get hs.idle, show n + 2 + l = n + l + 2 by omega, hfetch]
  rfl

theorem Ordinary.readsAfresh_of_unblocked (h : g.Ordinary L) (hs : AtRest g.rules L s)
    (ht : s.token = none) (hF : g.Faulty s.input? m i n) (hb : ¬ g.Blocked s m i) :
    ReadsAfresh g.rules L s (.mapped m (.item i)) := by
  have hempty {s : Store (SheetNode S D M ι) (SheetNode.Value α)} (hs : AtRest g.rules L s)
      (ht : s.token = none) (hF : g.Faulty s.input? m i n) (hb : ¬ g.Blocked s m i) (l : Nat) :
      ∃ v, ((Program.get (.mapped m (.item i))).run g.rules (n + 2 + l) s).1 = .ok v ∧
        L.like (.mapped m (.item i)) none v := by
    obtain ⟨past, hsound⟩ := hs.exists_sound
    rw [← hsound.past_eq] at hF
    obtain ⟨node, s', hfetch, hnode⟩ :=
      h.fetch_unblocked hF rfl hsound ht hs.idle (Nat.le_add_right n l) hb
    refine ⟨node.value, ?_, hnode⟩
    rw [run_get hs.idle, show n + 2 + l = n + l + 2 by omega, hfetch]
    rfl
  refine ⟨n + 2, fun depth hle => ?_⟩
  obtain ⟨l, rfl⟩ := Nat.exists_eq_add_of_le hle
  obtain ⟨v, hv, hlike⟩ := hempty hs ht hF hb l
  refine ⟨v, hv, fun settings hsettings => ?_⟩
  rw [← hsettings] at hF
  obtain ⟨hmemos, htoken⟩ := filled_frame settings
  obtain ⟨w, hw, hlike'⟩ := hempty (.filled h.refl settings) htoken hF
    (by rintro ⟨x, o, -, -, ho, -⟩; rw [hmemos] at ho; cases ho) l
  exact ⟨w, hw, L.trans (L.symm hlike') hlike⟩

/-- While the shared value of a mapped stream has a value, the stream reads as afresh, whatever else
fails. At the first read that meets the failure of one, an item reads as afresh too, unless it was
computed before and did not change since: then, and only then, the read fails. -/
theorem isolated_unless_blocked (h : g.Ordinary L)
    (history : List (Move (SheetNode S D M ι) (SheetNode.Value α)))
    (hread : ReadsFirmly g.rules history {}) (ht : (reach g.rules history).token = none) (m : M) :
    ((∀ d, (g.operator m).shared? = some d →
        ∃ n v, settle g.rules (reach g.rules history).input? n (.value d) = .ok v) →
      (∀ i, ReadsAfresh g.rules L (reach g.rules history) (.mapped m (.item i))) ∧
        ReadsAfresh g.rules L (reach g.rules history) (.mapped m .diagnostics)) ∧
    ∀ d f n e, g.operator m = .combine d f →
      Firm g.rules (reach g.rules history).input? (.value d) →
      settle g.rules (reach g.rules history).input? n (.value d) = .error (.failed e) → ∀ i,
        (Raises g.rules (reach g.rules history) (.mapped m (.item i)) ↔
          g.Blocked (reach g.rules history) m i) ∧
        (¬ g.Blocked (reach g.rules history) m i →
          ReadsAfresh g.rules L (reach g.rules history) (.mapped m (.item i))) := by
  have hrest : AtRest g.rules L (reach g.rules history) :=
    AtRest.empty.follow h.orderly h.refl hread
  generalize reach g.rules history = s at ht hrest ⊢
  constructor
  · intro hc
    exact ⟨fun i => h.readsAfresh hrest ht (h.item_settles m hc i),
      h.readsAfresh hrest ht (h.diagnostics_settles m hc)⟩
  · intro d f n e hm hf he i
    have hunblocked (hb : ¬ g.Blocked s m i) : ReadsAfresh g.rules L s (.mapped m (.item i)) := by
      by_cases hitem : ∃ a, s.input? (.source (g.source m) (.item i)) = some (some a)
      · exact h.readsAfresh_of_unblocked hrest ht ⟨hitem, d, f, e, hm, hf, he⟩ hb
      · exact h.readsAfresh hrest ht (item_settles_of_absent g hitem)
    refine ⟨⟨fun hraises => ?_, fun hb => ?_⟩, hunblocked⟩
    · refine Classical.byContradiction fun hb => ?_
      obtain ⟨N, hN⟩ := hraises
      obtain ⟨N', hN'⟩ := hunblocked hb
      obtain ⟨e', he'⟩ := hN (max N N') (Nat.le_max_left N N')
      obtain ⟨v, hv, -⟩ := hN' (max N N') (Nat.le_max_right N N')
      rw [he'] at hv
      cases hv
    · obtain ⟨x, o, hx, hsome, ho, hc⟩ := hb
      obtain ⟨a, ha⟩ := Option.isSome_iff_exists.mp hsome
      have hitem : s.input? (.source (g.source m) (.item i)) = some (some a) := by
        simp only [Store.input?, hx, Option.map_some, ha]
      exact h.raises_of_blocked hrest ht ⟨⟨a, hitem⟩, d, f, e, hm, hf, he⟩
        ⟨x, o, hx, hsome, ho, hc⟩

end

inductive Slot | base | entry
  deriving DecidableEq

abbrev TallyNode := SheetNode Unit Unit Unit Slot

namespace Slot

instance : ItemKey Slot where
  label
    | base => "base"
    | entry => "entry"
  sorted := .ok

instance : Node TallyNode where
  queryName _ := "tally"
  text _ := "tally"

instance : (k : TallyNode) → DecidableEq (SheetNode.Value Nat k)
  | .source _ .keys => inferInstanceAs (DecidableEq (List Slot))
  | .source _ (.item _) => inferInstanceAs (DecidableEq (Option Nat))
  | .value _ => inferInstanceAs (DecidableEq Nat)
  | .mapped _ (.outcome _) => inferInstanceAs (DecidableEq (Outcome Nat))
  | .mapped _ (.item _) => inferInstanceAs (DecidableEq (Option Nat))
  | .mapped _ .diagnostics => inferInstanceAs (DecidableEq (List Diagnostic))

end Slot

def base? : Option Nat → Except (Failure TallyNode) Nat
  | some n => .ok n
  | none => .error (.raised "ValueError" "no base")

/-- The number under the base is added to each; without one there is nothing to add. -/
def tally : Sheet Unit Unit Unit Slot Nat where
  source _ := ()
  operator _ := .combine () fun a base => .ok { value := some (a + base) }
  derived _ := (Program.get (.source () (.item .base))).bind fun n => .ofExcept (base? n)

namespace Slot

theorem settle_tally (inputs : Inputs TallyNode (SheetNode.Value Nat)) (n : Nat) :
    settle tally.rules inputs (n + 1) (.value ()) =
      match base? ((inputs (.source () (.item base))).getD none) with
      | .ok v => .ok v
      | .error e => .error (.failed e) := by
  have hbase : settle tally.rules inputs n (.source () (.item base)) =
      .ok ((inputs (.source () (.item base))).getD none) := settle_input rfl n
  have hvalue : tally.derived () =
      (Program.get (.source () (.item base))).bind fun n => .ofExcept (base? n) := rfl
  rw [settle_succ (p := tally.derived ()) rfl, hvalue]
  simp only [Program.get, Program.bind, Program.settleWith]
  rw [hbase]
  cases hb : base? ((inputs (.source () (.item base))).getD none) with
  | ok v => simp only [hb, Program.ofExcept, Program.settleWith, Except.map]
  | error e => simp only [hb, Program.ofExcept, Program.settleWith, Except.map]

theorem ordinary : tally.Ordinary .eq := by
  refine ⟨extensional_of_lawful _, fun d => ?_, fun d inputs n e he => ?_, fun m e he => ?_⟩
  · exact (Program.relays_get _ _).bind fun base => Program.relays_ofExcept _ _
  · cases n with
    | zero => cases he
    | succ n =>
      rw [settle_tally] at he
      cases hb : (inputs (.source () (.item base))).getD none with
      | some v => simp [hb, base?] at he
      | none =>
        simp only [hb, base?, Except.error.injEq, Halt.failed.injEq] at he
        subst he
        rintro ⟨c, hc⟩
        simp [SameKind, Failure.kind] at hc
  · cases he with
    | combine h => cases h

def reading : Move TallyNode (SheetNode.Value Nat) :=
  .run 5 ((Program.get (.mapped () (.item entry))).bind fun _ => .done ())

def faulted : List (Move TallyNode (SheetNode.Value Nat)) :=
  [.set (.source () (.item base)) (some 10), .set (.source () (.item entry)) (some 1), reading,
    .set (.source () (.item base)) none]

/-- The entry is changed and read, and then the base comes back. -/
def restored : List (Move TallyNode (SheetNode.Value Nat)) :=
  faulted ++ [.set (.source () (.item entry)) (some 2), reading,
    .set (.source () (.item base)) (some 10)]

theorem faulted_reads : ReadsFirmly tally.rules faulted {} := by
  refine ⟨trivial, trivial, ?_, trivial, trivial⟩
  exact .read (ordinary.firm_of_calm (fun _ d _ => ⟨2, 10, rfl⟩) _) fun r => by
    cases r with
    | ok v => exact .done ()
    | error e => exact .fail e

end Slot

theorem isolated_unless_blocked_tally :
    ReadsFirmly tally.rules Slot.faulted {} ∧ (reach tally.rules Slot.faulted).token = none ∧
    Raises tally.rules (reach tally.rules Slot.faulted) (.mapped () (.item .entry)) ∧
    ReadsAfresh tally.rules .eq (reach tally.rules (Slot.faulted.take 3))
      (.mapped () (.item .entry)) := by
  obtain ⟨-, hfault⟩ :=
    isolated_unless_blocked Slot.ordinary Slot.faulted Slot.faulted_reads rfl ()
  obtain ⟨hcalm, -⟩ := isolated_unless_blocked Slot.ordinary (Slot.faulted.take 3)
    ⟨trivial, trivial, Slot.faulted_reads.2.2.1, trivial⟩ rfl ()
  have hfirm : Firm tally.rules (reach tally.rules Slot.faulted).input? (.value ()) := by
    refine Slot.ordinary.firm_value (fun _ => .read trivial fun r => ?_) ()
    rcases r with e | _ | n
    · exact .fail e
    · exact .fail _
    · exact .done n
  refine ⟨Slot.faulted_reads, rfl, ?_, (hcalm fun _ _ => ⟨2, 10, rfl⟩).1 _⟩
  exact (hfault () _ 2 (.raised "ValueError" "no base") rfl hfirm rfl .entry).1.mpr
    ⟨_, _, rfl, rfl, rfl, by decide⟩

/-- Reads of the entry raise the failure of the base when it is taken away, and do not recover when
it comes back. -/
theorem tally_not_isolated :
    ((Program.get (.mapped () (.item .entry))).run tally.rules 5
      (reach tally.rules Slot.faulted)).1 = .error (.failed (.raised "ValueError" "no base")) ∧
    ((Program.get (.mapped () (.item .entry))).run tally.rules 5
      (reach tally.rules Slot.restored)).1 = .ok none ∧
    ((Program.get (.mapped () (.item .entry))).run tally.rules 5
      (filled [⟨.source () (.item .base), some 10⟩, ⟨.source () (.item .entry), some 2⟩])).1 =
        .ok (some 12) :=
  ⟨rfl, rfl, rfl⟩

end Sheet
end SceneCodegen.Graph
