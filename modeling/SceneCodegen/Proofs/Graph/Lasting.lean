import SceneCodegen.Proofs.Graph.Rerun

/-!
# Lasting nodes

A node lasts since a revision if neither it nor anything that it rests on changed after it, and
nothing of that was dropped. Whatever else is read, such a node is read from memory and goes on to
last, until an input changes that it rests on or a memo is dropped. It settles as it did then. What
a run has read and nothing was dropped of lasts since the run.
-/
namespace SceneCodegen.Graph

variable {K : Type} {V : K → Type} {α : Type}

/-- What a program read and ended with depends on nothing but what it read. -/
theorem Program.settleWith_of_reads {below below' : (k : K) → Except (Halt K) (V k)}
    {p : Program K V α} {ks : List K} {a : α} (hp : p.settleWith below = .ok (ks, a))
    (h : ∀ d ∈ ks, below' d = below d) : p.settleWith below' = .ok (ks, a) := by
  induction p generalizing ks a with
  | done b => exact hp
  | fail e => cases hp
  | read k next ih =>
    simp only [settleWith] at hp ⊢
    cases hv : below k with
    | error halt => simp [hv] at hp
    | ok v =>
      simp only [hv] at hp
      obtain ⟨⟨ls, b⟩, hls, heq⟩ := map_eq_ok_iff.mp hp
      cases heq
      have hrest := ih (.ok v) hls fun d hd => h d (List.mem_cons_of_mem k hd)
      simp only [h k List.mem_cons_self, hv, hrest, Except.map]
  | cancel next ih => exact ih hp h

variable [BEq K] [LawfulBEq K] {rules rules' : Rules K V} {s s' s'' : Store K V} {k : K} {r : Nat}

/-- Since a revision neither a node changed nor anything that it rests on through recorded reads,
and nothing of that was dropped. -/
inductive Lasts (rules : Rules K V) (s : Store K V) (r : Nat) : K → Prop
  | input {k : K} {absent : V k} (hk : rules k = .input absent)
      (hc : ((s.inputs.get? k).getD ⟨absent, 0⟩).changedAt ≤ r) : Lasts rules s r k
  | memo {k : K} {p : Program K V (V k)} {m : Memo K (V k)} (hk : rules k = .query p)
      (hm : s.memos.get? k = some m) (hc : m.changedAt ≤ r) (hv : r ≤ m.verifiedAt)
      (h : ∀ d ∈ m.reads, Lasts rules s r d) : Lasts rules s r k

namespace Lasts

/-- Valid nodes that rest on valid ones last since now. -/
theorem of_grounded (hs : Tidy rules s) (hd : Dated s) (h : Grounded rules s k) :
    Lasts rules s s.revision k := by
  induction h with
  | @input k absent hk =>
    refine .input hk ?_
    cases hx : s.inputs.get? k with
    | none => exact Nat.zero_le _
    | some x => exact hd k x hx
  | @memo k m hm hv _ ih =>
    obtain ⟨p, hp⟩ := hs.query k m hm
    exact .memo hp hm (hv ▸ hs.changed_le k m hm) (Nat.le_of_eq hv.symm) ih

theorem exists_memo (h : Lasts rules s r k) {p : Program K V (V k)} (hk : rules k = .query p) :
    ∃ m, s.memos.get? k = some m ∧ m.changedAt ≤ r ∧ r ≤ m.verifiedAt ∧
      ∀ d ∈ m.reads, Lasts rules s r d := by
  cases h with
  | input hi _ =>
    rw [hk] at hi
    cases hi
  | memo _ hm hc hv h => exact ⟨_, hm, hc, hv, h⟩

theorem changedAt_input_le (h : Lasts rules s r k) {absent : V k} (hk : rules k = .input absent) :
    ((s.inputs.get? k).getD ⟨absent, 0⟩).changedAt ≤ r := by
  cases h with
  | input hi hc =>
    rw [hk] at hi
    cases hi
    exact hc
  | memo hq _ _ _ _ =>
    rw [hk] at hq
    cases hq

/-- Whether a node lasts depends on what it rests on only. -/
theorem of_closed {C : K → Prop}
    (hclosed : ∀ k m d, C k → s.memos.get? k = some m → d ∈ m.reads → C d)
    (hrules : ∀ k, C k → rules' k = rules k)
    (hmemos : ∀ k, C k → s'.memos.get? k = s.memos.get? k)
    (hinputs : ∀ k absent, C k → rules k = .input absent → Lasts rules s r k →
      ((s'.inputs.get? k).getD ⟨absent, 0⟩).changedAt ≤ r)
    (h : Lasts rules s r k) (hk : C k) : Lasts rules' s' r k := by
  induction h with
  | @input k absent hrule hc =>
    exact .input ((hrules k hk).trans hrule) (hinputs k absent hk hrule (.input hrule hc))
  | @memo k p m hrule hm hc hv _ ih =>
    exact .memo ((hrules k hk).trans hrule) ((hmemos k hk).trans hm) hc hv fun d hd =>
      ih d hd (hclosed k m d hk hm hd)

/-- It settles under the inputs of any revision since as it does now. -/
theorem settle_eq {L : Likeness K V} {past : Nat → Inputs K V} {level : K → Nat}
    (hlevel : Leveled rules level) (hs : Sound rules L past s) (h : Lasts rules s r k) {r' : Nat}
    (hr : r ≤ r') (hr' : r' ≤ s.revision) {n : Nat} (hn : level k < n) :
    settle rules (past r') n k = settle rules s.input? n k := by
  induction h generalizing r' n with
  | @input k absent hk hc =>
    have hnow : (s.input? k).getD absent = ((s.inputs.get? k).getD ⟨absent, 0⟩).value := by
      rw [Store.input?]
      cases s.inputs.get? k <;> rfl
    rw [settle_input hk, settle_input hk, hs.input_since hr' (Nat.le_trans hc hr), hnow]
  | @memo k p m hk hm _ hv _ ih =>
    obtain ⟨n, rfl⟩ : ∃ l, n = l + 1 := ⟨n - 1, by omega⟩
    obtain ⟨q, l, ks, v, hq, hrun, -, hreads, -⟩ := (hs.memos k m hm).exists_run
    obtain rfl : p = q := by
      rw [hk] at hq
      exact Rule.query.inj hq
    have hle := (hs.memos k m hm).le_revision
    have hsafe := hlevel.safe k p hk
    have hbelow (d : K) (hd : level d < level k) :
        ∃ w, settle rules (past m.verifiedAt) n d = .ok w := hlevel.settles (by omega)
    obtain ⟨out, hout⟩ := hsafe.settleWith hbelow
    have hrun' : p.settleWith (settle rules (past m.verifiedAt) n) = .ok (ks, v) := by
      rw [← hrun]
      exact settleWith_unique p (by rw [hout]; exact ended_ok _) (by rw [hrun]; exact ended_ok _)
    -- all that was read for the memo settles as it did at any revision since
    have hsame {r' : Nat} (hr : r ≤ r') (hr' : r' ≤ s.revision) :
        p.settleWith (settle rules (past r') n) = .ok (ks, v) := by
      refine Program.settleWith_of_reads hrun' fun d hd => ?_
      have hmem : d ∈ m.reads := by rwa [hreads, List.mem_eraseDups]
      have hlt : level d < level k := hsafe.mem_reads hrun' hd
      rw [ih d hmem hr hr' (by omega), ih d hmem hv hle (by omega)]
    rw [settle_succ hk, settle_succ hk, hsame hr hr', ← hs.past_eq,
      hsame (Nat.le_trans hr hr') (Nat.le_refl _)]

end Lasts

/-- The memos of lasting queries were left as they are, or found valid again. -/
structure Upholds (rules : Rules K V) (r : Nat) (s s' : Store K V) : Prop where
  inputs : s'.inputs = s.inputs
  revision : s'.revision = s.revision
  memos : ∀ k p m, rules k = .query p → Lasts rules s r k → s.memos.get? k = some m →
    ∃ v, r ≤ v ∧ s'.memos.get? k = some { m with verifiedAt := v }

namespace Upholds

theorem lasts (h : Upholds rules r s s') (hk : Lasts rules s r k) : Lasts rules s' r k := by
  induction hk with
  | input hrule hc => exact .input hrule (by rwa [h.inputs])
  | @memo k p m hrule hm hc hv hreads ih =>
    obtain ⟨v, hle, hm'⟩ := h.memos k p m hrule (.memo hrule hm hc hv hreads) hm
    exact .memo hrule hm' hc hle ih

theorem of_same (hi : s'.inputs = s.inputs) (hr : s'.revision = s.revision)
    (hm : s'.memos = s.memos) : Upholds rules r s s' := by
  refine ⟨hi, hr, fun k p m hrule hk hmk => ?_⟩
  obtain ⟨x, hx, -, hv, -⟩ := hk.exists_memo hrule
  rw [hmk] at hx
  cases hx
  exact ⟨m.verifiedAt, hv, by rw [hm, hmk]⟩

theorem refl (s : Store K V) : Upholds rules r s s := .of_same rfl rfl rfl

theorem trans (h : Upholds rules r s s') (h' : Upholds rules r s' s'') : Upholds rules r s s'' := by
  refine ⟨h'.inputs.trans h.inputs, h'.revision.trans h.revision, fun k p m hrule hk hm => ?_⟩
  obtain ⟨v, -, hm'⟩ := h.memos k p m hrule hk hm
  obtain ⟨w, hw, hm''⟩ := h'.memos k p _ hrule (h.lasts hk) hm'
  exact ⟨w, hw, hm''⟩

end Upholds

/-- A reader by which lasting nodes go on to last, and are read without executing anything. -/
def UpholdsLasting (rules : Rules K V) (r : Nat) (below : (k : K) → Reader K V (Stamped (V k))) :
    Prop :=
  ∀ k s, r ≤ s.revision → Upholds rules r s (below k s).2 ∧ (Lasts rules s r k →
    (below k s).2.executed = s.executed ∧ ∀ node, (below k s).1 = .ok node → node.changedAt ≤ r)

section
variable {below : (k : K) → Reader K V (Stamped (V k))} (hb : UpholdsLasting rules r below)
include hb

theorem UpholdsLasting.unchangedSince (r' : Nat) (ks : List K) (hr : r ≤ s.revision) :
    Upholds rules r s (unchangedSince below r' ks s).2 ∧
      (r ≤ r' → (∀ d ∈ ks, Lasts rules s r d) →
        (Graph.unchangedSince below r' ks s).2.executed = s.executed ∧
        (Graph.unchangedSince below r' ks s).1 ≠ .ok false) := by
  induction ks generalizing s with
  | nil => exact ⟨.refl s, fun _ _ => ⟨rfl, by simp [Graph.unchangedSince]⟩⟩
  | cons d ks ih =>
    obtain ⟨hupholds, hidle⟩ := hb d s hr
    simp only [Graph.unchangedSince]
    generalize below d s = out at hupholds hidle
    obtain ⟨result, s₁⟩ := out
    cases result with
    | error halt =>
      exact ⟨hupholds, fun _ hks => ⟨(hidle (hks d List.mem_cons_self)).1, by simp⟩⟩
    | ok node =>
      by_cases hc : r' < node.changedAt
      · simp only [hc, if_true]
        refine ⟨hupholds, fun hr' hks => ?_⟩
        have hle := (hidle (hks d List.mem_cons_self)).2 node rfl
        omega
      · simp only [hc, if_false]
        obtain ⟨hrest, hidle'⟩ := ih (s := s₁) (by rw [hupholds.revision]; exact hr)
        refine ⟨hupholds.trans hrest, fun hr' hks => ?_⟩
        obtain ⟨hexecuted, hsame⟩ := hidle' hr' fun e he =>
          hupholds.lasts (hks e (List.mem_cons_of_mem d he))
        exact ⟨hexecuted.trans (hidle (hks d List.mem_cons_self)).1, hsame⟩

theorem UpholdsLasting.runWith (p : Program K V α) (hr : r ≤ s.revision) :
    Upholds rules r s (p.runWith below s).2 := by
  induction p generalizing s with
  | done a => exact .refl s
  | fail e => exact .refl s
  | read k next ih =>
    have hnote : Upholds rules r s (s.noteRead k) := .of_same (by simp) (by simp) (by simp)
    obtain ⟨hupholds, -⟩ := hb k (s.noteRead k) (by simpa using hr)
    simp only [Program.runWith]
    generalize below k (s.noteRead k) = out at hupholds
    obtain ⟨result, s₁⟩ := out
    have hread : Upholds rules r s s₁ := hnote.trans hupholds
    have hr₁ : r ≤ s₁.revision := by rw [hread.revision]; exact hr
    cases result with
    | ok node => exact hread.trans (ih (.ok node.value) hr₁)
    | error halt =>
      cases halt with
      | failed e => exact hread.trans (ih (.error e) hr₁)
      | tooDeep => exact hread
  | cancel next ih =>
    have hcancel : Upholds rules r s s.cancelPass := .of_same rfl rfl rfl
    exact hcancel.trans (ih (s := s.cancelPass) hr)

variable [∀ k, BEq (V k)]

/-- An execution touches no memo of a node that lasts. -/
theorem UpholdsLasting.execute {p : Program K V (V k)} {previous : Option (Memo K (V k))}
    (h : Upholds rules r s s') (hk : ¬ Lasts rules s r k) (hr : r ≤ s.revision) :
    Upholds rules r s (execute below k p previous s').2 := by
  simp only [Graph.execute]
  split
  · exact h
  · split
    · exact h
    · have hstart : Upholds rules r s' (s'.start k) := .of_same rfl rfl rfl
      have hrun := hb.runWith p (s := s'.start k) (h.revision ▸ hr)
      simp only [compute]
      generalize p.runWith below (s'.start k) = out at hrun
      obtain ⟨result, s₁⟩ := out
      have hupholds : Upholds rules r s s₁ := h.trans (hstart.trans hrun)
      cases result with
      | error halt => exact hupholds.trans (.of_same rfl rfl rfl)
      | ok v =>
        refine ⟨hupholds.inputs, hupholds.revision, fun d q m hrule hd hm => ?_⟩
        have hne : k ≠ d := by
          rintro rfl
          exact hk hd
        obtain ⟨v, hv, hm'⟩ := hupholds.memos d q m hrule hd hm
        exact ⟨v, hv, (NodeTable.get?_set_of_ne _ hne _).trans hm'⟩

theorem UpholdsLasting.revalidate {p : Program K V (V k)} {m : Memo K (V k)}
    (hk : rules k = .query p) (hm : s.memos.get? k = some m) (hr : r ≤ s.revision) :
    Upholds rules r s (revalidate below k p m s).2 ∧ (Lasts rules s r k →
      (Graph.revalidate below k p m s).2.executed = s.executed ∧
      ∀ node, (Graph.revalidate below k p m s).1 = .ok node → node.changedAt ≤ r) := by
  have hmemo (h : Lasts rules s r k) : m.changedAt ≤ r ∧ r ≤ m.verifiedAt ∧
      ∀ d ∈ m.reads, Lasts rules s r d := by
    obtain ⟨x, hx, hlasts⟩ := h.exists_memo hk
    rw [hm] at hx
    cases hx
    exact hlasts
  have hchanged (h : Lasts rules s r k) (node : Stamped (V k))
      (he : (.ok m.toStamped : Except (Halt K) (Stamped (V k))) = .ok node) :
      node.changedAt ≤ r := by
    cases he
    exact (hmemo h).1
  simp only [Graph.revalidate]
  split
  · exact ⟨.refl s, fun h => ⟨rfl, hchanged h⟩⟩
  · obtain ⟨hupholds, hidle⟩ := hb.unchangedSince m.verifiedAt m.reads hr
    generalize Graph.unchangedSince below m.verifiedAt m.reads s = out at hupholds hidle
    obtain ⟨result, s₁⟩ := out
    cases result with
    | error halt =>
      exact ⟨hupholds, fun h => ⟨(hidle (hmemo h).2.1 (hmemo h).2.2).1, fun _ he => by cases he⟩⟩
    | ok unchanged =>
      cases unchanged with
      | true =>
        refine ⟨⟨hupholds.inputs, hupholds.revision, fun d q x hrule hd hx => ?_⟩, fun h =>
          ⟨(hidle (hmemo h).2.1 (hmemo h).2.2).1, hchanged h⟩⟩
        by_cases hne : k = d
        · subst hne
          rw [hm] at hx
          cases hx
          exact ⟨s₁.revision, by rw [hupholds.revision]; exact hr, NodeTable.get?_set_self _ k _⟩
        · obtain ⟨v, hv, hx'⟩ := hupholds.memos d q x hrule hd hx
          exact ⟨v, hv, (NodeTable.get?_set_of_ne _ hne _).trans hx'⟩
      | false =>
        have hk : ¬ Lasts rules s r k := fun h => (hidle (hmemo h).2.1 (hmemo h).2.2).2 rfl
        exact ⟨hb.execute hupholds hk hr, fun h => absurd h hk⟩

end

variable [∀ k, BEq (V k)]

/-- Whatever is read, lasting nodes go on to last; a lasting node is read from memory. -/
theorem fetch_upholds (rules : Rules K V) (r depth : Nat) :
    UpholdsLasting rules r (fetch rules depth) := by
  have hrest (depth : Nat) (k : K) (s : Store K V) (hk : ∀ p, rules k ≠ .query p) :
      Upholds rules r s (fetch rules depth k s).2 ∧ (Lasts rules s r k →
        (fetch rules depth k s).2.executed = s.executed ∧
        ∀ node, (fetch rules depth k s).1 = .ok node → node.changedAt ≤ r) := by
    cases hrule : rules k with
    | input absent =>
      rw [fetch_input hrule]
      refine ⟨.refl s, fun h => ⟨rfl, fun node he => ?_⟩⟩
      cases he
      exact h.changedAt_input_le hrule
    | refused e =>
      unfold fetch
      rw [hrule]
      exact ⟨.refl s, fun _ => ⟨rfl, fun _ he => by cases he⟩⟩
    | query p => exact absurd hrule (hk p)
  induction depth with
  | zero =>
    intro k s hr
    cases hrule : rules k with
    | query p =>
      unfold fetch
      rw [hrule]
      exact ⟨.refl s, fun _ => ⟨rfl, fun _ he => by cases he⟩⟩
    | _ => exact hrest 0 k s (by simp [hrule])
  | succ depth ih =>
    intro k s hr
    cases hrule : rules k with
    | query p =>
      cases hm : s.memos.get? k with
      | none =>
        have hk : ¬ Lasts rules s r k := by
          intro h
          obtain ⟨m, hm', -⟩ := h.exists_memo hrule
          rw [hm] at hm'
          cases hm'
        rw [fetch_of_unkept hrule depth hm]
        exact ⟨ih.execute (.refl s) hk hr, fun h => absurd h hk⟩
      | some m =>
        rw [fetch_of_kept hrule depth hm]
        exact ih.revalidate hrule hm hr
    | _ => exact hrest (depth + 1) k s (by simp [hrule])

theorem run_upholds (rules : Rules K V) (depth : Nat) (p : Program K V α) (hr : r ≤ s.revision) :
    Upholds rules r s (p.run rules depth s).2 :=
  (fetch_upholds rules r depth).runWith p hr

/-- Where only lasting nodes are read, nothing is executed. -/
theorem Program.Within.run_lasting {T : K → Prop} {p : Program K V α} (hp : p.Within T)
    (hT : ∀ d, T d → Lasts rules s r d) (hr : r ≤ s.revision) (hidle : s.active = [])
    (depth : Nat) : (p.run rules depth s).2.executed = s.executed := by
  induction hp generalizing s with
  | done a => rfl
  | fail e => rfl
  | @read k next hk _ ih =>
    obtain ⟨hupholds, hread⟩ := fetch_upholds rules r depth k s hr
    obtain ⟨hexecuted, -⟩ := hread (hT k hk)
    have hactive := (fetch_active rules depth k s).trans hidle
    simp only [Program.run, Program.runWith, Store.noteRead_of_idle hidle]
    generalize fetch rules depth k s = out at hupholds hexecuted hactive
    obtain ⟨result, s₁⟩ := out
    have hnext (result : Except (Failure K) (V k)) :
        ((next result).run rules depth s₁).2.executed = s.executed :=
      (ih result (fun d hd => hupholds.lasts (hT d hd)) (by rw [hupholds.revision]; exact hr)
        hactive).trans hexecuted
    cases result with
    | ok node => exact hnext (.ok node.value)
    | error halt =>
      cases halt with
      | failed e => exact hnext (.error e)
      | tooDeep => exact hexecuted
  | cancel _ ih =>
    have hcancel : Upholds rules r s s.cancelPass := .of_same rfl rfl rfl
    exact ih (s := s.cancelPass) (fun d hd => hcancel.lasts (hT d hd)) hr hidle

/-- A query that had a memo before a visit kept its value, or one that counts as it, or it changed
now. -/
theorem Visit.kept_or_changed {S ks : List K} (h : Visit rules S ks s s') (hs : Tidy rules s)
    {x : Memo K (V k)} (hx : s.memos.get? k = some x) {node : Stamped (V k)}
    (hn : Holds rules s' k node) :
    node.changedAt = x.changedAt ∧ (node.value = x.value ∨ (x.value == node.value) = true) ∨
      node.changedAt = s.revision ∧ (x.value == node.value) = false := by
  cases hn with
  | input hk _ =>
    obtain ⟨p, hp⟩ := hs.query k x hx
    rw [hk] at hp
    cases hp
  | @memo m hm _ he =>
    subst he
    by_cases hks : k ∈ ks
    · obtain ⟨-, m', hm', -, hchanged⟩ := h.recomputed k hks
      rw [hm] at hm'
      cases hm'
      simp only [Store.changedAt, hx] at hchanged
      split at hchanged
      · next hsame => exact .inl ⟨hchanged, .inr hsame⟩
      · next hdiffers => exact .inr ⟨hchanged, by simpa using hdiffers⟩
    · rcases h.rested_of_not_mem hks with he | ⟨y, hy, -, hy', -⟩
      · rw [hm, hx] at he
        cases he
        exact .inl ⟨rfl, .inl rfl⟩
      · rw [hx] at hy
        cases hy
        rw [hm] at hy'
        cases hy'
        exact .inl ⟨rfl, .inl rfl⟩

section
variable [Node K] {L : Likeness K V} {past : Nat → Inputs K V} {level : K → Nat} {depth : Nat}
  (hO : Orderly rules L)
include hO

/-- What a run demands that ends with a value tracks the value it has now. -/
theorem Sound.run_tracks (hF : ∀ k p, rules k = .query p → p.Relays fun _ => True)
    {p : Program K V α} (hp : p.Relays fun _ => True) (hs : Sound rules L past s)
    (hidle : s.active = []) {a : α} (hf : p.run rules depth s = (.ok a, s')) :
    Sound rules L past s' ∧ Advances rules L past (fun _ => False) s s' ∧
      ∀ d, p.Demands (fun _ => Anything) d → ∃ n v, settle rules (past s.revision) n d = .ok v ∧
        TracksFrom rules L past s' s.revision d := by
  induction p generalizing s with
  | done b =>
    cases hf
    exact ⟨hs, .refl _ _, fun d hd => by cases hd⟩
  | fail e => cases hf
  | read k next ih =>
    obtain ⟨node, s₁, hread, hnext, hrest⟩ := Program.runWith_read hp hf
    rw [Store.noteRead_of_idle hidle] at hread
    have hserved := serves hO (steady_of_relays hF _) depth k s trivial rfl hs
      (Above.of_idle hidle)
    have hidle₁ := (fetch_active rules depth k s).trans hidle
    rw [hread] at hserved hidle₁
    obtain ⟨hs', hadvances, hdemands⟩ := ih (.ok node.value) hnext hserved.sound hidle₁ hrest
    have hrevision : s₁.revision = s.revision := hserved.advances.revision
    rw [hrevision] at hdemands
    refine ⟨hs', (hserved.advances.mono fun _ h => h.elim).trans hadvances, fun d hd => ?_⟩
    cases hd with
    | here _ =>
      have hgives := hserved.ok node rfl
      obtain ⟨-, n, v, hv, -⟩ := hgives
      exact ⟨n, v, hv, hadvances.tracks _ k (Nat.le_of_eq hrevision.symm)
        ((hserved.ok node rfl).tracks hserved.sound hrevision)⟩
    | later h => exact hdemands d (h node.value trivial)
  | cancel q ih =>
    cases hp with
    | cancel hq =>
      obtain ⟨hs', hadvances, hdemands⟩ := ih hq (s := s.cancelPass) (hs.of_same rfl rfl rfl)
        hidle hf
      exact ⟨hs', (Advances.cancelPass _ s).trans hadvances, fun d hd => by cases hd⟩

/-- What a run has read that ends with a value, and nothing was dropped of, lasts since now. -/
theorem AtRest.lasts_of_demanded (hlevel : Leveled rules level) (h : AtRest rules L s)
    {p : Program K V α} (hp : p.Safe (level · < depth) (Unfailing K)) {a : α}
    (hf : p.run rules depth s = (.ok a, s')) (hs' : AtRest rules L s')
    (hd : p.Demands (fun _ => Anything) k) (hi : Intact rules s' k) :
    Lasts rules s' s'.revision k := by
  refine .of_grounded hs'.tidy hs'.dated ?_
  rcases hi k (.self k) with ⟨absent, hk⟩ | ⟨m, hm⟩
  · exact .input hk
  obtain ⟨b, hstrict⟩ := (h.undisturbed hO hlevel hp (by rw [hf])).run_strict
  simp only [hf] at hstrict
  obtain ⟨past, hs⟩ := h.exists_sound
  obtain ⟨hsound, hadvances, hdemands⟩ := Sound.run_tracks hO.strictly (relays_strictly rules)
    p.relays_strict hs.strictly h.idle hstrict
  obtain ⟨n, v, hv, htracks⟩ := hdemands k hd.strict
  refine hs'.grounded_of_intact hlevel hm ?_ hi
  have hle := (hsound.memos k m hm).le_revision
  have hge := (htracks n v hv m hm).1
  have hrevision := hadvances.revision
  omega

end

end SceneCodegen.Graph
