import Mathlib.Data.Option.Basic
import SceneCodegen.Proofs.Graph.Cycles
import SceneCodegen.Proofs.Graph.Respelling

/-!
# Mirrored graphs

A graph mirrors another if its nodes stand for those of the other, keys that count as the same
standing for the same, and its queries make the same reads with like values and end alike. Whatever
is done to a graph can be done to one that mirrors it: the stores stay alike, step by step, and so
do what is read through memos and what is evaluated without them.
-/
namespace SceneCodegen.Graph

/-- Which nodes of one graph stand for those of another, and which values of them are alike. Whether
keys, or values of one node, count as the same is the same in both. -/
structure Mirror (K : Type) (V : K → Type) (K' : Type) (V' : K' → Type) [BEq K] [Coherent K V]
    [∀ k, BEq (V k)] [BEq K'] [Coherent K' V'] [∀ k, BEq (V' k)] where
  key : K → K'
  like : (k : K) → V k → V' (key k) → Prop
  beq_key (k l : K) : (key k == key l) = (k == l)
  beq_like {k : K} {v w : V k} {v' w' : V' (key k)} : like k v v' → like k w w' →
    (v == w) = (v' == w')
  like_carry {k l : K} {v : V k} {v' : V' (key k)} (h : k == l) (h' : key k == key l) :
    like k v v' → like l (carry h v) (carry h' v')
  total (k : K) (v : V k) : ∃ v', like k v v'

namespace Mirror

variable {K : Type} {V : K → Type} {K' : Type} {V' : K' → Type} {α β : Type}

/-- Outcomes that are alike: like values, or failures of one kind. -/
inductive LikeOutcome (R : α → β → Prop) : Except (Halt K) α → Except (Halt K') β → Prop
  | ok {a : α} {b : β} (h : R a b) : LikeOutcome R (.ok a) (.ok b)
  | failed {e : Failure K} {e' : Failure K'} (h : e'.kind = e.kind) :
      LikeOutcome R (.error (.failed e)) (.error (.failed e'))
  | tooDeep : LikeOutcome R (.error .tooDeep) (.error .tooDeep)

namespace LikeOutcome
variable {R : α → β → Prop} {r : Except (Halt K) α} {r' : Except (Halt K') β}

theorem ended_iff (h : LikeOutcome R r r') : Ended r ↔ Ended r' := by
  cases h with
  | ok _ => exact iff_of_true (ended_ok _) (ended_ok _)
  | failed _ => exact iff_of_true (ended_failed _) (ended_failed _)
  | tooDeep => exact iff_of_false not_ended_tooDeep not_ended_tooDeep

theorem ok_right (h : LikeOutcome R r r') {a : α} (hr : r = .ok a) : ∃ b, r' = .ok b ∧ R a b := by
  cases h with
  | ok h =>
    cases hr
    exact ⟨_, rfl, h⟩
  | _ => cases hr

theorem ok_left (h : LikeOutcome R r r') {b : β} (hr : r' = .ok b) : ∃ a, r = .ok a ∧ R a b := by
  cases h with
  | ok h =>
    cases hr
    exact ⟨_, rfl, h⟩
  | _ => cases hr

theorem failed_right (h : LikeOutcome R r r') {e : Failure K} (hr : r = .error (.failed e)) :
    ∃ e' : Failure K', r' = .error (.failed e') ∧ e'.kind = e.kind := by
  cases h with
  | failed h =>
    cases hr
    exact ⟨_, rfl, h⟩
  | _ => cases hr

theorem failed_left (h : LikeOutcome R r r') {e' : Failure K'} (hr : r' = .error (.failed e')) :
    ∃ e : Failure K, r = .error (.failed e) ∧ e'.kind = e.kind := by
  cases h with
  | failed h =>
    cases hr
    exact ⟨_, rfl, h⟩
  | _ => cases hr

end LikeOutcome

variable [BEq K] [Coherent K V] [∀ k, BEq (V k)] [BEq K'] [Coherent K' V'] [∀ k, BEq (V' k)]
  (M : Mirror K V K' V')

theorem contains_key (ks : List K) (k : K) : (ks.map M.key).contains (M.key k) = ks.contains k := by
  induction ks with
  | nil => rfl
  | cons l ks ih => rw [List.map_cons, List.contains_cons, List.contains_cons, ih, M.beq_key]

theorem eraseDups_key (ks : List K) : ks.eraseDups.map M.key = (ks.map M.key).eraseDups := by
  induction hn : ks.length using Nat.strongRecOn generalizing ks with
  | ind n ih =>
    cases ks with
    | nil => rfl
    | cons k ks =>
      have hlt : (ks.filter fun l => !l == k).length < n :=
        hn ▸ Nat.lt_succ_of_le (List.length_filter_le _ ks)
      rw [List.map_cons, List.eraseDups_cons, List.eraseDups_cons, List.map_cons, ih _ hlt _ rfl,
        List.filter_map]
      congr 4
      funext l
      simp only [Function.comp_apply, M.beq_key]

structure LikeStamped (k : K) (x : Stamped (V k)) (y : Stamped (V' (M.key k))) : Prop where
  value : M.like k x.value y.value
  changedAt : y.changedAt = x.changedAt

structure LikeMemo (k : K) (m : Memo K (V k)) (m' : Memo K' (V' (M.key k))) : Prop extends
    LikeStamped M k m.toStamped m'.toStamped where
  verifiedAt : m'.verifiedAt = m.verifiedAt
  reads : m'.reads = m.reads.map M.key

/-- Entries of like content for nodes that stand for one another, in the same order. -/
inductive LikeEntries {F F' : Type → Type} (R : (k : K) → F (V k) → F' (V' (M.key k)) → Prop) :
    List ((k : K) × F (V k)) → List ((k : K') × F' (V' k)) → Prop
  | nil : LikeEntries R [] []
  | cons {k : K} {x : F (V k)} {y : F' (V' (M.key k))} {xs ys} (h : R k x y)
      (hs : LikeEntries R xs ys) : LikeEntries R (⟨k, x⟩ :: xs) (⟨M.key k, y⟩ :: ys)

/-- Queries being computed that have read the same nodes so far. -/
def image (a : Active K) : Active K' := ⟨M.key a.key, a.reads.map M.key⟩

/-- Like values of inputs that stand for one another. -/
def LikeInputs (inputs : Inputs K V) (inputs' : Inputs K' V') : Prop :=
  ∀ k, Option.Rel (M.like k) (inputs k) (inputs' (M.key k))

structure LikeStore (s : Store K V) (s' : Store K' V') : Prop where
  revision : s'.revision = s.revision
  inputs : M.LikeEntries M.LikeStamped s.inputs.entries s'.inputs.entries
  memos : M.LikeEntries M.LikeMemo s.memos.entries s'.memos.entries
  active : s'.active = s.active.map M.image
  token : s'.token = s.token
  recent : s'.recent = s.recent.map M.key

variable {M}

section
variable {F F' : Type → Type} {R : (k : K) → F (V k) → F' (V' (M.key k)) → Prop}
  {xs : List ((k : K) × F (V k))} {ys : List ((k : K') × F' (V' k))}

theorem LikeEntries.find? (h : M.LikeEntries R xs ys)
    (hR : ∀ {k l : K} {x y} (h : k == l) (h' : M.key k == M.key l), R k x y →
      R l (NodeTable.respell h x) (NodeTable.respell h' y)) (k : K) :
    Option.Rel (R k) (NodeTable.find? k xs) (NodeTable.find? (M.key k) ys) := by
  induction h with
  | nil => exact .none
  | @cons l x y xs ys hxy _ ih =>
    by_cases hl : l == k
    · have hl' : M.key l == M.key k := (M.beq_key l k).trans hl
      rw [NodeTable.find?, NodeTable.find?, dif_pos hl, dif_pos hl']
      exact .some (hR hl hl' hxy)
    · have hl' : ¬ (M.key l == M.key k) := by rwa [M.beq_key]
      rw [NodeTable.find?, NodeTable.find?, dif_neg hl, dif_neg hl']
      exact ih

theorem LikeEntries.replace (h : M.LikeEntries R xs ys) {k : K} {x : F (V k)}
    {y : F' (V' (M.key k))} (hxy : R k x y) :
    M.LikeEntries R (NodeTable.replace k x xs) (NodeTable.replace (M.key k) y ys) := by
  induction h with
  | nil => exact .cons hxy .nil
  | @cons l z w xs ys hzw hs ih =>
    simp only [NodeTable.replace, M.beq_key]
    split
    · exact .cons hxy hs
    · exact .cons hzw ih

theorem LikeEntries.without (h : M.LikeEntries R xs ys) (ks : List K) :
    M.LikeEntries R (xs.filter fun x => !ks.contains x.1)
      (ys.filter fun y => !(ks.map M.key).contains y.1) := by
  induction h with
  | nil => exact .nil
  | @cons l x y xs ys hxy hs ih =>
    simp only [List.filter_cons, contains_key]
    split
    · exact .cons hxy ih
    · exact ih

end

section
variable {s : Store K V} {s' : Store K' V'}

namespace LikeStore
variable (h : M.LikeStore s s')
include h

theorem memo? (k : K) :
    Option.Rel (M.LikeMemo k) (s.memos.get? k) (s'.memos.get? (M.key k)) := by
  refine h.memos.find? (fun hkl hkl' hm => ?_) k
  rw [respell_memo, respell_memo]
  exact ⟨⟨M.like_carry hkl hkl' hm.value, hm.changedAt⟩, hm.verifiedAt, hm.reads⟩

theorem entry? (k : K) :
    Option.Rel (M.LikeStamped k) (s.inputs.get? k) (s'.inputs.get? (M.key k)) := by
  refine h.inputs.find? (fun hkl hkl' hx => ?_) k
  rw [respell_stamped, respell_stamped]
  exact ⟨M.like_carry hkl hkl' hx.value, hx.changedAt⟩

theorem input? : M.LikeInputs s.input? s'.input? := by
  intro k
  have hk := h.entry? k
  simp only [Store.input?]
  generalize s.inputs.get? k = x, s'.inputs.get? (M.key k) = y at hk
  cases hk with
  | none => exact .none
  | some hxy => exact .some hxy.value

theorem isComputing (k : K) : s'.isComputing (M.key k) = s.isComputing k := by
  simp only [Store.isComputing, h.active, List.any_map]
  congr 1
  funext a
  exact M.beq_key a.key k

theorem cancelled? : s'.cancelled? = s.cancelled? := by
  simp only [Store.cancelled?, h.token]

theorem currentReads : s'.currentReads = s.currentReads.map M.key := by
  simp only [Store.currentReads, h.active]
  cases s.active with
  | nil => rfl
  | cons a rest =>
    simp only [List.map_cons, List.head?_cons, Option.map_some, Option.getD_some, image]
    rw [eraseDups_key, List.map_reverse]

theorem changedAt {k : K} {previous : Option (Memo K (V k))}
    {previous' : Option (Memo K' (V' (M.key k)))}
    (hp : Option.Rel (M.LikeMemo k) previous previous') {v : V k} {w : V' (M.key k)}
    (hv : M.like k v w) : s'.changedAt previous' w = s.changedAt previous v := by
  cases hp with
  | none => exact h.revision
  | some hm => simp only [Store.changedAt, M.beq_like hm.value hv, hm.changedAt, h.revision]

theorem noteRead (k : K) : M.LikeStore (s.noteRead k) (s'.noteRead (M.key k)) := by
  simp only [Store.noteRead, h.active]
  cases hs : s.active with
  | nil => exact h
  | cons a rest => exact { h with active := rfl }

theorem cancelPass : M.LikeStore s.cancelPass s'.cancelPass :=
  { h with token := by simp only [Store.cancelPass, h.token] }

theorem start (k : K) : M.LikeStore (s.start k) (s'.start (M.key k)) :=
  { h with
    active := by simp only [Store.start, h.active]; rfl
    token := by simp only [Store.start, h.token] }

theorem finish : M.LikeStore s.finish s'.finish :=
  { h with active := by simp only [Store.finish, h.active, List.map_drop] }

theorem keep {k : K} {m : Memo K (V k)} {m' : Memo K' (V' (M.key k))} (hm : M.LikeMemo k m m') :
    M.LikeStore (s.keep k m) (s'.keep (M.key k) m') :=
  { h with
    memos := h.memos.replace hm
    recent := by simp only [Store.keep, h.recent]; rfl }

theorem verify {k : K} {m : Memo K (V k)} {m' : Memo K' (V' (M.key k))} (hm : M.LikeMemo k m m') :
    M.LikeStore (s.verify k m) (s'.verify (M.key k) m') :=
  { h with memos := h.memos.replace { hm with verifiedAt := h.revision } }

theorem beginPass (token : Option Token) : M.LikeStore (s.beginPass token) (s'.beginPass token) :=
  { h with token := rfl, recent := rfl }

theorem endPass (wasCancelled : Bool) :
    M.LikeStore (s.endPass wasCancelled) (s'.endPass wasCancelled) := by
  refine { h with token := rfl, recent := rfl, memos := ?_ }
  cases wasCancelled with
  | false => exact h.memos
  | true =>
    simp only [Store.endPass, if_true, h.recent]
    exact h.memos.without s.recent

end LikeStore

/-- Like values can be set on either side, and change the inputs on both or on neither. -/
theorem LikeStore.exists_setInput (h : M.LikeStore s s') (k : K) (v : V k) :
    ∃ w, M.LikeStore (s.setInput k v).2 (s'.setInput (M.key k) w).2 := by
  obtain ⟨w, hw⟩ := M.total k v
  refine ⟨w, ?_⟩
  have hbusy : s'.active.isEmpty = s.active.isEmpty := by
    rw [h.active, List.isEmpty_map]
  have hsame : (s'.input? (M.key k)).any (· == w) = (s.input? k).any (· == v) := by
    have hk : Option.Rel (M.like k) (s.input? k) (s'.input? (M.key k)) := h.input? k
    generalize s.input? k = x, s'.input? (M.key k) = y at hk
    cases hk with
    | none => rfl
    | some hxy => exact (M.beq_like hxy hw).symm
  simp only [Store.setInput, hbusy, hsame]
  split
  · exact h
  · split
    · exact h
    · have hx : M.LikeStamped k ⟨v, s.revision + 1⟩ ⟨w, s'.revision + 1⟩ :=
        ⟨hw, by rw [h.revision]⟩
      exact { h with revision := by rw [h.revision], inputs := h.inputs.replace hx }

end

variable (M) in
/-- Programs that read nodes that stand for one another, go on alike after like values and after
failures of one kind, and end alike. -/
inductive LikeProgram (R : α → β → Prop) : Program K V α → Program K' V' β → Prop
  | done {a : α} {b : β} (h : R a b) : LikeProgram R (.done a) (.done b)
  | fail {e : Failure K} {e' : Failure K'} (h : e'.kind = e.kind) :
      LikeProgram R (.fail e) (.fail e')
  | read {k : K} {next : Except (Failure K) (V k) → Program K V α}
      {next' : Except (Failure K') (V' (M.key k)) → Program K' V' β}
      (ok : ∀ v w, M.like k v w → LikeProgram R (next (.ok v)) (next' (.ok w)))
      (error : ∀ e e', Failure.kind e' = Failure.kind e →
        LikeProgram R (next (.error e)) (next' (.error e'))) :
      LikeProgram R (.read k next) (.read (M.key k) next')
  | cancel {p : Program K V α} {q : Program K' V' β} (h : LikeProgram R p q) :
      LikeProgram R (.cancel p) (.cancel q)

variable (M) in
/-- Reads that end alike and leave like stores. -/
def LikeRun (R : α → β → Prop) (out : Except (Halt K) α × Store K V)
    (out' : Except (Halt K') β × Store K' V') : Prop :=
  LikeOutcome R out.1 out'.1 ∧ M.LikeStore out.2 out'.2

variable (M) in
def LikeReader (below : (k : K) → Reader K V (Stamped (V k)))
    (below' : (k : K') → Reader K' V' (Stamped (V' k))) : Prop :=
  ∀ k s s', M.LikeStore s s' → M.LikeRun (M.LikeStamped k) (below k s) (below' (M.key k) s')

section
variable {below : (k : K) → Reader K V (Stamped (V k))}
  {below' : (k : K') → Reader K' V' (Stamped (V' k))} (hb : M.LikeReader below below')
  {s : Store K V} {s' : Store K' V'}
include hb

theorem LikeReader.unchangedSince (r : Nat) (ks : List K) (h : M.LikeStore s s') :
    M.LikeRun Eq (unchangedSince below r ks s)
      (Graph.unchangedSince below' r (ks.map M.key) s') := by
  induction ks generalizing s s' with
  | nil => exact ⟨.ok rfl, h⟩
  | cons k ks ih =>
    obtain ⟨hk, hs⟩ := hb k s s' h
    simp only [List.map_cons, Graph.unchangedSince]
    generalize below k s = out, below' (M.key k) s' = out' at hk hs
    obtain ⟨result, t⟩ := out
    obtain ⟨result', t'⟩ := out'
    cases hk with
    | @ok node node' hnode =>
      simp only [hnode.changedAt]
      split
      · exact ⟨.ok rfl, hs⟩
      · exact ih hs
    | failed he => exact ⟨.failed he, hs⟩
    | tooDeep => exact ⟨.tooDeep, hs⟩

theorem LikeReader.runWith {R : α → β → Prop} {p : Program K V α} {q : Program K' V' β}
    (hp : M.LikeProgram R p q) (h : M.LikeStore s s') :
    M.LikeRun R (p.runWith below s) (q.runWith below' s') := by
  induction hp generalizing s s' with
  | done hR => exact ⟨.ok hR, h⟩
  | fail he => exact ⟨.failed he, h⟩
  | @read k next next' _ _ ihok iherror =>
    obtain ⟨hk, hs⟩ := hb k _ _ (h.noteRead k)
    simp only [Program.runWith]
    generalize below k (s.noteRead k) = out at hk hs
    generalize below' (M.key k) (s'.noteRead (M.key k)) = out' at hk hs
    obtain ⟨result, t⟩ := out
    obtain ⟨result', t'⟩ := out'
    cases hk with
    | ok hnode => exact ihok _ _ hnode.value hs
    | failed he => exact iherror _ _ he hs
    | tooDeep => exact ⟨.tooDeep, hs⟩
  | cancel _ ih => exact ih h.cancelPass

/-- What a program does from outside can be done by one that makes the reads it comes to make. -/
theorem LikeReader.exists_runWith (p : Program K V α) (h : M.LikeStore s s') :
    ∃ q : Program K' V' Unit, M.LikeStore (p.runWith below s).2 (q.runWith below' s').2 := by
  induction p generalizing s s' with
  | done a => exact ⟨.done (), h⟩
  | fail e => exact ⟨.done (), h⟩
  | read k next ih =>
    obtain ⟨hk, hs⟩ := hb k _ _ (h.noteRead k)
    have hnext (r : Except (Failure K) (V k)) {t : Store K V} {t' : Store K' V'}
        (ht : M.LikeStore t t') : ∃ q : Program K' V' Unit,
        M.LikeStore ((next r).runWith below t).2 (q.runWith below' t').2 := ih r ht
    simp only [Program.runWith]
    generalize hout : below k (s.noteRead k) = out at hk hs
    generalize hout' : below' (M.key k) (s'.noteRead (M.key k)) = out' at hk hs
    obtain ⟨result, t⟩ := out
    obtain ⟨result', t'⟩ := out'
    cases hk with
    | @ok node node' hnode =>
      obtain ⟨q, hq⟩ := hnext (.ok node.value) hs
      exact ⟨.read (M.key k) fun _ => q, by simpa only [Program.runWith, hout'] using hq⟩
    | @failed e e' he =>
      obtain ⟨q, hq⟩ := hnext (.error e) hs
      exact ⟨.read (M.key k) fun _ => q, by simpa only [Program.runWith, hout'] using hq⟩
    | tooDeep =>
      exact ⟨.read (M.key k) fun _ => .done (), by simpa only [Program.runWith, hout'] using hs⟩
  | cancel next ih =>
    obtain ⟨q, hq⟩ := ih h.cancelPass
    exact ⟨.cancel q, hq⟩

variable {k : K} {p : Program K V (V k)} {q : Program K' V' (V' (M.key k))}
  (hp : M.LikeProgram (M.like k) p q)
include hp

theorem LikeReader.execute {previous : Option (Memo K (V k))}
    {previous' : Option (Memo K' (V' (M.key k)))}
    (hprevious : Option.Rel (M.LikeMemo k) previous previous') (h : M.LikeStore s s') :
    M.LikeRun (M.LikeStamped k) (execute below k p previous s)
      (Graph.execute below' (M.key k) q previous' s') := by
  simp only [Graph.execute, h.isComputing, h.cancelled?]
  split
  · exact ⟨.failed rfl, h⟩
  · split
    · exact ⟨.failed rfl, h⟩
    · obtain ⟨hr, hs⟩ := hb.runWith hp (h.start k)
      simp only [compute]
      generalize p.runWith below (s.start k) = out, q.runWith below' (s'.start (M.key k)) = out'
        at hr hs
      obtain ⟨result, t⟩ := out
      obtain ⟨result', t'⟩ := out'
      cases hr with
      | ok hv =>
        have hstamped : M.LikeStamped k ⟨_, t.changedAt previous _⟩ ⟨_, t'.changedAt previous' _⟩ :=
          ⟨hv, hs.changedAt hprevious hv⟩
        exact ⟨.ok hstamped, hs.finish.keep ⟨hstamped, hs.revision, hs.currentReads⟩⟩
      | failed he => exact ⟨.failed he, hs.finish⟩
      | tooDeep => exact ⟨.tooDeep, hs.finish⟩

theorem LikeReader.revalidate {m : Memo K (V k)} {m' : Memo K' (V' (M.key k))}
    (hm : M.LikeMemo k m m') (h : M.LikeStore s s') :
    M.LikeRun (M.LikeStamped k) (revalidate below k p m s)
      (Graph.revalidate below' (M.key k) q m' s') := by
  simp only [Graph.revalidate, hm.verifiedAt, h.revision, hm.reads]
  split
  · exact ⟨.ok hm.toLikeStamped, h⟩
  · obtain ⟨hr, hs⟩ := hb.unchangedSince m.verifiedAt m.reads h
    generalize Graph.unchangedSince below m.verifiedAt m.reads s = out,
      Graph.unchangedSince below' m.verifiedAt (m.reads.map M.key) s' = out' at hr hs
    obtain ⟨result, t⟩ := out
    obtain ⟨result', t'⟩ := out'
    cases hr with
    | @ok unchanged _ heq =>
      subst heq
      cases unchanged with
      | true => exact ⟨.ok hm.toLikeStamped, hs.verify hm⟩
      | false => exact hb.execute hp (.some hm) hs
    | failed he => exact ⟨.failed he, hs⟩
    | tooDeep => exact ⟨.tooDeep, hs⟩

end

variable (M) in
/-- Keys that stand for one another are both inputs, both queries or both refused. -/
inductive LikeRule (k : K) : Rule K V (V k) → Rule K' V' (V' (M.key k)) → Prop
  | input {absent : V k} {absent' : V' (M.key k)} (h : M.like k absent absent') :
      LikeRule k (.input absent) (.input absent')
  | query {p : Program K V (V k)} {q : Program K' V' (V' (M.key k))}
      (h : M.LikeProgram (M.like k) p q) : LikeRule k (.query p) (.query q)
  | refused {e : Failure K} {e' : Failure K'} (h : e'.kind = e.kind) :
      LikeRule k (.refused e) (.refused e')

variable (M) in
def LikeRules (rules : Rules K V) (rules' : Rules K' V') : Prop :=
  ∀ k, M.LikeRule k (rules k) (rules' (M.key k))

theorem LikeRules.query_right {rules : Rules K V} {rules' : Rules K' V'}
    (h : M.LikeRules rules rules') {k : K} {p : Program K V (V k)} (hk : rules k = .query p) :
    ∃ q, rules' (M.key k) = .query q ∧ M.LikeProgram (M.like k) p q := by
  have hrule := h k
  rw [hk] at hrule
  generalize rules' (M.key k) = rule' at hrule
  cases hrule with
  | query hp => exact ⟨_, rfl, hp⟩

theorem LikeRules.query_left {rules : Rules K V} {rules' : Rules K' V'}
    (h : M.LikeRules rules rules') {k : K} {q : Program K' V' (V' (M.key k))}
    (hk : rules' (M.key k) = .query q) :
    ∃ p, rules k = .query p ∧ M.LikeProgram (M.like k) p q := by
  have hrule := h k
  rw [hk] at hrule
  generalize rules k = rule at hrule
  cases hrule with
  | query hp => exact ⟨_, rfl, hp⟩

theorem LikeProgram.evalWith {R : α → β → Prop} {p : Program K V α} {q : Program K' V' β}
    (hp : M.LikeProgram R p q) {below : (k : K) → Except (Halt K) (V k)}
    {below' : (k : K') → Except (Halt K') (V' k)}
    (hb : ∀ k, LikeOutcome (M.like k) (below k) (below' (M.key k))) :
    LikeOutcome R (p.evalWith below) (q.evalWith below') := by
  induction hp with
  | done hR => exact .ok hR
  | fail he => exact .failed he
  | @read k next next' _ _ ihok iherror =>
    have hk := hb k
    simp only [Program.evalWith]
    generalize below k = r, below' (M.key k) = r' at hk
    cases hk with
    | ok hv => exact ihok _ _ hv
    | failed he => exact iherror _ _ he
    | tooDeep => exact .tooDeep
  | cancel _ ih => exact ih

theorem LikeProgram.settleWith {R : α → β → Prop} {p : Program K V α} {q : Program K' V' β}
    (hp : M.LikeProgram R p q) {below : (k : K) → Except (Halt K) (V k)}
    {below' : (k : K') → Except (Halt K') (V' k)}
    (hb : ∀ k, LikeOutcome (M.like k) (below k) (below' (M.key k))) :
    LikeOutcome R ((p.settleWith below).map Prod.snd) ((q.settleWith below').map Prod.snd) := by
  induction hp with
  | done hR => exact .ok hR
  | fail he => exact .failed he
  | @read k next next' _ _ ihok _ =>
    have hk := hb k
    simp only [Program.settleWith]
    generalize below k = r, below' (M.key k) = r' at hk
    cases hk with
    | @ok v w hv =>
      have hnext := ihok v w hv
      dsimp only
      generalize (next (.ok v)).settleWith below = r, (next' (.ok w)).settleWith below' = r'
        at hnext
      -- the nodes read do not show in the end
      cases r <;> cases r' <;> exact hnext
    | failed he => exact .failed he
    | tooDeep => exact .tooDeep
  | cancel _ ih => exact ih

theorem like_getD {k : K} {x : Option (V k)} {y : Option (V' (M.key k))}
    (h : Option.Rel (M.like k) x y) {absent : V k} {absent' : V' (M.key k)}
    (ha : M.like k absent absent') : M.like k (x.getD absent) (y.getD absent') := by
  cases h with
  | none => exact ha
  | some hxy => exact hxy

variable {rules : Rules K V} {rules' : Rules K' V'}

namespace LikeRules
variable (hrules : M.LikeRules rules rules')
include hrules

theorem fetch (depth : Nat) : M.LikeReader (fetch rules depth) (Graph.fetch rules' depth) := by
  have hinput {k : K} {absent : V k} {absent' : V' (M.key k)} {s : Store K V} {s' : Store K' V'}
      (ha : M.like k absent absent') (h : M.LikeStore s s') :
      M.LikeStamped k ((s.inputs.get? k).getD ⟨absent, 0⟩)
        ((s'.inputs.get? (M.key k)).getD ⟨absent', 0⟩) := by
    have hk := h.entry? k
    generalize s.inputs.get? k = x, s'.inputs.get? (M.key k) = y at hk
    cases hk with
    | none => exact ⟨ha, rfl⟩
    | some hxy => exact hxy
  induction depth with
  | zero =>
    intro k s s' h
    have hk := hrules k
    unfold Graph.fetch
    generalize rules k = rule, rules' (M.key k) = rule' at hk
    cases hk with
    | input ha => exact ⟨.ok (hinput ha h), h⟩
    | query _ => exact ⟨.tooDeep, h⟩
    | refused he => exact ⟨.failed he, h⟩
  | succ depth ih =>
    intro k s s' h
    have hk := hrules k
    unfold Graph.fetch
    generalize rules k = rule, rules' (M.key k) = rule' at hk
    cases hk with
    | input ha => exact ⟨.ok (hinput ha h), h⟩
    | query hp =>
      have hm := h.memo? k
      simp only
      generalize s.memos.get? k = m, s'.memos.get? (M.key k) = m' at hm
      cases hm with
      | none => exact ih.execute hp .none h
      | some hm => exact ih.revalidate hp hm h
    | refused he => exact ⟨.failed he, h⟩

/-- A program run on like stores ends alike. -/
theorem run_get (depth : Nat) (k : K) {s : Store K V} {s' : Store K' V'} (h : M.LikeStore s s') :
    M.LikeRun (M.like k) ((Program.get k).run rules depth s)
      ((Program.get (M.key k)).run rules' depth s') :=
  (hrules.fetch depth).runWith (.read (fun _ _ hv => .done hv) fun _ _ he => .fail he) h

/-- Whatever is done to a graph from outside, like stores can be kept. -/
theorem exists_follow (history : List (Move K V)) {s : Store K V} {s' : Store K' V'}
    (h : M.LikeStore s s') :
    ∃ history', M.LikeStore (follow rules history s) (follow rules' history' s') := by
  induction history generalizing s s' with
  | nil => exact ⟨[], h⟩
  | cons move history ih =>
    obtain ⟨move', hmove⟩ : ∃ move' : Move K' V',
        M.LikeStore (move.apply rules s) (move'.apply rules' s') := by
      cases move with
      | set k v =>
        obtain ⟨w, hw⟩ := h.exists_setInput k v
        exact ⟨.set (M.key k) w, hw⟩
      | run depth program =>
        obtain ⟨q, hq⟩ := (hrules.fetch depth).exists_runWith program h
        exact ⟨.run depth q, hq⟩
      | enter token => exact ⟨.enter token, h.beginPass token⟩
      | leave wasCancelled => exact ⟨.leave wasCancelled, h.endPass wasCancelled⟩
    obtain ⟨history', hhistory⟩ := ih hmove
    exact ⟨move' :: history', hhistory⟩

theorem exists_reach (history : List (Move K V)) :
    ∃ history', M.LikeStore (reach rules history) (reach rules' history') :=
  hrules.exists_follow history ⟨rfl, .nil, .nil, rfl, rfl, rfl⟩

variable {inputs : Inputs K V} {inputs' : Inputs K' V'}
  (hinputs : M.LikeInputs inputs inputs')

include hinputs

theorem scratch (n : Nat) (computing : List K) (k : K) :
    LikeOutcome (M.like k) (scratch rules inputs n computing k)
      (Graph.scratch rules' inputs' n (computing.map M.key) (M.key k)) := by
  induction n generalizing computing k with
  | zero =>
    have hk := hrules k
    unfold Graph.scratch
    generalize rules k = rule, rules' (M.key k) = rule' at hk
    cases hk with
    | input ha => exact .ok (like_getD (hinputs k) ha)
    | query _ =>
      simp only [contains_key]
      split
      · exact .failed rfl
      · exact .tooDeep
    | refused he => exact .failed he
  | succ n ih =>
    have hk := hrules k
    unfold Graph.scratch
    generalize rules k = rule, rules' (M.key k) = rule' at hk
    cases hk with
    | input ha => exact .ok (like_getD (hinputs k) ha)
    | query hp =>
      simp only [contains_key]
      split
      · exact .failed rfl
      · exact hp.evalWith fun d => ih (k :: computing) d
    | refused he => exact .failed he

theorem settle (n : Nat) (k : K) :
    LikeOutcome (M.like k) (settle rules inputs n k) (Graph.settle rules' inputs' n (M.key k)) := by
  induction n generalizing k with
  | zero =>
    have hk := hrules k
    unfold Graph.settle
    generalize rules k = rule, rules' (M.key k) = rule' at hk
    cases hk with
    | input ha => exact .ok (like_getD (hinputs k) ha)
    | query _ => exact .tooDeep
    | refused he => exact .failed he
  | succ n ih =>
    have hk := hrules k
    unfold Graph.settle
    generalize rules k = rule, rules' (M.key k) = rule' at hk
    cases hk with
    | input ha => exact .ok (like_getD (hinputs k) ha)
    | query hp => exact hp.settleWith ih
    | refused he => exact .failed he

/-- What a program comes to after some reads, the one that mirrors it comes to after theirs. -/
theorem reaches {R : α → β → Prop} {p q : Program K V α} {p' : Program K' V' β} {ks : List K}
    (h : p.Reaches rules inputs ks q) (hp : M.LikeProgram R p p') :
    ∃ q', p'.Reaches rules' inputs' (ks.map M.key) q' ∧ M.LikeProgram R q q' := by
  induction h generalizing p' with
  | here p => exact ⟨p', .here p', hp⟩
  | @read k next n v ks q hv _ ih =>
    cases hp with
    | read hok _ =>
      obtain ⟨w, hw, hvw⟩ := (hrules.settle hinputs n k).ok_right hv
      obtain ⟨q', hq', hlike⟩ := ih (hok v w hvw)
      exact ⟨q', .read hw hq', hlike⟩
  | cancel _ ih =>
    cases hp with
    | cancel hp =>
      obtain ⟨q', hq', hlike⟩ := ih hp
      exact ⟨q', .cancel hq', hlike⟩

/-- What the program that mirrors another comes to, that other comes to as well. -/
theorem exists_reaches {R : α → β → Prop} {p : Program K V α} {p' q' : Program K' V' β}
    {ks' : List K'} (h : p'.Reaches rules' inputs' ks' q') (hp : M.LikeProgram R p p') :
    ∃ ks q, p.Reaches rules inputs ks q ∧ M.LikeProgram R q q' := by
  induction h generalizing p with
  | here p' => exact ⟨[], p, .here p, hp⟩
  | @read k' next' n v' ks' q' hv _ ih =>
    cases hp with
    | @read k next _ hok _ =>
      obtain ⟨v, hw, hvw⟩ := (hrules.settle hinputs n k).ok_left hv
      obtain ⟨ks, q, hq, hlike⟩ := ih (hok v v' hvw)
      exact ⟨k :: ks, q, .read hw hq, hlike⟩
  | cancel _ ih =>
    cases hp with
    | cancel hp =>
      obtain ⟨ks, q, hq, hlike⟩ := ih hp
      exact ⟨ks, q, .cancel hq, hlike⟩

theorem reenters {computing : List K} {k : K} (h : Reenters rules inputs computing k) :
    Reenters rules' inputs' (computing.map M.key) (M.key k) := by
  induction h with
  | @here computing k p hk hc =>
    obtain ⟨p', hk', -⟩ := hrules.query_right hk
    exact .here hk' (by rwa [contains_key])
  | @read computing k d p ks next hk hc hp _ ih =>
    obtain ⟨p', hk', hlike⟩ := hrules.query_right hk
    obtain ⟨q', hq', hnext⟩ := hrules.reaches hinputs hp hlike
    cases hnext with
    | read _ _ => exact .read hk' (by rwa [contains_key]) hq' ih

theorem of_reenters {computing : List K} {k : K}
    (h : Reenters rules' inputs' (computing.map M.key) (M.key k)) :
    Reenters rules inputs computing k := by
  generalize hc' : computing.map M.key = computing', hk' : M.key k = k' at h
  induction h generalizing computing k with
  | @here computing' k' p' hrule' hc =>
    subst hc' hk'
    obtain ⟨p, hk, -⟩ := hrules.query_left hrule'
    exact .here hk (by rwa [contains_key] at hc)
  | @read computing' k' d' p' ks' next' hrule' hc hp _ ih =>
    subst hc' hk'
    obtain ⟨p, hk, hlike⟩ := hrules.query_left hrule'
    obtain ⟨ks, q, hq, hnext⟩ := hrules.exists_reaches hinputs hp hlike
    cases hnext with
    | read _ _ => exact .read hk (by rwa [contains_key] at hc) hq (ih rfl rfl)

end LikeRules
end Mirror
end SceneCodegen.Graph
