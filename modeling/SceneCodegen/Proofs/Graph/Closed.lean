import SceneCodegen.Proofs.Graph.Lasting

/-!
# Closed sets of nodes

A set of nodes whose queries read nodes of the set only. Whatever else a graph reads, fails at and
drops, such a set is as it would be in a graph of its own, in which nothing else is kept.
-/
namespace SceneCodegen.Graph

variable {K : Type} {V : K → Type} {α : Type} {T : K → Prop} [DecidablePred T]

namespace NodeTable
variable [BEq K] [LawfulBEq K] {F : Type → Type}

omit [BEq K] [LawfulBEq K] in
def only (T : K → Prop) [DecidablePred T] (t : NodeTable K V F) : NodeTable K V F :=
  ⟨t.entries.filter fun entry => T entry.1⟩

theorem find?_only (k : K) (entries : List ((k : K) × F (V k))) :
    find? k (entries.filter fun entry => T entry.1) = if T k then find? k entries else none := by
  induction entries with
  | nil => simp [find?]
  | cons entry rest ih =>
    rcases entry with ⟨l, y⟩
    by_cases hT : T l
    · rw [List.filter_cons_of_pos (by simpa using hT)]
      by_cases hl : l == k
      · obtain rfl := eq_of_beq hl
        simp [find?, hT]
      · simp only [find?, hl, Bool.false_eq_true, dite_false, ih]
    · rw [List.filter_cons_of_neg (by simpa using hT), ih]
      by_cases hl : l == k
      · obtain rfl := eq_of_beq hl
        rw [if_neg hT, if_neg hT]
      · simp only [find?, hl, Bool.false_eq_true, dite_false]

@[simp] theorem get?_only (t : NodeTable K V F) (k : K) :
    (t.only T).get? k = if T k then t.get? k else none := find?_only k t.entries

theorem only_set {k : K} (hk : T k) (t : NodeTable K V F) (x : F (V k)) :
    (t.set k x).only T = (t.only T).set k x := by
  have hreplace (entries : List ((k : K) × F (V k))) :
      (replace k x entries).filter (fun entry => T entry.1) =
        replace k x (entries.filter fun entry => T entry.1) := by
    induction entries with
    | nil => simp [replace, hk]
    | cons entry rest ih =>
      rcases entry with ⟨l, y⟩
      by_cases hl : l == k
      · obtain rfl := eq_of_beq hl
        simp [replace, hk]
      · by_cases hT : T l <;> simp [replace, hl, hT, ih]
  exact congrArg NodeTable.mk (hreplace t.entries)

end NodeTable

/-- The rules of the nodes of a set; all other nodes are inputs. -/
noncomputable def onlyRules (T : K → Prop) [DecidablePred T] [∀ k, Nonempty (V k)]
    (rules : Rules K V) : Rules K V :=
  fun k => if T k then rules k else .input (Classical.choice inferInstance)

theorem onlyRules_of_mem [∀ k, Nonempty (V k)] {rules : Rules K V} {k : K} (hk : T k) :
    onlyRules T rules k = rules k := if_pos hk

theorem mem_of_onlyRules_query [∀ k, Nonempty (V k)] {rules : Rules K V} {k : K}
    {p : Program K V (V k)} (h : onlyRules T rules k = .query p) : T k ∧ rules k = .query p := by
  by_cases hk : T k
  · rw [onlyRules_of_mem hk] at h
    exact ⟨hk, h⟩
  · rw [onlyRules, if_neg hk] at h
    cases h

namespace Store

/-- A store without what is kept of the nodes beyond a set. -/
def only (T : K → Prop) [DecidablePred T] (s : Store K V) : Store K V :=
  { s with
    memos := s.memos.only T
    active := s.active.filter fun a => T a.key }

/-- The innermost query being computed, if there is one, is of a set. -/
def Inside (T : K → Prop) (s : Store K V) : Prop := ∀ a, s.active.head? = some a → T a.key

theorem only_noteRead {s : Store K V} (h : s.Inside T) (d : K) :
    (s.noteRead d).only T = (s.only T).noteRead d := by
  unfold noteRead
  cases ha : s.active with
  | nil => simp [only, ha]
  | cons a rest =>
    have hT : T a.key := h a (by simp [ha])
    simp [only, ha, hT]

theorem only_start {k : K} (hk : T k) (s : Store K V) :
    (s.start k).only T = (s.only T).start k := by
  simp [start, only, hk]

theorem only_finish {s : Store K V} {a : Active K} {rest : List (Active K)}
    (ha : s.active = a :: rest) (hk : T a.key) : s.finish.only T = (s.only T).finish := by
  simp [finish, only, ha, hk]

theorem only_isComputing [BEq K] [LawfulBEq K] {k : K} (hk : T k) (s : Store K V) :
    (s.only T).isComputing k = s.isComputing k := by
  simp only [isComputing, only, List.any_filter]
  congr 1
  funext a
  cases ha : a.key == k with
  | false => simp
  | true => simp [eq_of_beq ha, hk]

theorem only_currentReads [BEq K] {s : Store K V} {a : Active K} {rest : List (Active K)}
    (ha : s.active = a :: rest) (hk : T a.key) : (s.only T).currentReads = s.currentReads := by
  simp [currentReads, only, ha, hk]

variable [BEq K] [LawfulBEq K]

theorem only_keep {k : K} (hk : T k) (m : Memo K (V k)) (s : Store K V) :
    (s.keep k m).only T = (s.only T).keep k m := by
  simp only [keep, only, NodeTable.only_set hk]

theorem only_verify {k : K} (hk : T k) (m : Memo K (V k)) (s : Store K V) :
    (s.verify k m).only T = (s.only T).verify k m := by
  simp only [verify, only, NodeTable.only_set hk]

end Store

omit [DecidablePred T] in
/-- The queries of a set read nodes of the set only. -/
def IsClosed (rules : Rules K V) (T : K → Prop) : Prop :=
  ∀ k p, T k → rules k = .query p → p.Within T

variable [BEq K] [LawfulBEq K] {s s' : Store K V} {k : K}

omit [DecidablePred T] in
/-- What was read for the nodes of a set is of the set. -/
structure Shut (T : K → Prop) (s : Store K V) : Prop where
  memos : ∀ k m, T k → s.memos.get? k = some m → ∀ d ∈ m.reads, T d
  active : ∀ a ∈ s.active, T a.key → ∀ d ∈ a.reads, T d

namespace Shut

omit [DecidablePred T] in
theorem of_same (h : Shut T s) (hm : s'.memos = s.memos)
    (ha : ∀ a ∈ s'.active, T a.key → ∀ d ∈ a.reads, T d) : Shut T s' :=
  ⟨by rw [hm]; exact h.memos, ha⟩

omit [DecidablePred T] in
theorem noteRead (h : Shut T s) {d : K} (hd : T d) : Shut T (s.noteRead d) := by
  refine h.of_same (by simp) ?_
  unfold Store.noteRead
  cases ha : s.active with
  | nil => simp [ha]
  | cons a rest =>
    have hactive := h.active
    rw [ha] at hactive
    intro b hb hT e he
    rcases List.mem_cons.mp hb with rfl | hb
    · rcases List.mem_cons.mp he with rfl | he
      · exact hd
      · exact hactive a List.mem_cons_self hT e he
    · exact hactive b (List.mem_cons_of_mem a hb) hT e he

omit [DecidablePred T] in
/-- A memo may be set that was read of nodes of the set. -/
theorem set (h : Shut T s) {m : Memo K (V k)} (hm : s'.memos = s.memos.set k m)
    (ha : s'.active = s.active) (hreads : T k → ∀ d ∈ m.reads, T d) : Shut T s' := by
  refine ⟨fun d x hd hx => ?_, by rw [ha]; exact h.active⟩
  rw [hm] at hx
  by_cases hkd : k = d
  · subst hkd
    rw [NodeTable.get?_set_self] at hx
    cases hx
    exact hreads hd
  · rw [NodeTable.get?_set_of_ne _ hkd] at hx
    exact h.memos d x hd hx

end Shut

/-- One reader does in a store of a set alone what another does in the whole store. -/
def Mirrors (T : K → Prop) [DecidablePred T] (below below' : (k : K) → Reader K V (Stamped (V k))) :
    Prop :=
  ∀ k s, T k → Shut T s →
    below' k (s.only T) = ((below k s).1, (below k s).2.only T) ∧ Shut T (below k s).2

section
variable {below below' : (k : K) → Reader K V (Stamped (V k))} (hb : Mirrors T below below')
  (hactive : ∀ k s, (below k s).2.active = s.active)
include hb

theorem Mirrors.unchangedSince (r : Nat) {ks : List K} (hks : ∀ d ∈ ks, T d) (hs : Shut T s) :
    unchangedSince below' r ks (s.only T) =
      ((unchangedSince below r ks s).1, (unchangedSince below r ks s).2.only T) ∧
    Shut T (unchangedSince below r ks s).2 := by
  induction ks generalizing s with
  | nil => exact ⟨rfl, hs⟩
  | cons d ks ih =>
    obtain ⟨hd, hshut⟩ := hb d s (hks d List.mem_cons_self) hs
    simp only [Graph.unchangedSince, hd]
    generalize below d s = out at hshut
    obtain ⟨result, s₁⟩ := out
    cases result with
    | error halt => exact ⟨rfl, hshut⟩
    | ok node =>
      dsimp only
      split
      · exact ⟨rfl, hshut⟩
      · exact ih (fun e he => hks e (List.mem_cons_of_mem d he)) hshut

include hactive

theorem Mirrors.runWith {p : Program K V α} (hp : p.Within T) (hs : Shut T s)
    (hin : s.Inside T) : p.runWith below' (s.only T) =
      ((p.runWith below s).1, (p.runWith below s).2.only T) ∧ Shut T (p.runWith below s).2 := by
  induction hp generalizing s with
  | done a => exact ⟨rfl, hs⟩
  | fail e => exact ⟨rfl, hs⟩
  | @read d next hd _ ih =>
    obtain ⟨hread, hshut⟩ := hb d (s.noteRead d) hd (hs.noteRead hd)
    have hin₁ : (below d (s.noteRead d)).2.Inside T := by
      intro a ha
      rw [hactive] at ha
      unfold Store.noteRead at ha
      cases hs : s.active with
      | nil =>
        simp only [hs] at ha
        simp at ha
      | cons b rest =>
        simp only [hs, List.head?_cons, Option.some.injEq] at ha
        subst ha
        exact hin b (by simp [hs])
    simp only [Program.runWith, ← Store.only_noteRead hin, hread]
    generalize below d (s.noteRead d) = out at hshut hin₁
    obtain ⟨result, s₁⟩ := out
    cases result with
    | ok node => exact ih (.ok node.value) hshut hin₁
    | error halt =>
      cases halt with
      | failed e => exact ih (.error e) hshut hin₁
      | tooDeep => exact ⟨rfl, hshut⟩
  | cancel _ ih => exact ih (s := s.cancelPass) (hs.of_same rfl hs.active) hin

variable [∀ k, BEq (V k)] {p : Program K V (V k)} (hp : p.Within T) (hk : T k)
include hp hk

theorem Mirrors.execute (previous : Option (Memo K (V k))) (hs : Shut T s) :
    execute below' k p previous (s.only T) =
      ((execute below k p previous s).1, (execute below k p previous s).2.only T) ∧
    Shut T (execute below k p previous s).2 := by
  simp only [Graph.execute, Store.only_isComputing hk]
  split
  · exact ⟨rfl, hs⟩
  · have hcancelled : (s.only T).cancelled? = s.cancelled? := rfl
    rw [hcancelled]
    split
    · exact ⟨rfl, hs⟩
    · have hstart : Shut T (s.start k) := by
        refine hs.of_same rfl fun a ha => ?_
        rcases List.mem_cons.mp ha with rfl | ha
        · simp
        · exact hs.active a ha
      obtain ⟨hrun, hshut⟩ := hb.runWith hactive hp hstart (by simp [Store.Inside, Store.start, hk])
      obtain ⟨reads, hreads⟩ := p.runWith_active hactive (s := s.start k) rfl
      simp only [compute, ← Store.only_start hk, hrun]
      generalize p.runWith below (s.start k) = out at hshut hreads
      obtain ⟨result, s₁⟩ := out
      have hfinish : Shut T s₁.finish := hshut.of_same rfl fun a ha =>
        hshut.active a (List.mem_of_mem_drop ha)
      cases result with
      | error halt => exact ⟨by rw [Store.only_finish hreads hk], hfinish⟩
      | ok v =>
        dsimp only
        rw [Store.only_currentReads hreads hk, ← Store.only_finish hreads hk, ← Store.only_keep hk]
        refine ⟨rfl, hfinish.set rfl rfl fun _ d hd => ?_⟩
        have hactive : s₁.active = _ := hreads
        have hmem : d ∈ reads := by simpa [Store.currentReads, hactive] using hd
        exact hshut.active _ (hactive ▸ List.mem_cons_self) hk d hmem

theorem Mirrors.revalidate {m : Memo K (V k)} (hm : s.memos.get? k = some m) (hs : Shut T s) :
    revalidate below' k p m (s.only T) =
      ((revalidate below k p m s).1, (revalidate below k p m s).2.only T) ∧
    Shut T (revalidate below k p m s).2 := by
  have hrevision : (s.only T).revision = s.revision := rfl
  simp only [Graph.revalidate, hrevision]
  split
  · exact ⟨rfl, hs⟩
  · obtain ⟨hcheck, hshut⟩ := hb.unchangedSince m.verifiedAt (hs.memos k m hk hm) hs
    rw [hcheck]
    generalize Graph.unchangedSince below m.verifiedAt m.reads s = out at hshut
    obtain ⟨result, s₁⟩ := out
    cases result with
    | error halt => exact ⟨rfl, hshut⟩
    | ok unchanged =>
      cases unchanged with
      | true =>
        dsimp only
        rw [← Store.only_verify hk]
        exact ⟨rfl, hshut.set rfl rfl fun _ => hs.memos k m hk hm⟩
      | false => exact hb.execute hactive hp hk (some m) hshut

end

variable [∀ k, BEq (V k)] [∀ k, Nonempty (V k)] {rules : Rules K V}

/-- Nodes of a closed set are read as in a graph of their own. -/
theorem fetch_mirrors (hclosed : IsClosed rules T) (depth : Nat) :
    Mirrors T (fetch rules depth) (fetch (onlyRules T rules) depth) := by
  have hmemo {k : K} (hk : T k) (s : Store K V) : (s.only T).memos.get? k = s.memos.get? k := by
    rw [Store.only, NodeTable.get?_only, if_pos hk]
  induction depth with
  | zero =>
    intro k s hk hs
    unfold fetch
    rw [onlyRules_of_mem hk]
    cases rules k <;> exact ⟨rfl, hs⟩
  | succ depth ih =>
    intro k s hk hs
    unfold fetch
    rw [onlyRules_of_mem hk]
    cases hrule : rules k with
    | input absent => exact ⟨rfl, hs⟩
    | refused e => exact ⟨rfl, hs⟩
    | query p =>
      simp only [hmemo hk]
      have hp := hclosed k p hk hrule
      cases hm : s.memos.get? k with
      | none => exact ih.execute (fetch_active rules depth) hp hk none hs
      | some m => exact ih.revalidate (fetch_active rules depth) hp hk hm hs

theorem run_mirrors (hclosed : IsClosed rules T) {p : Program K V α} (hp : p.Within T)
    (hs : Shut T s) (hidle : s.active = []) (depth : Nat) :
    p.run (onlyRules T rules) depth (s.only T) =
      ((p.run rules depth s).1, (p.run rules depth s).2.only T) ∧ Shut T (p.run rules depth s).2 :=
  (fetch_mirrors hclosed depth).runWith (fetch_active rules depth) hp hs
    (by simp [Store.Inside, hidle])

omit [∀ k, BEq (V k)] in
/-- A node of a closed set lasts if it does in a graph of its own. -/
theorem lasts_only_iff {r : Nat} (hs : Shut T s) (hk : T k) :
    Lasts (onlyRules T rules) (s.only T) r k ↔ Lasts rules s r k := by
  have hmemos (d : K) (hd : T d) : (s.only T).memos.get? d = s.memos.get? d := by
    rw [Store.only, NodeTable.get?_only, if_pos hd]
  constructor
  · intro h
    refine h.of_closed (C := T) (fun d m e hd hm he => ?_) (fun d hd => (onlyRules_of_mem hd).symm)
      (fun d hd => (hmemos d hd).symm) (fun d absent _ hrule h => h.changedAt_input_le hrule) hk
    rw [hmemos d hd] at hm
    exact hs.memos d m hd hm e he
  · intro h
    exact h.of_closed (C := T) (fun d m e hd hm he => hs.memos d m hd hm e he)
      (fun d hd => onlyRules_of_mem hd) hmemos
      (fun d absent _ hrule h => h.changedAt_input_le hrule) hk

/-- As far as a set of nodes goes, a store is at rest. -/
structure RestsAlone (T : K → Prop) [DecidablePred T] (rules : Rules K V) (L : Likeness K V)
    (s : Store K V) : Prop where
  shut : Shut T s
  rest : AtRest (onlyRules T rules) L (s.only T)

namespace RestsAlone
variable {L : Likeness K V}

omit [∀ k, BEq (V k)] in
theorem not_mem_active (h : RestsAlone T rules L s) : ∀ a ∈ s.active, ¬ T a.key := by
  intro a ha hT
  have hidle : s.active.filter (fun a => decide (T a.key)) = [] := h.rest.idle
  exact absurd hT (by simpa using List.filter_eq_nil_iff.mp hidle a ha)

omit [∀ k, BEq (V k)] in
/-- Memos may be dropped, and anything may become of what is beyond the set. -/
theorem of_fewer (h : RestsAlone T rules L s) (hr : s'.revision = s.revision)
    (hi : s'.inputs = s.inputs)
    (hm : ∀ k m, T k → s'.memos.get? k = some m → s.memos.get? k = some m)
    (ha : ∀ a ∈ s'.active, ¬ T a.key) : RestsAlone T rules L s' := by
  refine ⟨⟨fun k m hk hmk => h.shut.memos k m hk (hm k m hk hmk), fun a hmem hT =>
    absurd hT (ha a hmem)⟩, ?_, ?_⟩
  · exact List.filter_eq_nil_iff.mpr fun a hmem => by simpa using ha a hmem
  · obtain ⟨past, hs⟩ := h.rest.exists_sound
    refine ⟨past, hs.of_fewer hr hi fun k m hmk => ?_⟩
    simp only [Store.only, NodeTable.get?_only] at hmk ⊢
    split at hmk
    · rename_i hk
      rw [if_pos hk]
      exact hm k m hk hmk
    · cases hmk

omit [∀ k, BEq (V k)] in
theorem of_same (h : RestsAlone T rules L s) (hr : s'.revision = s.revision)
    (hi : s'.inputs = s.inputs) (hm : s'.memos = s.memos)
    (ha : ∀ a ∈ s'.active, ∃ b ∈ s.active, a.key = b.key) : RestsAlone T rules L s' := by
  refine h.of_fewer hr hi (fun k m _ hmk => by rwa [hm] at hmk) fun a hmem => ?_
  obtain ⟨b, hb, heq⟩ := ha a hmem
  rw [heq]
  exact h.not_mem_active b hb

omit [∀ k, BEq (V k)] in
theorem noteRead (h : RestsAlone T rules L s) (d : K) : RestsAlone T rules L (s.noteRead d) := by
  refine h.of_same (by simp) (by simp) (by simp) ?_
  unfold Store.noteRead
  cases ha : s.active with
  | nil => simp [ha]
  | cons a rest =>
    intro b hb
    rcases List.mem_cons.mp hb with rfl | hb
    · exact ⟨a, List.mem_cons_self, rfl⟩
    · exact ⟨b, List.mem_cons_of_mem a hb, rfl⟩

omit [∀ k, BEq (V k)] in
/-- A memo may be set beyond the set. -/
theorem set (h : RestsAlone T rules L s) (hk : ¬ T k) {m : Memo K (V k)}
    (hr : s'.revision = s.revision) (hi : s'.inputs = s.inputs)
    (hm : s'.memos = s.memos.set k m) (ha : s'.active = s.active) : RestsAlone T rules L s' := by
  refine h.of_fewer hr hi (fun d x hd hx => ?_) (by rw [ha]; exact h.not_mem_active)
  have hne : k ≠ d := by
    rintro rfl
    exact hk hd
  rwa [hm, NodeTable.get?_set_of_ne _ hne] at hx

section
variable {below : (k : K) → Reader K V (Stamped (V k))}
  (hb : ∀ k s, RestsAlone T rules L s → RestsAlone T rules L (below k s).2)
include hb

omit [∀ k, BEq (V k)] in
theorem unchangedSince (r : Nat) (ks : List K) (h : RestsAlone T rules L s) :
    RestsAlone T rules L (unchangedSince below r ks s).2 := by
  induction ks generalizing s with
  | nil => exact h
  | cons k ks ih =>
    have hk := hb k s h
    simp only [Graph.unchangedSince]
    generalize below k s = out at hk
    obtain ⟨result, s₁⟩ := out
    cases result with
    | error halt => exact hk
    | ok node =>
      dsimp only
      split
      · exact hk
      · exact ih hk

omit [∀ k, BEq (V k)] in
theorem runWith (p : Program K V α) (h : RestsAlone T rules L s) :
    RestsAlone T rules L (p.runWith below s).2 := by
  induction p generalizing s with
  | done a => exact h
  | fail e => exact h
  | read k next ih =>
    have hk := hb k _ (h.noteRead k)
    simp only [Program.runWith]
    generalize below k (s.noteRead k) = out at hk
    obtain ⟨result, s₁⟩ := out
    cases result with
    | ok node => exact ih (.ok node.value) hk
    | error halt =>
      cases halt with
      | failed e => exact ih (.error e) hk
      | tooDeep => exact hk
  | cancel next ih =>
    exact ih (s := s.cancelPass) (h.of_same rfl rfl rfl fun a ha => ⟨a, ha, rfl⟩)

theorem execute (hk : ¬ T k) (p : Program K V (V k)) (previous : Option (Memo K (V k)))
    (h : RestsAlone T rules L s) : RestsAlone T rules L (execute below k p previous s).2 := by
  simp only [Graph.execute]
  split
  · exact h
  · split
    · exact h
    · have hstart : RestsAlone T rules L (s.start k) := by
        refine h.of_fewer rfl rfl (fun _ _ _ hm => hm) fun a ha => ?_
        rcases List.mem_cons.mp ha with rfl | ha
        · exact hk
        · exact h.not_mem_active a ha
      have hrun := runWith hb p hstart
      simp only [compute]
      generalize p.runWith below (s.start k) = out at hrun
      obtain ⟨result, s₁⟩ := out
      have hfinish : RestsAlone T rules L s₁.finish :=
        hrun.of_same rfl rfl rfl fun a ha => ⟨a, List.mem_of_mem_drop ha, rfl⟩
      cases result with
      | error halt => exact hfinish
      | ok v => exact hfinish.set hk rfl rfl rfl rfl

theorem revalidate (hk : ¬ T k) (p : Program K V (V k)) (m : Memo K (V k))
    (h : RestsAlone T rules L s) : RestsAlone T rules L (revalidate below k p m s).2 := by
  simp only [Graph.revalidate]
  split
  · exact h
  · have hcheck := unchangedSince hb m.verifiedAt m.reads h
    generalize Graph.unchangedSince below m.verifiedAt m.reads s = out at hcheck
    obtain ⟨result, s₁⟩ := out
    cases result with
    | error halt => exact hcheck
    | ok unchanged =>
      cases unchanged with
      | true => exact hcheck.set hk rfl rfl rfl rfl
      | false => exact execute hb hk p (some m) hcheck

end

omit [∀ k, BEq (V k)] in
theorem empty : RestsAlone T rules L {} where
  shut := ⟨(fun _ _ _ hm => nomatch hm), (fun _ ha => nomatch ha)⟩
  rest := .empty

omit [∀ k, BEq (V k)] in
theorem beginPass (h : RestsAlone T rules L s) (token : Option Token) :
    RestsAlone T rules L (s.beginPass token) := h.of_same rfl rfl rfl fun a ha => ⟨a, ha, rfl⟩

omit [∀ k, BEq (V k)] in
theorem endPass (h : RestsAlone T rules L s) (wasCancelled : Bool) :
    RestsAlone T rules L (s.endPass wasCancelled) := by
  refine h.of_fewer rfl rfl (fun k m _ hm => ?_) h.not_mem_active
  cases wasCancelled with
  | false => exact hm
  | true =>
    simp only [Store.endPass, if_true, NodeTable.get?_without] at hm
    split at hm
    · cases hm
    · exact hm

theorem setInput (h : RestsAlone T rules L s) (hidle : s.active = []) {v : V k}
    (hv : L.like k v v) : RestsAlone T rules L (s.setInput k v).2 := by
  have honly : (s.setInput k v).2.only T = ((s.only T).setInput k v).2 := by
    have hinput : (s.only T).input? k = s.input? k := rfl
    have hactive : (s.only T).active = [] := h.rest.idle
    simp only [Store.setInput, hidle, hactive, hinput]
    split
    · rfl
    · split <;> rfl
  refine ⟨?_, by rw [honly]; exact h.rest.setInput hv⟩
  obtain ⟨hm, -⟩ := setInput_frame k v s
  have hactive : (s.setInput k v).2.active = s.active := by
    simp only [Store.setInput]
    split
    · rfl
    · split <;> rfl
  exact h.shut.of_same hm (by rw [hactive]; exact h.shut.active)

variable [Node K] {level : K → Nat} (hclosed : IsClosed rules T)
  (hO : Orderly (onlyRules T rules) L) (hlevel : Leveled (onlyRules T rules) level)
include hclosed hO hlevel

/-- Reads of any nodes leave a closed set at rest. -/
theorem fetch (depth : Nat) (k : K) (s : Store K V) (h : RestsAlone T rules L s) :
    RestsAlone T rules L (fetch rules depth k s).2 := by
  have hmember (depth : Nat) (k : K) (s : Store K V) (hk : T k) (h : RestsAlone T rules L s) :
      RestsAlone T rules L (Graph.fetch rules depth k s).2 := by
    obtain ⟨hread, hshut⟩ := fetch_mirrors hclosed depth k s hk h.shut
    have hrest := (h.rest.fetch hO (hlevel.steady _) (k := k) trivial depth).1
    rw [hread] at hrest
    exact ⟨hshut, hrest⟩
  induction depth generalizing k s with
  | zero =>
    by_cases hk : T k
    · exact hmember 0 k s hk h
    · unfold Graph.fetch
      cases rules k <;> exact h
  | succ depth ih =>
    by_cases hk : T k
    · exact hmember (depth + 1) k s hk h
    · unfold Graph.fetch
      cases rules k with
      | input absent => exact h
      | refused e => exact h
      | query p =>
        dsimp only
        split
        · exact execute ih hk p none h
        · exact revalidate ih hk p _ h

theorem run (depth : Nat) (p : Program K V α) (h : RestsAlone T rules L s) :
    RestsAlone T rules L (p.run rules depth s).2 := runWith (fetch hclosed hO hlevel depth) p h

end RestsAlone

end SceneCodegen.Graph
