import SceneCodegen.Proofs.Graph.Depth
import SceneCodegen.Proofs.Graph.Respelling

/-!
# Visits

What a read that succeeds does to the memos of a graph whose queries pass failures on. A query that
is being checked or computed is not given to any read that its own reads lead to, so each query is
executed at most once in a revision, and one with a memo only when a node recorded in it is known to
have changed.
-/
namespace SceneCodegen.Graph

variable {K : Type} {V : K → Type} {α : Type}

section
variable {below : (k : K) → Reader K V (Stamped (V k))} {s s' : Store K V} {k : K} {r : Nat}

theorem unchangedSince_cons {d : K} {rest : List K}
    {b : Bool} (hf : unchangedSince below r (d :: rest) s = (.ok b, s')) :
    ∃ node s₁, below d s = (.ok node, s₁) ∧
      (r < node.changedAt ∧ b = false ∧ s' = s₁ ∨
        node.changedAt ≤ r ∧ unchangedSince below r rest s₁ = (.ok b, s')) := by
  simp only [unchangedSince] at hf
  cases hd : below d s with
  | mk result s₁ =>
    cases result with
    | error halt => simp [hd] at hf
    | ok node =>
      refine ⟨node, s₁, rfl, ?_⟩
      by_cases hc : r < node.changedAt
      · simp only [hd, hc, if_true, Prod.mk.injEq, Except.ok.injEq] at hf
        exact .inl ⟨hc, hf.1.symm, hf.2.symm⟩
      · simp only [hd, hc, if_false] at hf
        exact .inr ⟨Nat.le_of_not_lt hc, hf⟩

/-- A program that passes failures on and ends with a value has read values only. -/
theorem Program.runWith_read {next : Except (Failure K) (V k) → Program K V α} {a : α}
    (hp : (Program.read k next).Relays fun _ => True)
    (hf : (Program.read k next).runWith below s = (.ok a, s')) :
    ∃ node s₁, below k (s.noteRead k) = (.ok node, s₁) ∧
      (next (.ok node.value)).Relays (fun _ => True) ∧
      (next (.ok node.value)).runWith below s₁ = (.ok a, s') := by
  cases hp with
  | read hfail hok =>
    simp only [runWith] at hf
    cases hk : below k (s.noteRead k) with
    | mk result s₁ =>
      cases result with
      | ok node => exact ⟨node, s₁, rfl, hok node.value, by simpa [hk] using hf⟩
      | error halt =>
        cases halt with
        | failed e => simp [hk, hfail e trivial, runWith] at hf
        | tooDeep => simp [hk] at hf

variable [BEq K] [∀ k, BEq (V k)] {p : Program K V (V k)} {node : Stamped (V k)}

theorem execute_ok {previous : Option (Memo K (V k))}
    (hf : execute below k p previous s = (.ok node, s')) :
    s.isComputing k = false ∧ ∃ v s₁, p.runWith below (s.start k) = (.ok v, s₁) ∧
      node = ⟨v, s₁.changedAt previous v⟩ ∧
      s' = s₁.finish.keep k
        { value := v, changedAt := s₁.changedAt previous v, verifiedAt := s₁.revision
          reads := s₁.currentReads } := by
  simp only [execute] at hf
  cases hc : s.isComputing k with
  | true => simp [hc] at hf
  | false =>
    refine ⟨rfl, ?_⟩
    cases hg : s.cancelled? with
    | some g => simp [hc, hg] at hf
    | none =>
      simp only [hc, Bool.false_eq_true, if_false, hg, compute] at hf
      cases hr : p.runWith below (s.start k) with
      | mk result s₁ =>
        cases result with
        | error halt => simp [hr] at hf
        | ok v =>
          simp only [hr, Prod.mk.injEq, Except.ok.injEq] at hf
          exact ⟨v, s₁, rfl, hf.1.symm, hf.2.symm⟩

/-- A query with a stale memo is read by a check of what is recorded, and executed if
that changed. -/
theorem revalidate_ok {m : Memo K (V k)} (hstale : m.verifiedAt ≠ s.revision)
    (hf : revalidate below k p m s = (.ok node, s')) :
    ∃ b s₁, unchangedSince below m.verifiedAt m.reads s = (.ok b, s₁) ∧
      (b = true ∧ node = m.toStamped ∧ s' = s₁.verify k m ∨
        b = false ∧ execute below k p (some m) s₁ = (.ok node, s')) := by
  simp only [revalidate, beq_iff_eq, hstale, if_false] at hf
  cases hu : unchangedSince below m.verifiedAt m.reads s with
  | mk result s₁ =>
    cases result with
    | error halt => simp [hu] at hf
    | ok b =>
      refine ⟨b, s₁, rfl, ?_⟩
      cases b with
      | true =>
        simp only [hu, Prod.mk.injEq, Except.ok.injEq] at hf
        exact .inl ⟨rfl, hf.1.symm, hf.2.symm⟩
      | false => exact .inr ⟨rfl, by simpa [hu] using hf⟩

end

variable [BEq K] [Coherent K V] {rules : Rules K V} {s s' s'' : Store K V} {k l : K} {r : Nat}

/-- All of some nodes are valid now and did not change after a revision. -/
def Unchanged (rules : Rules K V) (s : Store K V) (r : Nat) (ks : List K) : Prop :=
  ∀ d ∈ ks, ∃ node, Holds rules s d node ∧ node.changedAt ≤ r

/-- A memo is not yet valid, and it is known which recorded node changed first. -/
structure Outdated (rules : Rules K V) (s : Store K V) (m : Memo K (V k)) : Prop where
  stale : m.verifiedAt ≠ s.revision
  exists_changed : ∃ first d rest node, m.reads = first ++ d :: rest ∧
    Unchanged rules s m.verifiedAt first ∧ Holds rules s d node ∧ m.verifiedAt < node.changedAt

theorem Outdated.of_coeval {m : Memo K (V k)} {m' : Memo K (V l)} (h : Outdated rules s m)
    (hm : m.Coeval m') : Outdated rules s m' := by
  obtain ⟨hstale, first, d, rest, node, hreads, hfirst, hd, hc⟩ := h
  rw [← hm.verifiedAt] at hstale hfirst hc
  exact ⟨hstale, first, d, rest, node, hm.reads.trans hreads, hfirst, hd, hc⟩

/-- A node whose value rests, through recorded reads that are valid now, on inputs. -/
inductive Grounded (rules : Rules K V) (s : Store K V) : K → Prop
  | input {k : K} {absent : V k} (hk : rules k = .input absent) : Grounded rules s k
  | memo {k : K} {m : Memo K (V k)} (hm : s.memos.get? k = some m)
      (hv : m.verifiedAt = s.revision) (h : ∀ d ∈ m.reads, Grounded rules s d) :
      Grounded rules s k

theorem Grounded.of_beq [EquivBEq K] [OneSort rules] (h : Grounded rules s k) (hkl : k == l) :
    Grounded rules s l := by
  cases h with
  | input hk =>
    obtain ⟨absent, hl⟩ := OneSort.input hkl hk
    exact .input hl
  | memo hm hv hreads =>
    obtain ⟨m', hm', hcoeval⟩ := exists_memo_of_beq hkl hm
    refine .memo hm' (hcoeval.verifiedAt.trans hv) fun d hd => hreads d ?_
    rwa [← hcoeval.reads]

/-- What holds of every memo. -/
structure Tidy (rules : Rules K V) (s : Store K V) : Prop where
  query : ∀ k m, s.memos.get? k = some m → ∃ p, rules k = .query p
  changed_le : ∀ k m, s.memos.get? k = some m → m.changedAt ≤ m.verifiedAt
  le_revision : ∀ k m, s.memos.get? k = some m → m.verifiedAt ≤ s.revision

/-- What holds of the memos of a graph in which no read failed, and none was dropped that is needed
for one valid now. -/
structure Kept (rules : Rules K V) (s : Store K V) : Prop extends Tidy rules s where
  grounded : ∀ k m, s.memos.get? k = some m → m.verifiedAt = s.revision → Grounded rules s k

instance {s : Store K V} : Coe (Kept rules s) (Tidy rules s) := ⟨Kept.toTidy⟩

/-- A store in which all that was valid is still so. -/
structure Retains (s s' : Store K V) : Prop where
  revision : s'.revision = s.revision
  inputs : s'.inputs = s.inputs
  memos : ∀ k m, s.memos.get? k = some m → m.verifiedAt = s.revision → s'.memos.get? k = some m

namespace Retains

theorem of_same (hr : s'.revision = s.revision) (hi : s'.inputs = s.inputs)
    (hm : s'.memos = s.memos) : Retains s s' :=
  ⟨hr, hi, fun k m hk _ => by rwa [hm]⟩

/-- A stale memo may be replaced. -/
theorem of_sets [EquivBEq K] {m : Memo K (V k)} (h : Sets k m s s')
    (hs : ∀ x, s.memos.get? k = some x → x.verifiedAt ≠ s.revision) : Retains s s' := by
  refine ⟨h.revision, h.inputs, fun d x hx hv => ?_⟩
  cases hd : k == d with
  | true =>
    obtain ⟨y, hy, hcoeval⟩ := exists_memo_of_beq (BEq.symm hd) hx
    exact absurd (hcoeval.verifiedAt.trans hv) (hs y hy)
  | false => rwa [h.memos, NodeTable.get?_set_of_unlike hd]

variable (h : Retains s s')
include h

theorem holds {node : Stamped (V k)} (hn : Holds rules s k node) : Holds rules s' k node := by
  cases hn with
  | input hk he => exact .input hk (by rwa [h.inputs])
  | @memo m hm hv he => exact .memo (h.memos k m hm hv) (hv.trans h.revision.symm) he

theorem unchanged {ks : List K} (hu : Unchanged rules s r ks) : Unchanged rules s' r ks := by
  intro d hd
  obtain ⟨node, hn, hc⟩ := hu d hd
  exact ⟨node, h.holds hn, hc⟩

theorem outdated {m : Memo K (V k)} (ho : Outdated rules s m) : Outdated rules s' m := by
  obtain ⟨hstale, first, d, rest, node, hreads, hfirst, hd, hc⟩ := ho
  exact ⟨by rwa [h.revision], first, d, rest, node, hreads, h.unchanged hfirst, h.holds hd, hc⟩

theorem grounded (hg : Grounded rules s k) : Grounded rules s' k := by
  induction hg with
  | input hk => exact .input hk
  | @memo k m hm hv _ ih => exact .memo (h.memos k m hm hv) (hv.trans h.revision.symm) ih

end Retains

theorem Holds.grounded {node : Stamped (V k)} (h : Holds rules s k node) (hs : Kept rules s) :
    Grounded rules s k := by
  cases h with
  | input hk _ => exact .input hk
  | @memo m hm hv _ => exact hs.grounded k m hm hv

namespace Kept

theorem empty : Kept rules ({} : Store K V) := by
  refine ⟨⟨?_, ?_, ?_⟩, ?_⟩
  all_goals
    intro k m hm
    cases hm

theorem of_same (h : Kept rules s) (hr : s'.revision = s.revision) (hi : s'.inputs = s.inputs)
    (hm : s'.memos = s.memos) : Kept rules s' := by
  have hretains : Retains s s' := .of_same hr hi hm
  refine ⟨⟨?_, ?_, ?_⟩, ?_⟩
  · rw [hm]
    exact h.query
  · rw [hm]
    exact h.changed_le
  · rw [hm, hr]
    exact h.le_revision
  · rw [hm, hr]
    exact fun k m hk hv => hretains.grounded (h.grounded k m hk hv)

/-- A memo of what was read of valid nodes replaces a stale one. -/
theorem sets [EquivBEq K] [OneSort rules] (h : Kept rules s) {m : Memo K (V k)}
    (hset : Sets k m s s')
    (hs : ∀ x, s.memos.get? k = some x → x.verifiedAt ≠ s.revision)
    (hk : ∃ p, rules k = .query p) (hc : m.changedAt ≤ s.revision)
    (hm : ∀ d ∈ m.reads, ∃ node, Holds rules s d node) : Kept rules s' := by
  have hretains : Retains s s' := .of_sets hset hs
  have hself : s'.memos.get? k = some m := by rw [hset.memos, NodeTable.get?_set_self]
  refine ⟨⟨fun d x hx => ?_, fun d x hx => ?_, fun d x hx => ?_⟩, fun d x hx hv => ?_⟩
  all_goals rcases hset.cases hx with ⟨hkd, hcoeval⟩ | ⟨-, hx⟩
  · obtain ⟨p, hp⟩ := hk
    exact OneSort.query hkd hp
  · exact h.query d x hx
  · rw [hcoeval.changedAt, hcoeval.verifiedAt, hset.verified]
    exact hc
  · exact h.changed_le d x hx
  · exact Nat.le_of_eq (hcoeval.verifiedAt.trans (hset.verified.trans hset.revision.symm))
  · rw [hset.revision]
    exact h.le_revision d x hx
  · refine (Grounded.memo hself (hset.verified.trans hset.revision.symm) fun e he => ?_).of_beq hkd
    obtain ⟨node, hn⟩ := hm e he
    exact hretains.grounded (hn.grounded h)
  · exact hretains.grounded (h.grounded d x hx (hv.trans hset.revision))

end Kept

/-- A query was executed: it had no memo, or an outdated one. -/
def Recomputed [∀ k, BEq (V k)] (rules : Rules K V) (s s' : Store K V) (k : K) : Prop :=
  (∀ m, s.memos.get? k = some m → Outdated rules s' m) ∧
  ∃ m, s'.memos.get? k = some m ∧ m.verifiedAt = s.revision ∧
    m.changedAt = s.changedAt (s.memos.get? k) m.value

/-- A node was not executed: its memo stayed, or was found valid because nothing
recorded changed. -/
def Rested (rules : Rules K V) (s s' : Store K V) (k : K) : Prop :=
  s'.memos.get? k = s.memos.get? k ∨
  ∃ m, s.memos.get? k = some m ∧ m.verifiedAt ≠ s.revision ∧
    s'.memos.get? k = some { m with verifiedAt := s.revision } ∧
    Unchanged rules s' m.verifiedAt m.reads

/-- Reads that executed some queries, the latest first and none twice, and left others alone. -/
structure Visit [∀ k, BEq (V k)] (rules : Rules K V) (S ks : List K) (s s' : Store K V) :
    Prop where
  revision : s'.revision = s.revision
  inputs : s'.inputs = s.inputs
  executed : s'.executed = ks ++ s.executed
  started : ∃ ls, s'.started.map Prod.fst = ls ++ s.started.map Prod.fst ∧ ls.Perm ks
  unlike : Unlike ks
  recomputed : ∀ k ∈ ks, Recomputed rules s s' k
  rested : ∀ k, ks.contains k = false → Rested rules s s' k
  frame : ∀ k ∈ S, ks.contains k = false ∧ s'.memos.get? k = s.memos.get? k

variable [∀ k, BEq (V k)] {S T ks ls : List K}

namespace Visit

/-- Only what reads note of themselves differs. -/
theorem of_same (S : List K) (hr : s'.revision = s.revision) (hi : s'.inputs = s.inputs)
    (hm : s'.memos = s.memos) (he : s'.executed = s.executed) (hs : s'.started = s.started) :
    Visit rules S [] s s' where
  revision := hr
  inputs := hi
  executed := he
  started := ⟨[], by rw [hs]; rfl, .refl _⟩
  unlike := .nil
  recomputed := by simp
  rested k _ := .inl (by rw [hm])
  frame k _ := ⟨rfl, by rw [hm]⟩

theorem refl (S : List K) (s : Store K V) : Visit rules S [] s s := .of_same S rfl rfl rfl rfl rfl

theorem mono (h : Visit rules T ks s s') (hS : ∀ k ∈ S, k ∈ T) : Visit rules S ks s s' :=
  { h with frame := fun k hk => h.frame k (hS k hk) }

/-- Where keys that count as the same are equal, what is not among the executed queries rests. -/
theorem rested_of_not_mem [LawfulBEq K] (h : Visit rules S ks s s') (hk : k ∉ ks) :
    Rested rules s s' k :=
  h.rested k (Bool.eq_false_iff.mpr fun hks => hk (List.contains_iff_mem.mp hks))

variable [EquivBEq K]

/-- What is executed under one spelling of its key is so under all. -/
theorem recomputed_of_contains (h : Visit rules S ks s s') (hk : ks.contains k = true) :
    (∀ m, s.memos.get? k = some m → Outdated rules s' m) ∧
      ∃ m, s'.memos.get? k = some m ∧ m.verifiedAt = s.revision := by
  obtain ⟨l, hl, hkl⟩ := List.contains_iff_exists_mem_beq.mp hk
  obtain ⟨hprevious, m, hm, hv, -⟩ := h.recomputed l hl
  obtain ⟨m', hm', hcoeval⟩ := exists_memo_of_beq (BEq.symm hkl) hm
  refine ⟨fun x hx => ?_, m', hm', hcoeval.verifiedAt.trans hv⟩
  obtain ⟨y, hy, hxy⟩ := exists_memo_of_beq hkl hx
  exact (hprevious y hy).of_coeval hxy.symm

/-- What is valid is not executed. -/
theorem not_executed_of_valid (h : Visit rules S ks s s') {m : Memo K (V k)}
    (hm : s.memos.get? k = some m) (hv : m.verifiedAt = s.revision) : ks.contains k = false := by
  refine Bool.eq_false_iff.mpr fun hk => ?_
  exact ((h.recomputed_of_contains hk).1 m hm).stale (hv.trans h.revision.symm)

theorem retains (h : Visit rules S ks s s') : Retains s s' := by
  refine ⟨h.revision, h.inputs, fun k m hm hv => ?_⟩
  rcases h.rested k (h.not_executed_of_valid hm hv) with he | ⟨x, hx, hstale, -⟩
  · rwa [he]
  · rw [hm] at hx
    cases hx
    exact absurd hv hstale

theorem trans (h : Visit rules S ks s s') (h' : Visit rules S ls s' s'') :
    Visit rules S (ls ++ ks) s s'' := by
  have hvalid {k : K} (hk : ks.contains k = true) :
      ls.contains k = false ∧ s''.memos.get? k = s'.memos.get? k := by
    obtain ⟨-, m, hm, hv⟩ := h.recomputed_of_contains hk
    have hv := hv.trans h.revision.symm
    exact ⟨h'.not_executed_of_valid hm hv, by rw [hm]; exact h'.retains.memos k m hm hv⟩
  refine ⟨h'.revision.trans h.revision, h'.inputs.trans h.inputs, ?_, ?_, ?_, ?_, ?_, ?_⟩
  · rw [h'.executed, h.executed, List.append_assoc]
  · obtain ⟨xs, hxs, hperm⟩ := h.started
    obtain ⟨ys, hys, hperm'⟩ := h'.started
    exact ⟨ys ++ xs, by rw [hys, hxs, List.append_assoc], hperm'.append hperm⟩
  · refine List.pairwise_append.mpr ⟨h'.unlike, h.unlike, fun a ha b hb => ?_⟩
    refine Bool.eq_false_iff.mpr fun hab => ?_
    have hks : ks.contains a = true := List.contains_iff_exists_mem_beq.mpr ⟨b, hb, hab⟩
    exact Bool.eq_false_iff.mp (hvalid hks).1 (contains_of_mem ha)
  · intro k hk
    rcases List.mem_append.mp hk with hk | hk
    · have hrested : s'.memos.get? k = s.memos.get? k := by
        have hks : ks.contains k = false := Bool.eq_false_iff.mpr fun hks =>
          Bool.eq_false_iff.mp (hvalid hks).1 (contains_of_mem hk)
        rcases h.rested k hks with he | ⟨m, hm, -, hm', -⟩
        · exact he
        · exact absurd (contains_of_mem hk)
            (Bool.eq_false_iff.mp (h'.not_executed_of_valid hm' h.revision.symm))
      have hrec := h'.recomputed k hk
      simpa only [Recomputed, hrested, h.revision, Store.changedAt] using hrec
    · obtain ⟨hprevious, hnow⟩ := h.recomputed k hk
      rw [← (hvalid (contains_of_mem hk)).2] at hnow
      exact ⟨fun m hm => h'.retains.outdated (hprevious m hm), hnow⟩
  · intro k hk
    rw [List.contains_append, Bool.or_eq_false_iff] at hk
    rcases h.rested k hk.2 with he | ⟨m, hm, hstale, hm', hu⟩
    · rcases h'.rested k hk.1 with he' | ⟨m, hm, hstale, hm', hu⟩
      · exact .inl (he'.trans he)
      · rw [h.revision] at hstale hm'
        exact .inr ⟨m, he ▸ hm, hstale, hm', hu⟩
    · exact .inr ⟨m, hm, hstale, h'.retains.memos k _ hm' h.revision.symm,
        h'.retains.unchanged hu⟩
  · intro k hk
    obtain ⟨hks, he⟩ := h.frame k hk
    obtain ⟨hls, he'⟩ := h'.frame k hk
    exact ⟨by rw [List.contains_append, hls, hks]; rfl, he'.trans he⟩

end Visit

/-- A query that is being computed as it had to be. -/
def Executing (rules : Rules K V) (s : Store K V) (q : K) : Prop :=
  s.isComputing q ∧ ∀ m, s.memos.get? q = some m → Outdated rules s m

/-- A query whose memo is being checked and has been found unchanged up to the read of a node. -/
def Checking (rules : Rules K V) (s : Store K V) (q d : K) : Prop :=
  ∃ m first rest, s.memos.get? q = some m ∧ m.verifiedAt ≠ s.revision ∧
    m.reads = first ++ d :: rest ∧ Unchanged rules s m.verifiedAt first

/-- Queries whose reads led to that of a node: each is being computed, or checked at one of them or
at the node. -/
def Pending (rules : Rules K V) (S : List K) (k : K) (s : Store K V) : Prop :=
  ∀ q ∈ S, (∃ p, rules q = .query p) ∧
    (Executing rules s q ∨ ∃ d ∈ k :: S, Checking rules s q d)

omit [∀ k, BEq (V k)] in
theorem Executing.of_retains {q : K} (h : Executing rules s q) (hr : Retains s s')
    (hm : s'.memos.get? q = s.memos.get? q) (hc : s.isComputing q → s'.isComputing q) :
    Executing rules s' q :=
  ⟨hc h.1, fun m hq => hr.outdated (h.2 m (by rwa [← hm]))⟩

omit [∀ k, BEq (V k)] in
theorem Checking.of_retains {q d : K} (h : Checking rules s q d) (hr : Retains s s')
    (hm : s'.memos.get? q = s.memos.get? q) : Checking rules s' q d := by
  obtain ⟨m, first, rest, hq, hstale, hreads, hfirst⟩ := h
  exact ⟨m, first, rest, hm.trans hq, by rwa [hr.revision], hreads, hr.unchanged hfirst⟩

omit [∀ k, BEq (V k)] in
/-- A node that is read goes on to read another. -/
theorem Pending.push (h : Pending rules S k s) {p : Program K V (V k)} (hk : rules k = .query p)
    {d : K} (hd : Executing rules s k ∨ Checking rules s k d) : Pending rules (k :: S) d s := by
  intro q hq
  rcases List.mem_cons.mp hq with rfl | hq
  · refine ⟨⟨p, hk⟩, hd.imp_right fun hd => ⟨d, by simp, hd⟩⟩
  · obtain ⟨hquery, hrunning | ⟨e, he, hchecking⟩⟩ := h q hq
    · exact ⟨hquery, .inl hrunning⟩
    · exact ⟨hquery, .inr ⟨e, List.mem_cons_of_mem d he, hchecking⟩⟩

omit [∀ k, BEq (V k)] in
theorem Pending.of_retains (h : Pending rules S k s) (hr : Retains s s')
    (hm : ∀ q ∈ S, s'.memos.get? q = s.memos.get? q)
    (hc : ∀ q, s.isComputing q → s'.isComputing q) : Pending rules S k s' := by
  intro q hq
  obtain ⟨hquery, hrunning | ⟨d, hd, hchecking⟩⟩ := h q hq
  · exact ⟨hquery, .inl (hrunning.of_retains hr (hm q hq) (hc q))⟩
  · exact ⟨hquery, .inr ⟨d, hd, hchecking.of_retains hr (hm q hq)⟩⟩

/-- What is pending stays so over the reads that are made on the way. -/
theorem Pending.of_visit [EquivBEq K] (h : Pending rules S k s) (hv : Visit rules (k :: S) ks s s')
    (hc : ∀ q, s.isComputing q → s'.isComputing q) : Pending rules S k s' :=
  h.of_retains hv.retains (fun q hq => (hv.frame q (List.mem_cons_of_mem k hq)).2) hc

/-- What is valid is read as it is. -/
theorem fetch_of_holds (hs : Tidy rules s) {node : Stamped (V k)} (h : Holds rules s k node)
    {n : Nat} {out : Stamped (V k)} (hf : fetch rules n k s = (.ok out, s')) :
    out = node ∧ s' = s := by
  cases h with
  | input hk he =>
    rw [fetch_input hk] at hf
    cases hf
    exact ⟨he.symm, rfl⟩
  | @memo m hm hv he =>
    obtain ⟨p, hk⟩ := hs.query k m hm
    cases n with
    | zero => simp [fetch, hk] at hf
    | succ n =>
      rw [fetch_of_verified hk n hm hv] at hf
      cases hf
      exact ⟨he.symm, rfl⟩

/-- A check comes past the nodes that are unchanged without doing anything. -/
theorem unchangedSince_append (hs : Tidy rules s) {first rest : List K} {n : Nat} {b : Bool}
    (hu : Unchanged rules s r first)
    (hf : unchangedSince (fetch rules n) r (first ++ rest) s = (.ok b, s')) :
    unchangedSince (fetch rules n) r rest s = (.ok b, s') := by
  induction first with
  | nil => exact hf
  | cons d first ih =>
    obtain ⟨node, hn, hc⟩ := hu d List.mem_cons_self
    simp only [List.cons_append, unchangedSince] at hf
    cases he : fetch rules n d s with
    | mk result s₁ =>
      cases result with
      | error halt => simp [he] at hf
      | ok out =>
        obtain ⟨rfl, rfl⟩ := fetch_of_holds hs hn he
        simp only [he, Nat.not_lt.mpr hc, if_false] at hf
        exact ih (fun x hx => hu x (List.mem_cons_of_mem d hx)) hf

/-- No read of a pending query gives a value, under whichever spelling of its key. -/
theorem Pending.not_ok [EquivBEq K] [OneSort rules] (h : Pending rules S k s)
    (hk : S.contains k = true)
    (hs : Tidy rules s) {n : Nat} {d : K} (hd : S.contains d = true) {node : Stamped (V d)} :
    fetch rules n d s ≠ (.ok node, s') := by
  intro hf
  induction n generalizing d s' with
  | zero =>
    obtain ⟨q, hq, hdq⟩ := List.contains_iff_exists_mem_beq.mp hd
    obtain ⟨⟨p, hp⟩, -⟩ := h q hq
    obtain ⟨p', hp'⟩ := OneSort.query (BEq.symm hdq) hp
    simp [fetch, hp'] at hf
  | succ n ih =>
    obtain ⟨q, hq, hdq⟩ := List.contains_iff_exists_mem_beq.mp hd
    obtain ⟨⟨p, hp⟩, hpending⟩ := h q hq
    obtain ⟨p', hp'⟩ := OneSort.query (BEq.symm hdq) hp
    rcases hpending with ⟨hcomputing, hprevious⟩ | ⟨e, he, m, first, rest, hm, hstale, hreads, hu⟩
    · have hcomputing : s.isComputing d := (isComputing_congr hdq s).trans hcomputing
      cases hm : s.memos.get? d with
      | none =>
        rw [fetch_of_unkept hp' n hm] at hf
        simp [execute, hcomputing] at hf
      | some m =>
        obtain ⟨m', hm', hcoeval⟩ := exists_memo_of_beq hdq hm
        obtain ⟨hstale, first, e, rest, changed, hreads, hu, he, hc⟩ := hprevious m' hm'
        rw [hcoeval.verifiedAt] at hstale hu hc
        rw [fetch_of_kept hp' n hm] at hf
        obtain ⟨b, s₁, hcheck, hend⟩ := revalidate_ok hstale hf
        rw [← hcoeval.reads, hreads] at hcheck
        obtain ⟨out, s₂, hread, hrest⟩ := unchangedSince_cons (unchangedSince_append hs hu hcheck)
        obtain ⟨rfl, rfl⟩ := fetch_of_holds hs he hread
        rcases hrest with ⟨-, rfl, rfl⟩ | ⟨hle, -⟩
        · simp [execute, hcomputing] at hend
        · omega
    · obtain ⟨m', hm', hcoeval⟩ := exists_memo_of_beq (BEq.symm hdq) hm
      rw [fetch_of_kept hp' n hm'] at hf
      rw [← hcoeval.verifiedAt] at hstale hu
      obtain ⟨b, s₁, hcheck, -⟩ := revalidate_ok hstale hf
      rw [hcoeval.reads, hreads] at hcheck
      obtain ⟨out, s₂, hread, -⟩ := unchangedSince_cons (unchangedSince_append hs hu hcheck)
      have heS : S.contains e = true := by
        rcases List.mem_cons.mp he with rfl | he
        · exact hk
        · exact contains_of_mem he
      exact ih heS hread

/-- Reads at a depth that succeed are visits, and leave what they read valid. -/
def Visits (rules : Rules K V) (depth : Nat) : Prop :=
  ∀ S k s node s', Kept rules s → Pending rules S k s → fetch rules depth k s = (.ok node, s') →
    ∃ ks, Visit rules S ks s s' ∧ Kept rules s' ∧ Holds rules s' k node

variable [EquivBEq K] {depth : Nat} {p : Program K V (V k)} {m : Memo K (V k)}

theorem unchangedSince_visits (ih : Visits rules depth) (hk : rules k = .query p) {b : Bool}
    {first rest : List K} (hs : Kept rules s) (hpending : Pending rules S k s)
    (hm : s.memos.get? k = some m) (hstale : m.verifiedAt ≠ s.revision)
    (hreads : m.reads = first ++ rest) (hfirst : Unchanged rules s m.verifiedAt first)
    (hf : unchangedSince (fetch rules depth) m.verifiedAt rest s = (.ok b, s')) :
    ∃ ks, Visit rules (k :: S) ks s s' ∧ Kept rules s' ∧
      (b = true → Unchanged rules s' m.verifiedAt m.reads) ∧ (b = false → Outdated rules s' m) := by
  induction rest generalizing first s with
  | nil =>
    cases hf
    rw [List.append_nil] at hreads
    exact ⟨[], .refl _ _, hs, fun _ => by rwa [hreads], by simp⟩
  | cons d rest ih' =>
    obtain ⟨node, s₁, hd, hrest⟩ := unchangedSince_cons hf
    have hchecking : Checking rules s k d := ⟨m, first, rest, hm, hstale, hreads, hfirst⟩
    obtain ⟨ks, hvisit, hs₁, hholds⟩ := ih _ d s node s₁ hs (hpending.push hk (.inr hchecking)) hd
    have hactive : s₁.active = s.active := by
      have hactive := fetch_active rules depth d s
      rwa [hd] at hactive
    have hfirst₁ := hvisit.retains.unchanged hfirst
    have hstale₁ : m.verifiedAt ≠ s₁.revision := by rwa [hvisit.revision]
    rcases hrest with ⟨hc, rfl, rfl⟩ | ⟨hc, hrest⟩
    · refine ⟨ks, hvisit, hs₁, by simp, fun _ => ⟨hstale₁, ?_⟩⟩
      exact ⟨first, d, rest, node, hreads, hfirst₁, hholds, hc⟩
    · have hpending₁ : Pending rules S k s₁ :=
        hpending.of_visit hvisit fun q hq => by simpa [Store.isComputing, hactive] using hq
      have hm₁ : s₁.memos.get? k = some m := by
        rwa [(hvisit.frame k List.mem_cons_self).2]
      have hfirst₂ : Unchanged rules s₁ m.verifiedAt (first ++ [d]) := by
        intro x hx
        rcases List.mem_append.mp hx with hx | hx
        · exact hfirst₁ x hx
        · rw [List.mem_singleton.mp hx]
          exact ⟨node, hholds, hc⟩
      obtain ⟨ls, hvisit', hs', hend⟩ :=
        ih' hs₁ hpending₁ hm₁ hstale₁ (by simpa using hreads) hfirst₂ hrest
      exact ⟨ls ++ ks, hvisit.trans hvisit', hs', hend⟩

/-- A program run for a query is a visit that leaves the query and those above it alone. -/
theorem runWith_visits (ih : Visits rules depth) (hk : rules k = .query p) {q : Program K V α}
    (hq : q.Relays fun _ => True) {a : α} {reads : List K} {rest : List (Active K)}
    (hs : Kept rules s) (hpending : Pending rules S k s) (hexecuting : Executing rules s k)
    (hactive : s.active = ⟨k, reads⟩ :: rest) (hreads : ∀ d ∈ reads, ∃ node, Holds rules s d node)
    (hf : q.runWith (fetch rules depth) s = (.ok a, s')) :
    ∃ ks reads', Visit rules (k :: S) ks s s' ∧ Kept rules s' ∧
      s'.active = ⟨k, reads'⟩ :: rest ∧ ∀ d ∈ reads', ∃ node, Holds rules s' d node := by
  induction q generalizing s reads with
  | done b =>
    cases hf
    exact ⟨[], reads, .refl _ _, hs, hactive, hreads⟩
  | fail e => cases hf
  | read d next ih' =>
    obtain ⟨node, s₁, hd, hnext, hrest⟩ := Program.runWith_read hq hf
    have hnote : Visit rules (k :: S) [] s (s.noteRead d) :=
      .of_same _ (by simp) (by simp) (by simp) (by simp) (by simp)
    have hcomputing (q : K) (hq : s.isComputing q) : (s.noteRead d).isComputing q := by
      simpa [Store.isComputing, Store.noteRead_active hactive, hactive] using hq
    have hs₀ : Kept rules (s.noteRead d) := hs.of_same (by simp) (by simp) (by simp)
    have hpending₀ := hpending.of_visit hnote hcomputing
    have hexecuting₀ := hexecuting.of_retains hnote.retains (by simp) (hcomputing k)
    obtain ⟨ks, hvisit, hs₁, hholds⟩ :=
      ih _ d (s.noteRead d) node s₁ hs₀ (hpending₀.push hk (.inl hexecuting₀)) hd
    have hactive₁ : s₁.active = ⟨k, d :: reads⟩ :: rest := by
      have hsame := fetch_active rules depth d (s.noteRead d)
      rw [hd] at hsame
      exact hsame.trans (Store.noteRead_active hactive)
    have hcomputing₁ (q : K) (hq : (s.noteRead d).isComputing q) : s₁.isComputing q := by
      simpa [Store.isComputing, hactive₁, Store.noteRead_active hactive] using hq
    have hvisit₁ : Visit rules (k :: S) ks s s₁ := by
      simpa using hnote.trans hvisit
    have hreads₁ : ∀ x ∈ d :: reads, ∃ node, Holds rules s₁ x node := by
      intro x hx
      rcases List.mem_cons.mp hx with rfl | hx
      · exact ⟨node, hholds⟩
      · obtain ⟨out, hout⟩ := hreads x hx
        exact ⟨out, hvisit₁.retains.holds hout⟩
    obtain ⟨ls, reads', hvisit', hend⟩ := ih' (.ok node.value) hnext hs₁
      (hpending₀.of_visit hvisit hcomputing₁)
      (hexecuting₀.of_retains hvisit.retains (hvisit.frame k List.mem_cons_self).2
        (hcomputing₁ k)) hactive₁ hreads₁ hrest
    exact ⟨ls ++ ks, reads', hvisit₁.trans hvisit', hend⟩
  | cancel q ih' =>
    cases hq with
    | cancel hq =>
      have hcancel : Visit rules (k :: S) [] s s.cancelPass := .of_same _ rfl rfl rfl rfl rfl
      have hpending₀ := hpending.of_visit hcancel fun _ hq => hq
      obtain ⟨ks, reads', hvisit, hend⟩ := ih' hq (s := s.cancelPass) (hs.of_same rfl rfl rfl)
        hpending₀ (hexecuting.of_retains hcancel.retains rfl fun hk => hk) hactive
        (fun d hd => by
          obtain ⟨node, hn⟩ := hreads d hd
          exact ⟨node, hcancel.retains.holds hn⟩) hf
      exact ⟨ks, reads', by simpa using hcancel.trans hvisit, hend⟩

variable [OneSort rules]

/-- Finding a memo valid is a visit. -/
theorem visit_verify (hm : s.memos.get? k = some m) (hstale : m.verifiedAt ≠ s.revision)
    (hu : Unchanged rules s m.verifiedAt m.reads) (hk : S.contains k = false) :
    Visit rules S [] s (s.verify k m) ∧ (Kept rules s → Kept rules (s.verify k m)) := by
  have hset : Sets k { m with verifiedAt := s.revision } s (s.verify k m) :=
    ⟨rfl, rfl, rfl, rfl, rfl⟩
  have hstale' (x : Memo K (V k)) (hx : s.memos.get? k = some x) : x.verifiedAt ≠ s.revision := by
    rw [hm] at hx
    cases hx
    exact hstale
  have hretains : Retains s (s.verify k m) := .of_sets hset hstale'
  have hother {d : K} (hd : (k == d) = false) :
      (s.verify k m).memos.get? d = s.memos.get? d := NodeTable.get?_set_of_unlike hd s.memos _
  constructor
  · refine ⟨rfl, rfl, rfl, ⟨[], rfl, .refl _⟩, .nil, by simp, fun d _ => ?_, ?_⟩
    · cases hd : k == d with
      | true =>
        -- the memo found valid under another spelling is the one that was there under this
        have hx : s.memos.get? d = some (NodeTable.respell hd m) := by
          rw [NodeTable.get?_respell hd, hm]
          rfl
        have hcoeval := coeval_respell hd m
        refine .inr ⟨_, hx, by rwa [hcoeval.verifiedAt], ?_, ?_⟩
        · rw [hset.memos, NodeTable.get?_set_of_beq hd, respell_memo, respell_memo]
        · rw [hcoeval.verifiedAt, hcoeval.reads]
          exact hretains.unchanged hu
      | false => exact .inl (hother hd)
    · intro d hd
      refine ⟨rfl, hother (Bool.eq_false_iff.mpr fun hkd => ?_)⟩
      exact Bool.eq_false_iff.mp hk (List.contains_iff_exists_mem_beq.mpr ⟨d, hd, hkd⟩)
  · intro hs
    refine hs.sets hset hstale' (hs.query k m hm) ?_ fun d hd => ?_
    · exact Nat.le_trans (hs.changed_le k m hm) (hs.le_revision k m hm)
    · obtain ⟨node, hn, -⟩ := hu d hd
      exact ⟨node, hn⟩

/-- A query that has no memo, or an outdated one, and is not pending is executed in a visit. -/
theorem execute_visits (ih : Visits rules depth) (hF : p.Relays fun _ => True)
    (hk : rules k = .query p) {node : Stamped (V k)} (hs : Kept rules s)
    (hpending : Pending rules S k s) (hkS : S.contains k = false)
    (hprevious : ∀ m, s.memos.get? k = some m → Outdated rules s m)
    (hf : execute (fetch rules depth) k p (s.memos.get? k) s = (.ok node, s')) :
    ∃ ks, Visit rules S ks s s' ∧ Kept rules s' ∧ Holds rules s' k node := by
  obtain ⟨-, v, s₁, hrun, rfl, rfl⟩ := execute_ok hf
  have hstart : Retains s (s.start k) := .of_same rfl rfl rfl
  have hexecuting : Executing rules (s.start k) k :=
    ⟨by simp [Store.isComputing, Store.start], fun m hm => hstart.outdated (hprevious m hm)⟩
  have hpending₀ : Pending rules S k (s.start k) := by
    refine hpending.of_retains hstart (fun _ _ => rfl) fun q hq => ?_
    simp only [Store.isComputing, Store.start, List.any_cons, Bool.or_eq_true]
    exact .inr hq
  have hactive₀ : (s.start k).active = ⟨k, []⟩ :: s.active := rfl
  have hs₀ : Kept rules (s.start k) := hs.of_same rfl rfl rfl
  obtain ⟨ks, reads, hvisit, hs₁, hactive, hreads⟩ :=
    runWith_visits ih hk hF hs₀ hpending₀ hexecuting hactive₀ (by simp) hrun
  obtain ⟨hfree, hsame⟩ := hvisit.frame k List.mem_cons_self
  have hsame : s₁.memos.get? k = s.memos.get? k := hsame
  have hrevision : s₁.revision = s.revision := hvisit.revision
  let m : Memo K (V k) :=
    { value := v, changedAt := s₁.changedAt (s.memos.get? k) v, verifiedAt := s₁.revision
      reads := s₁.currentReads }
  have hset : Sets k m s₁ (s₁.finish.keep k m) := ⟨rfl, rfl, rfl, rfl, rfl⟩
  have hstale (x : Memo K (V k)) (hx : s₁.memos.get? k = some x) : x.verifiedAt ≠ s₁.revision := by
    rw [hrevision]
    exact (hprevious x (by rwa [← hsame])).stale
  have hretains : Retains s₁ (s₁.finish.keep k m) := .of_sets hset hstale
  have hself : (s₁.finish.keep k m).memos.get? k = some m := NodeTable.get?_set_self _ k m
  have hother {d : K} (hd : (k == d) = false) :
      (s₁.finish.keep k m).memos.get? d = s₁.memos.get? d :=
    NodeTable.get?_set_of_unlike hd s₁.memos m
  have hfree' {d : K} (hd : ks.contains d = true) : (k == d) = false :=
    Bool.eq_false_iff.mpr fun hkd => by
      rw [List.contains_congr hkd, hd] at hfree
      cases hfree
  have hchanged : m.changedAt ≤ s₁.revision := by
    show s₁.changedAt (s.memos.get? k) v ≤ s₁.revision
    rw [← hsame]
    cases hx : s₁.memos.get? k with
    | none => exact Nat.le_refl _
    | some x =>
      simp only [Store.changedAt]
      split
      · exact Nat.le_trans (hs₁.changed_le k x hx) (hs₁.le_revision k x hx)
      · exact Nat.le_refl _
  refine ⟨k :: ks, ⟨hrevision, hvisit.inputs, ?_, ?_, ?_, ?_, ?_, ?_⟩, ?_, ?_⟩
  · show k :: s₁.executed = k :: ks ++ s.executed
    rw [hvisit.executed]
    rfl
  · obtain ⟨ls, hls, hperm⟩ := hvisit.started
    refine ⟨ls ++ [k], ?_, (List.perm_append_singleton k ls).trans (hperm.cons k)⟩
    show s₁.started.map Prod.fst = _
    rw [hls, List.append_assoc]
    rfl
  · refine List.pairwise_cons.mpr ⟨fun d hd => hfree' (contains_of_mem hd), hvisit.unlike⟩
  · intro d hd
    rcases List.mem_cons.mp hd with rfl | hd
    · refine ⟨fun x hx => hretains.outdated (hvisit.retains.outdated (hexecuting.2 x hx)), m,
        hself, hrevision, ?_⟩
      show s₁.changedAt (s.memos.get? d) v = s.changedAt (s.memos.get? d) v
      simp only [Store.changedAt, hrevision]
    · obtain ⟨hold, hnew⟩ := hvisit.recomputed d hd
      refine ⟨fun x hx => hretains.outdated (hold x hx), ?_⟩
      rw [hother (hfree' (contains_of_mem hd))]
      exact hnew
  · intro d hd
    rw [List.contains_cons, Bool.or_eq_false_iff] at hd
    rw [Rested, hother (BEq.symm_false hd.1)]
    rcases hvisit.rested d hd.2 with he | ⟨x, hx, hxs, hx', hu⟩
    · exact .inl he
    · exact .inr ⟨x, hx, hxs, hx', hretains.unchanged hu⟩
  · intro d hd
    have hkd : (k == d) = false := Bool.eq_false_iff.mpr fun hkd =>
      Bool.eq_false_iff.mp hkS (List.contains_iff_exists_mem_beq.mpr ⟨d, hd, hkd⟩)
    obtain ⟨hfree, he⟩ := hvisit.frame d (List.mem_cons_of_mem k hd)
    refine ⟨?_, (hother hkd).trans he⟩
    rw [List.contains_cons, BEq.comm, hkd, hfree]
    rfl
  · refine hs₁.sets hset hstale ⟨p, hk⟩ hchanged fun d hd => hreads d ?_
    have hcurrent : m.reads = reads.reverse.eraseDups := by
      simp [m, Store.currentReads, hactive]
    rw [hcurrent] at hd
    exact List.mem_reverse.mp (mem_of_mem_eraseDups hd)
  · exact .memo hself rfl rfl

theorem revalidate_visits (ih : Visits rules depth) (hF : p.Relays fun _ => True)
    (hk : rules k = .query p) {node : Stamped (V k)} (hs : Kept rules s)
    (hpending : Pending rules S k s) (hkS : S.contains k = false) (hm : s.memos.get? k = some m)
    (hf : revalidate (fetch rules depth) k p m s = (.ok node, s')) :
    ∃ ks, Visit rules S ks s s' ∧ Kept rules s' ∧ Holds rules s' k node := by
  by_cases hvalid : m.verifiedAt = s.revision
  · simp only [revalidate, hvalid, beq_self_eq_true, if_true] at hf
    cases hf
    exact ⟨[], .refl S s, hs, .memo hm hvalid rfl⟩
  obtain ⟨b, s₁, hcheck, hend⟩ := revalidate_ok hvalid hf
  have hreads : m.reads = [] ++ m.reads := rfl
  obtain ⟨ks, hvisit, hs₁, hunchanged, houtdated⟩ :=
    unchangedSince_visits ih hk hs hpending hm hvalid hreads (by simp [Unchanged]) hcheck
  have hm₁ : s₁.memos.get? k = some m := by
    rwa [(hvisit.frame k List.mem_cons_self).2]
  have hstale₁ : m.verifiedAt ≠ s₁.revision := by rwa [hvisit.revision]
  have hvisit₁ : Visit rules S ks s s₁ := hvisit.mono fun q hq => List.mem_cons_of_mem k hq
  rcases hend with ⟨rfl, rfl, rfl⟩ | ⟨rfl, hexecute⟩
  · obtain ⟨hverify, hkept⟩ := visit_verify hm₁ hstale₁ (hunchanged rfl) hkS
    refine ⟨[] ++ ks, hvisit₁.trans hverify, hkept hs₁, ?_⟩
    exact .memo (NodeTable.get?_set_self _ k _) rfl rfl
  · have hactive : s₁.active = s.active := by
      have hactive := unchangedSince_active (fetch_active rules depth) m.verifiedAt m.reads s
      rwa [hcheck] at hactive
    have hpending₁ : Pending rules S k s₁ :=
      hpending.of_visit hvisit fun q hq => by simpa [Store.isComputing, hactive] using hq
    obtain ⟨ls, hvisit', hs', hholds⟩ := execute_visits ih hF hk hs₁ hpending₁ hkS
      (fun x hx => by
        rw [hm₁] at hx
        cases hx
        exact houtdated rfl) (by rwa [hm₁])
    exact ⟨ls ++ ks, hvisit₁.trans hvisit', hs', hholds⟩

/-- A successful read through memos is a visit, whatever reads led to it. -/
theorem fetch_visits (hF : ∀ k p, rules k = .query p → p.Relays fun _ => True) (depth : Nat) :
    Visits rules depth := by
  induction depth with
  | zero =>
    intro S k s node s' hs _ hf
    cases hk : rules k with
    | input absent =>
      rw [fetch_input hk] at hf
      cases hf
      exact ⟨[], .refl S s, hs, .input hk rfl⟩
    | refused e => simp [fetch, hk] at hf
    | query p => simp [fetch, hk] at hf
  | succ depth ih =>
    intro S k s node s' hs hpending hf
    cases hk : rules k with
    | input absent =>
      rw [fetch_input hk] at hf
      cases hf
      exact ⟨[], .refl S s, hs, .input hk rfl⟩
    | refused e => simp [fetch, hk] at hf
    | query p =>
      have hkS : S.contains k = false :=
        Bool.eq_false_iff.mpr fun hkS => hpending.not_ok hkS hs hkS hf
      cases hm : s.memos.get? k with
      | none =>
        rw [fetch_of_unkept hk depth hm, ← hm] at hf
        exact execute_visits ih (hF k p hk) hk hs hpending hkS (by simp [hm]) hf
      | some m =>
        rw [fetch_of_kept hk depth hm] at hf
        exact revalidate_visits ih (hF k p hk) hk hs hpending hkS hm hf

/-- A program run from outside that ends with a value is a visit. -/
theorem Program.Relays.run_visits (hF : ∀ k p, rules k = .query p → p.Relays fun _ => True)
    {q : Program K V α} (hq : q.Relays fun _ => True) {a : α} (hs : Kept rules s)
    (hidle : s.active = []) (hf : q.run rules depth s = (.ok a, s')) :
    ∃ ks, Visit rules [] ks s s' ∧ Kept rules s' := by
  induction q generalizing s with
  | done b =>
    cases hf
    exact ⟨[], .refl _ _, hs⟩
  | fail e => cases hf
  | read d next ih =>
    obtain ⟨node, s₁, hd, hnext, hrest⟩ := Program.runWith_read hq hf
    rw [Store.noteRead_of_idle hidle] at hd
    obtain ⟨ks, hvisit, hs₁, -⟩ := fetch_visits hF depth [] d s node s₁ hs (by simp [Pending]) hd
    have hidle₁ : s₁.active = [] := by
      have hactive := fetch_active rules depth d s
      rw [hd] at hactive
      exact hactive.trans hidle
    obtain ⟨ls, hvisit', hs'⟩ := ih (.ok node.value) hnext hs₁ hidle₁ hrest
    exact ⟨ls ++ ks, hvisit.trans hvisit', hs'⟩
  | cancel q ih =>
    cases hq with
    | cancel hq =>
      have hcancel : Visit rules [] [] s s.cancelPass := .of_same _ rfl rfl rfl rfl rfl
      obtain ⟨ks, hvisit, hs'⟩ := ih hq (s := s.cancelPass) (hs.of_same rfl rfl rfl) hidle hf
      exact ⟨ks, by simpa using hcancel.trans hvisit, hs'⟩

end SceneCodegen.Graph
