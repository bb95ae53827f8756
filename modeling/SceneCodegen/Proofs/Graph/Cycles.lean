import SceneCodegen.Proofs.Graph.Consistency

/-!
# Cycles

Where finitely many nodes have queries, a node has no outcome just if its memo-free evaluation comes
back to a node that is being computed. Whatever memos there are, a read of it then ends with a
cycle, and a read of any other node ends as the node does.
-/
namespace SceneCodegen.Graph

variable {K : Type} {V : K → Type} {α : Type} {rules : Rules K V} {inputs : Inputs K V}

/-- The memo-free evaluation of a node, begun while others are being computed, comes back to a query
that is being computed before anything fails. -/
inductive Reenters [BEq K] (rules : Rules K V) (inputs : Inputs K V) : List K → K → Prop
  | here {computing : List K} {k : K} {p : Program K V (V k)} (hk : rules k = .query p)
      (hc : computing.contains k = true) : Reenters rules inputs computing k
  | read {computing : List K} {k d : K} {p : Program K V (V k)} {ks : List K}
      {next : Except (Failure K) (V d) → Program K V (V k)} (hk : rules k = .query p)
      (hc : computing.contains k = false) (hp : p.Reaches rules inputs ks (.read d next))
      (h : Reenters rules inputs (k :: computing) d) : Reenters rules inputs computing k

/-- A node whose evaluation comes back to nodes that it settles before does not settle. -/
theorem Reenters.not_settles [BEq K] [LawfulBEq K] {computing : List K} {k : K}
    (h : Reenters rules inputs computing k)
    (hb : ∀ c ∈ computing, Before rules inputs k c) : ¬ Settles rules inputs k := by
  induction h with
  | @here computing k p hk hc => exact (hb k (List.contains_iff_mem.mp hc)).irrefl
  | @read computing k d p ks next hk hc hp h ih =>
    have hdk : Before rules inputs d k := before_of_reaches hk hp
    have hd : ¬ Settles rules inputs d := by
      refine ih fun c hmem => ?_
      rcases List.mem_cons.mp hmem with rfl | hmem
      · exact hdk
      · exact hdk.trans (hb c hmem)
    rintro ⟨n, hn⟩
    obtain ⟨m, -, hm⟩ := hdk n hn
    exact hd ⟨m, hm⟩

/-- A program that never ends comes to read a node that never settles. -/
theorem Program.exists_unsettled_read (p : Program K V α)
    (h : ∀ n, ¬ Ended (p.settleWith (settle rules inputs n))) :
    ∃ ks d next, p.Reaches rules inputs ks (.read d next) ∧ ¬ Settles rules inputs d := by
  induction p with
  | done a => exact absurd (ended_ok _) (h 0)
  | fail e => exact absurd (ended_failed e) (h 0)
  | read k next ih =>
    by_cases hk : Settles rules inputs k
    · obtain ⟨m, hm⟩ := hk
      cases hr : settle rules inputs m k with
      | error halt =>
        refine absurd ?_ (h m)
        simp only [settleWith, hr]
        exact ended_error_iff.mpr (ended_error_iff.mp (by rwa [hr] at hm))
      | ok v =>
        have hnext (n : Nat) : ¬ Ended ((next (.ok v)).settleWith (settle rules inputs n)) := by
          intro hn
          have hend := (ended_map_iff (fun x => (k :: x.1, x.2)) _).mpr
            (by rwa [settleWith_mono (fun d hd => settle_mono (Nat.le_max_right m n) hd) _ hn] :
              Ended ((next (.ok v)).settleWith (settle rules inputs (max m n))))
          refine h (max m n) ?_
          simp only [settleWith, settle_ok_mono (Nat.le_max_left m n) hr]
          exact hend
        obtain ⟨ks, d, last, hreach, hd⟩ := ih (.ok v) hnext
        exact ⟨k :: ks, d, last, .read hr hreach, hd⟩
    · exact ⟨[], k, next, .here _, hk⟩
  | cancel next ih =>
    obtain ⟨ks, d, last, hreach, hd⟩ := ih h
    exact ⟨ks, d, last, .cancel hreach, hd⟩

/-- A node that does not settle is a query that comes to read such a node. -/
theorem exists_follows_of_not_settles {k : K} (h : ¬ Settles rules inputs k) :
    ∃ p ks d next, rules k = .query p ∧ p.Reaches rules inputs ks (.read d next) ∧
      ¬ Settles rules inputs d := by
  cases hk : rules k with
  | input absent => exact absurd ⟨0, by simp [settle_input hk]⟩ h
  | refused e => exact absurd ⟨0, by simp [settle_refused hk]⟩ h
  | query p =>
    have hp (n : Nat) : ¬ Ended (p.settleWith (settle rules inputs n)) := fun hn =>
      h ⟨n + 1, by rwa [settle_succ hk, ended_map_iff]⟩
    obtain ⟨ks, d, next, hreach, hd⟩ := p.exists_unsettled_read hp
    exact ⟨p, ks, d, next, rfl, hreach, hd⟩

/-- All queries are among some nodes. -/
def QueriesIn [BEq K] (rules : Rules K V) (queries : List K) : Prop :=
  ∀ k p, rules k = .query p → queries.contains k = true

/-- The nodes that do not settle form a loop. -/
theorem exists_loop [BEq K] [LawfulBEq K] {queries : List K} (hq : QueriesIn rules queries) {k : K}
    (h : ¬ Settles rules inputs k) :
    ∃ C, Loop rules inputs C ∧ k ∈ C := by
  classical
  have hmem {d : K} (hd : ¬ Settles rules inputs d) :
      d ∈ queries.filter fun d => ¬ Settles rules inputs d := by
    obtain ⟨p, -, -, -, hk, -⟩ := exists_follows_of_not_settles hd
    exact List.mem_filter.mpr ⟨List.contains_iff_mem.mp (hq d p hk), by simpa using hd⟩
  refine ⟨queries.filter fun d => ¬ Settles rules inputs d, fun c hc => ?_, hmem h⟩
  have hstuck : ¬ Settles rules inputs c := by simpa using (List.mem_filter.mp hc).2
  obtain ⟨p, ks, d, next, hk, hreach, hd⟩ := exists_follows_of_not_settles hstuck
  exact ⟨d, hmem hd, p, ks, next, hk, hreach⟩

section
variable [BEq K] [Coherent K V] [∀ k, BEq (V k)] [Node K]

/-- Reads of a node end whatever the store holds; they fail with a cycle where the memo-free
evaluation of the inputs of the store comes back to a node being computed, and only there, unless a
query's own failure is of that class; and they leave nothing computing, and every node fresh. -/
structure EndsExactly (rules : Rules K V) (L : Likeness K V) (s : Store K V) (k : K) : Prop where
  ends : ∃ N, ∀ depth, N ≤ depth → Ended ((Program.get k).run rules depth s).1
  cycle : Reenters rules s.input? [] k → ∃ N, ∀ depth, N ≤ depth → ∃ e,
    ((Program.get k).run rules depth s).1 = .error (.failed e) ∧
      (e.kind = "CycleError" ∨ s.token ≠ none ∧ e.kind = "GenerationCancelled")
  of_cycle : ∀ depth e, ((Program.get k).run rules depth s).1 = .error (.failed e) →
    e.kind = "CycleError" → Reenters rules s.input? [] k ∨
      ∃ n e', settle rules s.input? n k = .error (.failed e') ∧ e'.kind = "CycleError"
  idle : ∀ depth, ((Program.get k).run rules depth s).2.active = []
  fresh : ∀ depth history,
    (follow rules history ((Program.get k).run rules depth s).2).token = none →
    ∀ j, Fresh rules L (follow rules history ((Program.get k).run rules depth s).2) j

end

variable [BEq K] [LawfulBEq K]

/-- The evaluation of a node that does not settle goes on to further such nodes until none is left
that is not being computed. -/
theorem reenters_of_not_settles (remaining computing : List K)
    (hrem : ∀ k p, rules k = .query p → k ∈ remaining ∨ k ∈ computing) (k : K)
    (h : ¬ Settles rules inputs k) : Reenters rules inputs computing k := by
  obtain ⟨p, ks, d, next, hk, hreach, hd⟩ := exists_follows_of_not_settles h
  cases hc : computing.contains k with
  | true => exact .here hk hc
  | false =>
    have hmem : k ∈ remaining := (hrem k p hk).resolve_right fun hmem =>
      Bool.eq_false_iff.mp hc (List.contains_iff_mem.mpr hmem)
    have hlen := List.length_erase_of_mem hmem
    have hpos := List.length_pos_of_mem hmem
    refine .read hk hc hreach (reenters_of_not_settles (remaining.erase k) (k :: computing) ?_ d hd)
    intro x q hx
    by_cases hxk : x = k
    · exact .inr (by simp [hxk])
    · rcases hrem x q hx with hx | hx
      · exact .inl ((List.mem_erase_of_ne hxk).mpr hx)
      · exact .inr (List.mem_cons_of_mem k hx)
termination_by remaining.length

/-- With finitely many queries, just the nodes without an outcome are those whose evaluation comes
back to a node being computed. -/
theorem reenters_iff {queries : List K} (hq : QueriesIn rules queries) {k : K} :
    Reenters rules inputs [] k ↔ ¬ Settles rules inputs k := by
  constructor
  · intro h
    exact h.not_settles (by simp)
  · exact reenters_of_not_settles queries []
      (fun x q hx => .inl (List.contains_iff_mem.mp (hq x q hx))) k

variable [∀ k, BEq (V k)] [Node K] {L : Likeness K V} {s : Store K V}

section
variable (h : Propagating rules L) {queries : List K} (hq : QueriesIn rules queries)
  (hs : AtRest rules L s)
include h hq hs

/-- Every read at rest ends. -/
theorem Propagating.halts (k : K) : Halts rules k s := by
  obtain ⟨past, hsound⟩ := hs.exists_sound
  have hloop (C : List K) : InLoop rules L past s.revision C s :=
    ⟨rfl, hsound, fun a ha => by rw [hs.idle] at ha; cases ha⟩
  by_cases hk : Settles rules (past s.revision) k
  · exact halts_of_settles (C := []) h.orderly h.relays (by simp [Loop]) (hloop []) hk
  · obtain ⟨C, hC, hkC⟩ := exists_loop hq hk
    obtain ⟨b, l, hb⟩ := exists_bounded hsound k
    exact halts_of_loop h.orderly h.relays hC C b l k s hkC (hloop C) (fun x hx => .inl hx) hb

omit hq in
/-- Without an outcome of its node, a read at rest fails with a cycle or with the cancellation
of its pass. -/
theorem Propagating.cycle_or_cancelled {k : K} (hk : ¬ Settles rules s.input? k) {depth : Nat}
    (hn : Ended (fetch rules depth k s).1) :
    ∃ e, (fetch rules depth k s).1 = .error (.failed e) ∧
      (e.kind = "CycleError" ∨ s.token ≠ none ∧ e.kind = "GenerationCancelled") := by
  obtain ⟨past, hpast, hserved⟩ :=
    hs.served h.orderly (steady_of_relays h.relays _) (k := k) trivial depth
  rw [← hpast] at hk
  cases hr : (fetch rules depth k s).1 with
  | ok node =>
    obtain ⟨-, n, v, hv, -⟩ := hserved.ok node hr
    exact absurd ⟨n, by rw [hv]; exact ended_ok v⟩ hk
  | error halt =>
    cases hserved.halts halt hr with
    | @cancelled g hg =>
      refine ⟨.cancelled g, rfl, .inr ⟨fun ht => ?_, rfl⟩⟩
      rw [Store.cancelled?_of_token_none (hserved.advances.token ht)] at hg
      cases hg
    | @settled n e e' he _ => exact absurd ⟨n, by rw [he]; exact ended_failed e'⟩ hk
    | @cycle c _ => exact ⟨.cycle c, rfl, .inl rfl⟩
    | tooDeep _ =>
      rw [hr] at hn
      exact absurd hn not_ended_tooDeep

theorem Propagating.endsExactly (k : K) : EndsExactly rules L s k := by
  obtain ⟨N, hN⟩ := h.halts hq hs k
  have hended {depth : Nat} (hle : N ≤ depth) : Ended (fetch rules depth k s).1 := by
    rwa [fetch_mono hle hN]
  refine ⟨⟨N, ?_⟩, fun hcycle => ⟨N, ?_⟩, ?_, ?_, ?_⟩
  · intro depth hle
    rw [run_get hs.idle, ended_map_iff]
    exact hended hle
  · intro depth hle
    obtain ⟨e, he, hkind⟩ := h.cycle_or_cancelled hs ((reenters_iff hq).mp hcycle) (hended hle)
    exact ⟨e, by rw [run_get hs.idle, he]; rfl, hkind⟩
  · intro depth e he hkind
    rw [run_get hs.idle, map_eq_error_iff] at he
    obtain ⟨past, hpast, hserved⟩ :=
      hs.served h.orderly (steady_of_relays h.relays _) (k := k) trivial depth
    have hhalts := hserved.halts _ he
    rw [hpast] at hhalts
    cases hhalts with
    | cancelled _ => exact absurd hkind (by simp [Failure.kind])
    | @settled n _ e' he' hsame => exact .inr ⟨n, e', he', hsame.trans hkind⟩
    | cycle hk => exact .inl ((reenters_iff hq).mpr hk)
  · intro depth
    exact run_idle rules depth _ hs.idle
  · intro depth history ht j
    have hrun := hs.run h.orderly (steady_of_relays h.relays _) (Program.get k).within_univ depth
    exact h.fresh (h.follow history hrun.1) ht j

end

end SceneCodegen.Graph
