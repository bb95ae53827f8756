import SceneCodegen.Proofs.Graph.Depth
import SceneCodegen.Proofs.Graph.Reading

/-!
# Halting

Every read ends at some depth when the node settles, and also when it lies on a loop of nodes that
each come to read another of them. The reads recorded in old memos are checked with no mark of the
nodes on the way, but a check that comes from one node of the loop to another finds there a memo of
a later revision, or one of the same revision at which the node settled earlier.
-/
namespace SceneCodegen.Graph

variable {K : Type} {V : K → Type} {α : Type} {rules : Rules K V} {inputs : Inputs K V}

/-- A node comes to read another, having read nodes that settle. -/
def Follows (rules : Rules K V) (inputs : Inputs K V) (k d : K) : Prop :=
  ∃ p ks next, rules k = .query p ∧ p.Reaches rules inputs ks (.read d next)

/-- Nodes each of which comes to read another of them. -/
def Loop (rules : Rules K V) (inputs : Inputs K V) (C : List K) : Prop :=
  ∀ k ∈ C, ∃ d ∈ C, Follows rules inputs k d

theorem Loop.not_settles {C : List K} (h : Loop rules inputs C) {k : K} (hk : k ∈ C) :
    ¬ Settles rules inputs k := by
  rintro ⟨n, hn⟩
  induction n using Nat.strongRecOn generalizing k with
  | _ n ih =>
    obtain ⟨d, hd, p, ks, next, hq, hreach⟩ := h k hk
    obtain ⟨m, hm, he⟩ := ended_read_of_ended hq hreach hn
    exact ih m hm hd he

/-- A program comes to at most one node that does not settle. -/
theorem Program.Reaches.read_unique {p : Program K V α} {ks ls : List K} {d c : K}
    {next : Except (Failure K) (V d) → Program K V α}
    {last : Except (Failure K) (V c) → Program K V α}
    (h : p.Reaches rules inputs ks (.read d next)) (h' : p.Reaches rules inputs ls (.read c last))
    (hd : ¬ Settles rules inputs d) (hc : ¬ Settles rules inputs c) : d = c := by
  generalize hq : Program.read d next = q at h
  induction h generalizing ls with
  | here p =>
    subst hq
    cases h' with
    | here => rfl
    | read hv _ => exact absurd ⟨_, by rw [hv]; exact ended_ok _⟩ hd
  | read hv _ ih =>
    cases h' with
    | here => exact absurd ⟨_, by rw [hv]; exact ended_ok _⟩ hc
    | read hw h' =>
      obtain rfl := settle_ok_unique hv hw
      exact ih h' hq
  | cancel _ ih =>
    cases h' with
    | cancel h' => exact ih h' hq

/-- What a loop's node comes to read without its settling is in the loop. -/
theorem Loop.closed {C : List K} (h : Loop rules inputs C) {k : K} (hk : k ∈ C)
    {p : Program K V (V k)} (hq : rules k = .query p) {ks : List K} {d : K}
    {next : Except (Failure K) (V d) → Program K V (V k)}
    (hreach : p.Reaches rules inputs ks (.read d next)) (hd : ¬ Settles rules inputs d) :
    d ∈ C := by
  obtain ⟨c, hc, p', ls, last, hq', hreach'⟩ := h k hk
  rw [hq] at hq'
  cases hq'
  rwa [hreach.read_unique hreach' hd (h.not_settles hc)]

variable [BEq K] [LawfulBEq K] {L : Likeness K V} {past : Nat → Inputs K V} {R : Nat}
  {C : List K} {s : Store K V} {k : K}

/-- A sound store in which nothing is computed but nodes of a loop. -/
structure InLoop (rules : Rules K V) (L : Likeness K V) (past : Nat → Inputs K V) (R : Nat)
    (C : List K) (s : Store K V) : Prop where
  revision : s.revision = R
  sound : Sound rules L past s
  active : ∀ a ∈ s.active, a.key ∈ C

theorem InLoop.above (h : InLoop rules L past R C s) (hC : Loop rules (past R) C) (k : K) :
    Above rules (past R) s k :=
  fun a ha n hn => absurd ⟨n, hn⟩ (hC.not_settles (h.active a ha))

theorem InLoop.noteRead (h : InLoop rules L past R C s) (d : K) :
    InLoop rules L past R C (s.noteRead d) := by
  refine ⟨by simpa using h.revision, h.sound.of_same (by simp) (by simp) (by simp), ?_⟩
  cases hs : s.active with
  | nil => simp [Store.noteRead, hs]
  | cons a rest =>
    have hactive := h.active
    rw [hs] at hactive
    rw [Store.noteRead_active hs]
    intro b hb
    rcases List.mem_cons.mp hb with rfl | hb
    · exact hactive a List.mem_cons_self
    · exact hactive b (List.mem_cons_of_mem a hb)

/-- What is left to be done on the loop before a read of a node on it ends: how long ago its memo
was found valid, and how late the node settled then. -/
def Bounded (rules : Rules K V) (past : Nat → Inputs K V) (b l : Nat) (s : Store K V) (k : K) :
    Prop :=
  ∀ m, s.memos.get? k = some m → s.revision ≤ m.verifiedAt + b ∧
    (s.revision = m.verifiedAt + b → Ended (settle rules (past m.verifiedAt) l k))

theorem exists_bounded (h : Sound rules L past s) (k : K) :
    ∃ b l, Bounded rules past b l s k := by
  cases hm : s.memos.get? k with
  | none => exact ⟨0, 0, fun m hm' => by rw [hm] at hm'; cases hm'⟩
  | some m =>
    obtain ⟨p, n, ks, v, hk, hp, -⟩ := (h.memos k m hm).exists_run
    refine ⟨s.revision - m.verifiedAt, n + 1, fun m' hm' => ?_⟩
    rw [hm] at hm'
    cases hm'
    refine ⟨by omega, fun _ => ?_⟩
    rw [settle_succ hk, ended_map_iff, hp]
    exact ended_ok _

variable [∀ k, BEq (V k)]

/-- A read of the node ends at some depth. -/
def Halts (rules : Rules K V) (k : K) (s : Store K V) : Prop :=
  ∃ n, Ended (fetch rules n k s).1

variable [Node K] (hO : Orderly rules L)
  (hF : ∀ k p, rules k = .query p → p.Relays fun _ => True) (hC : Loop rules (past R) C)
include hO hF hC

theorem InLoop.fetch (h : InLoop rules L past R C s) (n : Nat) (k : K) :
    Served rules L past R n k (Spared rules (past R) (fun _ => True) k) (Gives rules L past R k) s
      (fetch rules n k s) ∧ InLoop rules L past R C (fetch rules n k s).2 := by
  have hserved := serves hO (steady_of_relays hF (past R)) n k s trivial h.revision h.sound
    (h.above hC k)
  refine ⟨hserved, hserved.advances.revision.trans h.revision, hserved.sound, ?_⟩
  intro a ha
  rw [fetch_active] at ha
  exact h.active a ha

theorem halts_of_settles (h : InLoop rules L past R C s) (hk : Settles rules (past R) k) :
    Halts rules k s := by
  obtain ⟨n, hn⟩ := hk
  refine ⟨n, fun he => ?_⟩
  cases (h.fetch hO hF hC n k).1.halts _ he with
  | tooDeep h => exact h n (Nat.le_refl n) hn

/-- The run of a query ends if the read does at which it will stop. -/
theorem runWith_halts {q₀ q : Program K V (V k)} (hq : q₀.Alike L SameKind (L.like k) q)
    (hqF : q.Relays fun _ => True) {ks : List K} {d : K}
    {next : Except (Failure K) (V d) → Program K V (V k)}
    (hreach : q₀.Reaches rules (past R) ks (.read d next)) (hd : ¬ Settles rules (past R) d)
    {reads : List K} {rest : List (Active K)} (ha : s.active = ⟨k, reads⟩ :: rest)
    (h : InLoop rules L past R C s)
    (hhalts : ∀ s' reads', InLoop rules L past R C s' → s'.active = ⟨k, reads'⟩ :: rest →
      Halts rules d s') :
    ∃ n, Ended (q.runWith (Graph.fetch rules n) s).1 := by
  generalize hr : Program.read d next = r at hreach
  induction hreach generalizing q s reads with
  | here r =>
    subst hr
    cases hq with
    | @read _ _ next' _ =>
      obtain ⟨n, hn⟩ := hhalts _ _ (h.noteRead d) (Store.noteRead_active ha)
      have hserved := ((h.noteRead d).fetch hO hF hC n d).1
      refine ⟨n, ?_⟩
      simp only [Program.runWith]
      generalize Graph.fetch rules n d (s.noteRead d) = out at hn hserved
      obtain ⟨result, s'⟩ := out
      cases result with
      | ok node =>
        obtain ⟨-, m, v, hv, -⟩ := hserved.ok node rfl
        exact absurd ⟨m, by rw [hv]; exact ended_ok v⟩ hd
      | error halt =>
        cases halt with
        | tooDeep => exact absurd hn not_ended_tooDeep
        | failed e =>
          cases hqF with
          | read hfail _ => simp [hfail e trivial, Program.runWith]
  | @read x next₀ m v ls q₀ hv hreach ih =>
    cases hq with
    | @read _ _ next' hnext =>
      obtain ⟨n, hn⟩ := halts_of_settles hO hF hC (h.noteRead x)
        ⟨m, by rw [hv]; exact ended_ok v⟩
      have hfetch := (h.noteRead x).fetch hO hF hC n x
      have hactive := (fetch_active rules n x (s.noteRead x)).trans (Store.noteRead_active ha)
      cases hqF with
      | read hfail hqF =>
        cases he : Graph.fetch rules n x (s.noteRead x) with
        | mk result s' =>
          rw [he] at hn hfetch hactive
          cases result with
          | error halt =>
            cases halt with
            | tooDeep => exact absurd hn not_ended_tooDeep
            | failed e =>
              refine ⟨n, ?_⟩
              simp [Program.runWith, he, hfail e trivial]
          | ok node =>
            obtain ⟨-, i, w, hw, hwn⟩ := hfetch.1.ok node rfl
            obtain rfl := settle_ok_unique hv hw
            obtain ⟨j, hj⟩ := ih (hnext v node.value hwn) (hqF node.value) hactive hfetch.2 hr
            refine ⟨max n j, ?_⟩
            have hx : Graph.fetch rules (max n j) x (s.noteRead x) = (.ok node, s') := by
              rw [fetch_mono (Nat.le_max_left n j) (by rw [he]; exact hn), he]
            simp only [Program.runWith, hx]
            rwa [Program.runWith_mono (fun k s hs => fetch_mono (Nat.le_max_right n j) hs) _ hj]
  | cancel _ ih =>
    cases hq with
    | cancel hq =>
      cases hqF with
      | cancel hqF =>
        exact ih hq hqF (s := s.cancelPass) ha
          ⟨h.revision, h.sound.of_same rfl rfl rfl, h.active⟩ hr

/-- Checking what was read for a memo ends if the reads of its nodes on the loop do. -/
theorem unchangedSince_halts {p : Program K V (V k)} (hk : rules k = .query p) {r n : Nat}
    {ks : List K} {v : V k} (hr : r ≤ R)
    (hp : p.settleWith (settle rules (past r) n) = .ok (ks, v)) {first rest : List K}
    (hks : ks.eraseDups = first ++ rest) (h : InLoop rules L past R C s)
    (ht : ∀ d ∈ ks, TracksFrom rules L past s r d)
    (hfirst : ∀ d ∈ first, Recurs rules L past R r d) (hkC : k ∈ C)
    (hhalts : ∀ d ∈ ks, d ∈ C → ∀ s', InLoop rules L past R C s' → s'.active = s.active →
      TracksFrom rules L past s' r d → Halts rules d s') :
    ∃ n, Ended (unchangedSince (Graph.fetch rules n) r rest s).1 := by
  induction rest generalizing first s with
  | nil => exact ⟨0, by simp [unchangedSince]⟩
  | cons d rest ih =>
    obtain ⟨hmem, before, next, hreach⟩ := exists_reaches_of_recorded hO hk hp hks hfirst
    have hd : Halts rules d s := by
      by_cases hd : Settles rules (past R) d
      · exact halts_of_settles hO hF hC h hd
      · exact hhalts d hmem (hC.closed hkC hk hreach hd) s h rfl (ht d hmem)
    obtain ⟨n, hn⟩ := hd
    have hfetch := h.fetch hO hF hC n d
    have hactive := fetch_active rules n d s
    cases he : Graph.fetch rules n d s with
    | mk result s' =>
      rw [he] at hn hfetch hactive
      cases result with
      | error halt =>
        refine ⟨n, ?_⟩
        simp only [unchangedSince, he]
        exact ended_error_iff.mpr (ended_error_iff.mp hn)
      | ok node =>
        by_cases hc : r < node.changedAt
        · exact ⟨n, by simp [unchangedSince, he, hc]⟩
        · have hadv := hfetch.1.advances
          have htracks (x : K) (hx : x ∈ ks) : TracksFrom rules L past s' r x :=
            hadv.tracks r x (by rw [h.revision]; exact hr) (ht x hx)
          have hrecurs := (hfetch.1.ok node rfl).recurs hfetch.1.sound hfetch.2.revision hr
            (htracks d hmem) (Nat.le_of_not_lt hc)
          have hks' : ks.eraseDups = (first ++ [d]) ++ rest := by simpa using hks
          obtain ⟨j, hj⟩ := ih hks' hfetch.2 htracks
            (fun x hx => by
              rcases List.mem_append.mp hx with hx | hx
              · exact hfirst x hx
              · rw [List.mem_singleton.mp hx]
                exact hrecurs)
            (fun x hx hxC s'' h'' ha'' => hhalts x hx hxC s'' h'' (ha''.trans hactive))
          refine ⟨max n j, ?_⟩
          have hx : Graph.fetch rules (max n j) d s = (.ok node, s') := by
            rw [fetch_mono (Nat.le_max_left n j) (by rw [he]; exact hn), he]
          simp only [unchangedSince, hx, hc, if_false]
          rwa [unchangedSince_mono (fun k s hs => fetch_mono (Nat.le_max_right n j) hs) _ _ hj]

/-- A query of the loop that is to be computed ends if, while it is computing, the reads on the loop
do. -/
theorem execute_halts {p : Program K V (V k)} (hk : rules k = .query p)
    (previous : Option (Memo K (V k))) (h : InLoop rules L past R C s) (hkC : k ∈ C)
    (hhalts : s.isComputing k = false → ∀ d ∈ C, ∀ s' reads, InLoop rules L past R C s' →
      s'.active = ⟨k, reads⟩ :: s.active → Halts rules d s') :
    ∃ n, Ended (execute (Graph.fetch rules n) k p previous s).1 := by
  cases hc : s.isComputing k with
  | true => exact ⟨0, by simp [execute, hc]⟩
  | false =>
    cases hg : s.cancelled? with
    | some g => exact ⟨0, by simp [execute, hc, hg]⟩
    | none =>
      obtain ⟨d, hd, p', ks, next, hk', hreach⟩ := hC k hkC
      rw [hk] at hk'
      cases hk'
      have hstart : InLoop rules L past R C (s.start k) := by
        refine ⟨h.revision, h.sound.of_same rfl rfl rfl, ?_⟩
        intro a ha
        rcases List.mem_cons.mp ha with rfl | ha
        · exact hkC
        · exact h.active a ha
      obtain ⟨n, hn⟩ := runWith_halts hO hF hC (hO.alike k p hk) (hF k p hk) hreach
        (hC.not_settles hd) (s := s.start k) rfl hstart
        fun s' reads h' ha' => hhalts hc d hd s' reads h' ha'
      refine ⟨n, ?_⟩
      simp only [execute, hc, hg, compute]
      generalize p.runWith (Graph.fetch rules n) (s.start k) = out at hn
      obtain ⟨result, s'⟩ := out
      cases result with
      | ok v => exact ended_ok _
      | error halt => exact ended_error_iff.mpr (ended_error_iff.mp hn)

/-- The read of a query of the loop through its memo ends if, with the query computing or not, the
reads on the loop do. -/
theorem revalidate_halts {p : Program K V (V k)} (hk : rules k = .query p) {m : Memo K (V k)}
    (hm : s.memos.get? k = some m) (h : InLoop rules L past R C s) (hkC : k ∈ C)
    (hcomputing : s.isComputing k = false → ∀ d ∈ C, ∀ s' reads, InLoop rules L past R C s' →
      s'.active = ⟨k, reads⟩ :: s.active → Halts rules d s')
    (hsame : ∀ d ∈ m.reads, d ∈ C → ∀ s', InLoop rules L past R C s' → s'.active = s.active →
      TracksFrom rules L past s' m.verifiedAt d → Halts rules d s') :
    ∃ n, Ended (revalidate (Graph.fetch rules n) k p m s).1 := by
  by_cases hnow : m.verifiedAt = s.revision
  · exact ⟨0, by simp [revalidate, hnow]⟩
  have hback := h.sound.memos k m hm
  obtain ⟨q, n, ks, v, hq, hp, hv, hreads, ht⟩ := hback.exists_run
  obtain rfl : p = q := by
    rw [hk] at hq
    cases hq
    rfl
  have hle : m.verifiedAt ≤ R := by
    rw [← h.revision]
    exact hback.le_revision
  have hks : ks.eraseDups = [] ++ m.reads := hreads.symm
  obtain ⟨i, hi⟩ := unchangedSince_halts hO hF hC hk hle hp hks h ht (by simp) hkC
    fun d hd => hsame d (by rw [hreads]; exact List.mem_eraseDups.mpr hd)
  have hu := unchangedSince_served hO (steady_of_relays hF (past R))
    (serves hO (steady_of_relays hF (past R)) i) trivial hk hle hp hks h.revision h.sound
    (h.above hC k) ht (by simp)
  have hactive := unchangedSince_active (fetch_active rules i) m.verifiedAt m.reads s
  cases he : unchangedSince (Graph.fetch rules i) m.verifiedAt m.reads s with
  | mk result s₁ =>
    rw [he] at hi hu hactive
    cases result with
    | error halt =>
      refine ⟨i, ?_⟩
      simp only [revalidate, he, beq_iff_eq, hnow, if_false]
      exact ended_error_iff.mpr (ended_error_iff.mp hi)
    | ok unchanged =>
      cases unchanged with
      | true => exact ⟨i, by simp [revalidate, he, hnow]⟩
      | false =>
        have h₁ : InLoop rules L past R C s₁ := by
          refine ⟨hu.advances.revision.trans h.revision, hu.sound, fun a ha => ?_⟩
          rw [hactive] at ha
          exact h.active a ha
        obtain ⟨j, hj⟩ := execute_halts hO hF hC hk (some m) h₁ hkC
          (by simpa [Store.isComputing, show s₁.active = s.active from hactive] using hcomputing)
        refine ⟨max i j, ?_⟩
        have hx : unchangedSince (Graph.fetch rules (max i j)) m.verifiedAt m.reads s =
            (.ok false, s₁) := by
          rw [unchangedSince_mono (fun k s hs => fetch_mono (Nat.le_max_left i j) hs) _ _
            (by rw [he]; exact ended_ok false), he]
        simp only [revalidate, hx, beq_iff_eq, hnow, if_false]
        rwa [execute_mono (fun k s hs => fetch_mono (Nat.le_max_right i j) hs) k p (some m) hj]

/-- Every read of a node of the loop ends. -/
theorem halts_of_loop (remaining : List K) (b l : Nat) (k : K) (s : Store K V) (hkC : k ∈ C)
    (h : InLoop rules L past R C s) (hrem : ∀ x ∈ C, x ∈ remaining ∨ s.isComputing x)
    (hb : Bounded rules past b l s k) : Halts rules k s := by
  have hcomputing : s.isComputing k = false → ∀ d ∈ C, ∀ s' reads,
      InLoop rules L past R C s' → s'.active = ⟨k, reads⟩ :: s.active → Halts rules d s' := by
    intro hc d hd s' reads h' ha'
    have hmem : k ∈ remaining := by
      rcases hrem k hkC with hmem | hk
      · exact hmem
      · rw [hc] at hk
        cases hk
    have hlen := List.length_erase_of_mem hmem
    have hpos := List.length_pos_of_mem hmem
    obtain ⟨b', l', hb'⟩ := exists_bounded h'.sound d
    refine halts_of_loop (remaining.erase k) b' l' d s' hd h' ?_ hb'
    intro x hx
    by_cases hxk : x = k
    · exact .inr (by simp [Store.isComputing, ha', hxk])
    · rcases hrem x hx with hmem | hx
      · exact .inl ((List.mem_erase_of_ne hxk).mpr hmem)
      · refine .inr ?_
        simp only [Store.isComputing, ha', List.any_cons, Bool.or_eq_true]
        exact .inr hx
  obtain ⟨d, hd, p, ks, next, hk, hreach⟩ := hC k hkC
  cases hm : s.memos.get? k with
  | none =>
    obtain ⟨n, hn⟩ := execute_halts hO hF hC hk none h hkC hcomputing
    exact ⟨n + 1, by simpa [Graph.fetch, hk, hm] using hn⟩
  | some m =>
    have hsame : ∀ d ∈ m.reads, d ∈ C → ∀ s', InLoop rules L past R C s' → s'.active = s.active →
        TracksFrom rules L past s' m.verifiedAt d → Halts rules d s' := by
      intro d hmem hd s' h' ha' htd
      obtain ⟨q, n, ks, v, hq, hp, hv, hreads, ht⟩ := (h.sound.memos k m hm).exists_run
      rw [hreads] at hmem
      have hmem : d ∈ ks := List.mem_eraseDups.mp hmem
      have hrem' : ∀ x ∈ C, x ∈ remaining ∨ s'.isComputing x := by
        simpa [Store.isComputing, ha'] using hrem
      obtain ⟨w, hw⟩ := q.exists_of_mem_reads hp hmem
      have hR : s'.revision = s.revision := h'.revision.trans h.revision.symm
      have hle := (h.sound.memos k m hm).le_revision
      obtain ⟨hbound, hlevel⟩ := hb m hm
      by_cases hlt : s.revision < m.verifiedAt + b
      · refine halts_of_loop remaining (s.revision - m.verifiedAt) n d s' hd h' hrem' ?_
        intro m' hm'
        obtain ⟨hge, -⟩ := htd n w hw m' hm'
        refine ⟨by omega, fun he => ?_⟩
        have heq : m'.verifiedAt = m.verifiedAt := by omega
        rw [heq, hw]
        exact ended_ok w
      · obtain ⟨l', hl', hended⟩ := ended_of_mem_reads hq hp (hlevel (by omega)) hmem
        refine halts_of_loop remaining b l' d s' hd h' hrem' ?_
        intro m' hm'
        obtain ⟨hge, -⟩ := htd n w hw m' hm'
        refine ⟨by omega, fun he => ?_⟩
        have heq : m'.verifiedAt = m.verifiedAt := by omega
        rwa [heq]
    obtain ⟨n, hn⟩ := revalidate_halts hO hF hC hk hm h hkC hcomputing hsame
    exact ⟨n + 1, by simpa [Graph.fetch, hk, hm] using hn⟩
termination_by (remaining.length, b, l)

end SceneCodegen.Graph
