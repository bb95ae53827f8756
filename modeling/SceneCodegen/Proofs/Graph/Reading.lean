import SceneCodegen.Proofs.Graph.Soundness

/-!
# Reading through memos

A read keeps every memo sound and gives what the node settles to, from any sound store and at any
moment of other computations. The parts of a read are treated one by one, given that reads at a
smaller depth do so.
-/
namespace SceneCodegen.Graph

variable {K : Type} {V : K → Type} {α : Type} [BEq K] [LawfulBEq K] [Node K]
  {rules : Rules K V} {L : Likeness K V} {past : Nat → Inputs K V} {s : Store K V} {k : K}
  {R : Nat}

section
variable (rules L past R)

/-- A part of the reading of a node that keeps the store sound. -/
structure Served (depth : Nat) (k : K) (A : K → Prop) (good : α → Store K V → Prop)
    (s : Store K V) (out : Except (Halt K) α × Store K V) : Prop where
  sound : Sound rules L past out.2
  advances : Advances rules L past A s out.2
  ok : ∀ a, out.1 = .ok a → good a out.2
  halts : ∀ halt, out.1 = .error halt → HaltsAs rules (past R) depth out.2 k halt

/-- A query's run ends where its program gets, having noted the nodes it read. -/
def Runs (k : K) (p : Program K V (V k)) (rest : List (Active K)) (v : V k)
    (s : Store K V) : Prop :=
  ∃ ks v', s.active = ⟨k, ks.reverse⟩ :: rest ∧ p.Reaches rules (past R) ks (.done v') ∧
    L.like k v' v ∧ ∀ d ∈ ks, TracksFrom rules L past s R d

end

/-- Outside a pass, a read that is served ends as the node settles. -/
theorem Served.agree {depth n : Nat} {A : K → Prop}
    {out : Except (Halt K) (Stamped (V k)) × Store K V}
    (h : Served rules L past R depth k A (Gives rules L past R k) s out) (ht : s.token = none)
    (hle : n ≤ depth) (hn : Ended (settle rules (past R) n k)) :
    Agree SameKind (L.like k) (settle rules (past R) n k) (out.1.map (·.value)) := by
  cases hr : out.1 with
  | ok node =>
    obtain ⟨-, m, v, hv, hvn⟩ := h.ok node hr
    rw [settle_unique hn (by rw [hv]; exact ended_ok v), hv]
    exact .ok hvn
  | error halt =>
    cases h.halts halt hr with
    | cancelled hg =>
      rw [Store.cancelled?_of_token_none (h.advances.token ht)] at hg
      cases hg
    | @settled m e e' hm he =>
      rw [settle_unique hn (by rw [hm]; exact ended_failed e'), hm]
      exact .failed he
    | cycle hc => exact absurd ⟨n, hn⟩ hc
    | tooDeep hd => exact absurd hn (hd n hle)

theorem refused_served {depth : Nat} {e : Failure K} (hk : rules k = .refused e) {s : Store K V}
    (hs : Sound rules L past s) (A : K → Prop) :
    Served rules L past R depth k A (Gives rules L past R k) s (.error (.failed e), s) := by
  refine ⟨hs, .refl _ s, by simp, ?_⟩
  intro halt he
  cases he
  exact .settled (settle_refused hk 0) rfl

variable [∀ k, BEq (V k)]

section
variable (rules L past R)

/-- Reads of the nodes of a set at a depth are served. -/
def Serves (T : K → Prop) (depth : Nat) : Prop :=
  ∀ d s, T d → s.revision = R → Sound rules L past s → Above rules (past R) s d →
    Served rules L past R depth d (Spared rules (past R) T d) (Gives rules L past R d) s
      (fetch rules depth d s)

end

variable {T : K → Prop} {depth : Nat} {p : Program K V (V k)}

/-- While the nodes recorded first recur, the one recorded next is read again. -/
theorem exists_reaches_of_recorded (hO : Orderly rules L) (hk : rules k = .query p) {r n : Nat}
    {ks first rest : List K} {d : K} {v : V k}
    (hp : p.settleWith (settle rules (past r) n) = .ok (ks, v))
    (hks : ks.eraseDups = first ++ d :: rest) (hfirst : ∀ x ∈ first, Recurs rules L past R r x) :
    d ∈ ks ∧ ∃ before next, p.Reaches rules (past R) before (.read d next) := by
  obtain ⟨before, after, hsplit, hbefore⟩ := exists_split_of_eraseDups hks
  refine ⟨by rw [hsplit]; simp, before, ?_⟩
  rw [hsplit] at hp
  exact (hO.alike k p hk).reaches_read hp fun x hx w hw => hfirst x (hbefore x hx) n w hw

/-- A program run for a query is served from wherever the query's program has got to. -/
theorem runWith_served (hT : Steady rules (past R) T) (ih : Serves rules L past R T depth)
    (hTk : T k) (hk : rules k = .query p) {q₀ q : Program K V (V k)}
    (hq : q₀.Alike L SameKind (L.like k) q) (hF : q.Relays IsCancellation)
    (hP : q.Relays (fun _ => True) ∨ ∃ n v, settle rules (past R) n k = .ok v)
    {s : Store K V} {ks : List K} {rest : List (Active K)} (hR : s.revision = R)
    (hs : Sound rules L past s) (hp : p.Reaches rules (past R) ks q₀)
    (ha : s.active = ⟨k, ks.reverse⟩ :: rest) (hb : ∀ a ∈ rest, Before rules (past R) k a.key)
    (ht : ∀ d ∈ ks, TracksFrom rules L past s R d) :
    Served rules L past R (depth + 1) k (SparedWithin rules (past R) T k)
      (Runs rules L past R k p rest) s (q.runWith (fetch rules depth) s) := by
  induction hq generalizing s ks with
  | @done v w h =>
    refine ⟨hs, .refl _ s, ?_, by simp [Program.runWith]⟩
    intro a hw
    cases hw
    exact ⟨ks, v, ha, hp, h, ht⟩
  | @fail e e' h =>
    refine ⟨hs, .refl _ s, by simp [Program.runWith], ?_⟩
    intro halt he
    cases he
    obtain ⟨n, hn⟩ := settles_of_reaches_fail hk hp
    exact .settled hn h
  | @read d next next' hnext ih' =>
    have hbd := before_of_reaches hk hp
    have hactive := Store.noteRead_active (k := d) ha
    have habove : Above rules (past R) (s.noteRead d) d := by
      intro a hmem
      rw [hactive] at hmem
      rcases List.mem_cons.mp hmem with rfl | hmem
      · exact hbd
      · exact hbd.trans (hb a hmem)
    have hd := ih d (s.noteRead d) (hT.closed k p ks d next hTk hk hp) (by simpa using hR)
      (hs.of_same (by simp) (by simp) (by simp)) habove
    have hda := (fetch_active rules depth d (s.noteRead d)).trans hactive
    simp only [Program.runWith]
    generalize fetch rules depth d (s.noteRead d) = out at hd hda
    obtain ⟨r, s'⟩ := out
    have hadv : Advances rules L past (SparedWithin rules (past R) T k) s s' :=
      (Advances.noteRead _ d s).trans (hd.advances.mono fun a h => h.read hbd)
    have hR' : s'.revision = R := hadv.revision.trans hR
    cases r with
    | ok node =>
      have hgives := hd.ok node rfl
      obtain ⟨n, v, hv, hvn⟩ := hgives.2
      cases hF with
      | read _ hF =>
        have hP' : (next' (.ok node.value)).Relays (fun _ => True) ∨
            ∃ n v, settle rules (past R) n k = .ok v := by
          rcases hP with hP | hP
          · cases hP with
            | read _ hP => exact .inl (hP node.value)
          · exact .inr hP
        have hrun := ih' v node.value hvn (hF node.value) hP' hR' hd.sound (hp.snoc hv)
          (by rw [hda]; simp) ?_
        · exact ⟨hrun.sound, hadv.trans hrun.advances, hrun.ok, hrun.halts⟩
        · intro x hx
          rcases List.mem_append.mp hx with hx | hx
          · exact hadv.tracks R x (by omega) (ht x hx)
          · rw [List.mem_singleton.mp hx]
            exact hgives.tracks hd.sound hR'
    | error halt =>
      have hhalt := hd.halts halt rfl
      cases halt with
      | tooDeep =>
        refine ⟨hd.sound, hadv, by simp, ?_⟩
        intro halt he
        cases he
        exact hhalt.of_read hk hp
      | failed e =>
        have hstop : next' (.error e) = .fail e := by
          rcases hP with hP | ⟨n, v, hv⟩
          · cases hP with
            | read hP _ => exact hP e trivial
          · obtain ⟨m, w, hw⟩ := settles_read_of_settles hk hp hv
            cases hF with
            | read hF _ => exact hF e (hhalt.isCancellation hw)
        simp only [hstop, Program.runWith]
        refine ⟨hd.sound, hadv, by simp, ?_⟩
        intro halt he
        cases he
        exact hhalt.of_read hk hp
  | @cancel q₀ q _ ih' =>
    cases hF with
    | cancel hF =>
      have hP' : q.Relays (fun _ => True) ∨ ∃ n v, settle rules (past R) n k = .ok v := by
        rcases hP with hP | hP
        · cases hP with
          | cancel hP => exact .inl hP
        · exact .inr hP
      have hadv : Advances rules L past (SparedWithin rules (past R) T k) s s.cancelPass :=
        .cancelPass _ s
      have hp' : p.Reaches rules (past R) ks q₀ := by
        simpa using hp.trans (.cancel (.here _))
      have hrun := ih' hF hP' (s := s.cancelPass) hR (hs.of_same rfl rfl rfl) hp' ha
        fun d hd => hadv.tracks R d (by omega) (ht d hd)
      exact ⟨hrun.sound, hadv.trans hrun.advances, hrun.ok, hrun.halts⟩

/-- Reading again what was read for a memo is served; if nothing changed, all has like values. -/
theorem unchangedSince_served (hO : Orderly rules L) (hT : Steady rules (past R) T)
    (ih : Serves rules L past R T depth) (hTk : T k) (hk : rules k = .query p) {r n : Nat}
    {ks : List K} {v : V k} (hr : r ≤ R)
    (hp : p.settleWith (settle rules (past r) n) = .ok (ks, v)) {first rest : List K}
    (hks : ks.eraseDups = first ++ rest) {s : Store K V} (hR : s.revision = R)
    (hs : Sound rules L past s) (ha : Above rules (past R) s k)
    (ht : ∀ d ∈ ks, TracksFrom rules L past s r d)
    (hfirst : ∀ d ∈ first, Recurs rules L past R r d ∧ TracksFrom rules L past s R d) :
    Served rules L past R (depth + 1) k (SparedWithin rules (past R) T k)
      (fun unchanged s' => unchanged = true →
        ∀ d ∈ ks, Recurs rules L past R r d ∧ TracksFrom rules L past s' R d) s
      (unchangedSince (fetch rules depth) r rest s) := by
  induction rest generalizing first s with
  | nil =>
    refine ⟨hs, .refl _ s, ?_, by simp [unchangedSince]⟩
    intro b _ _ d hd
    rw [List.append_nil] at hks
    exact hfirst d (by rw [← hks]; exact List.mem_eraseDups.mpr hd)
  | cons d rest ih' =>
    obtain ⟨hmem, before, next, hreach⟩ :=
      exists_reaches_of_recorded hO hk hp hks fun x hx => (hfirst x hx).1
    have hbd := before_of_reaches hk hreach
    have hd := ih d s (hT.closed k p before d next hTk hk hreach) hR hs
      fun a hmem => hbd.trans (ha a hmem)
    have hda := fetch_active rules depth d s
    simp only [unchangedSince]
    generalize fetch rules depth d s = out at hd hda
    obtain ⟨result, s'⟩ := out
    have hadv : Advances rules L past (SparedWithin rules (past R) T k) s s' :=
      hd.advances.mono fun a h => h.read hbd
    have hR' : s'.revision = R := hadv.revision.trans hR
    cases result with
    | error halt =>
      refine ⟨hd.sound, hadv, by simp, ?_⟩
      intro halt' he
      cases he
      exact (hd.halts halt rfl).of_read hk hreach
    | ok node =>
      have hgives := hd.ok node rfl
      simp only
      split
      · exact ⟨hd.sound, hadv, by simp, by simp⟩
      · rename_i hc
        have htd := hadv.tracks r d (by omega) (ht d hmem)
        have hks' : ks.eraseDups = (first ++ [d]) ++ rest := by simpa using hks
        have hrest := ih' hks' hR' hd.sound
          (fun a hmem => ha a (by rw [← hda]; exact hmem))
          (fun x hx => hadv.tracks r x (by omega) (ht x hx)) ?_
        · exact ⟨hrest.sound, hadv.trans hrest.advances, hrest.ok, hrest.halts⟩
        · intro x hx
          rcases List.mem_append.mp hx with hx | hx
          · exact ⟨(hfirst x hx).1, hadv.tracks R x (by omega) (hfirst x hx).2⟩
          · rw [List.mem_singleton.mp hx]
            exact ⟨hgives.recurs hd.sound hR' hr htd (Nat.le_of_not_lt hc),
              hgives.tracks hd.sound hR'⟩

/-- A value just computed is like the one of an earlier revision since which it is not said to have
changed. -/
theorem like_of_changedAt_le (hO : Orderly rules L) (hk : rules k = .query p) {n : Nat} {v v' : V k}
    (hv : settle rules (past s.revision) n k = .ok v') (hlike : L.like k v' v) {r m : Nat} {w : V k}
    (hr : r ≤ s.revision) (ht : TracksFrom rules L past s r k)
    (hw : settle rules (past r) m k = .ok w) (hc : s.changedAt (s.memos.get? k) v ≤ r) :
    L.like k w v := by
  have hnow (h : s.revision ≤ r) : L.like k w v := by
    obtain rfl : r = s.revision := Nat.le_antisymm hr h
    rwa [settle_ok_unique hw hv]
  cases hx : s.memos.get? k with
  | none => exact hnow (by simpa [Store.changedAt, hx] using hc)
  | some x =>
    simp only [Store.changedAt, hx] at hc
    split at hc
    · rename_i he
      have hwx := (ht m w hw x hx).2 hc
      exact L.trans hwx (hO.faithful k p x.value v hk (L.right hwx) (L.right hlike) he)
    · exact hnow hc

omit [Node K] in
/-- A result that is kept does not change later than now. -/
theorem Sound.changedAt_le (h : Sound rules L past s) (k : K) (v : V k) :
    s.changedAt (s.memos.get? k) v ≤ s.revision := by
  cases hx : s.memos.get? k with
  | none => exact Nat.le_refl _
  | some x =>
    have hb := h.memos k x hx
    simp only [Store.changedAt]
    split
    · exact Nat.le_trans hb.changed_le hb.le_revision
    · exact Nat.le_refl _

/-- A query that is computed is served, and its result is kept beside those of all other nodes. -/
theorem compute_served (hO : Orderly rules L) (hT : Steady rules (past R) T)
    (ih : Serves rules L past R T depth) (hTk : T k) (hk : rules k = .query p)
    {previous : Option (Memo K (V k))} {s : Store K V} (hR : s.revision = R)
    (hs : Sound rules L past s) (ha : Above rules (past R) s k)
    (hprevious : Settles rules (past R) k → s.memos.get? k = previous) :
    Served rules L past R (depth + 1) k (Spared rules (past R) T k) (Gives rules L past R k) s
      (compute (fetch rules depth) k p previous s) := by
  have hstart : (s.start k).active = ⟨k, [].reverse⟩ :: s.active := rfl
  have hrun := runWith_served hT ih hTk hk (hO.alike k p hk) (hO.relays k p hk)
    (hT.passes k p hTk hk) (s := s.start k) hR (hs.of_same rfl rfl rfl) (.here p) hstart ha
    (by simp)
  simp only [compute]
  generalize p.runWith (fetch rules depth) (s.start k) = out at hrun
  obtain ⟨result, s₁⟩ := out
  have hadv₁ : Advances rules L past (SparedWithin rules (past R) T k) s s₁ :=
    (Advances.start _ k s).trans hrun.advances
  have hR₁ : s₁.revision = R := hadv₁.revision.trans hR
  cases result with
  | error halt =>
    refine ⟨hrun.sound.of_same rfl rfl rfl,
      (hadv₁.mono fun a h => h.within).trans (.finish _ s₁), by simp, ?_⟩
    intro halt' he
    cases he
    exact (hrun.halts halt rfl).of_cancelled fun _ hg => hg
  | ok v =>
    obtain ⟨ks, v', hactive, hreach, hlike, hks⟩ := hrun.ok v rfl
    obtain ⟨n, hn⟩ := settles_of_reaches_done hk hreach
    have hsettles : Settles rules (past R) k := ⟨n, by rw [hn]; exact ended_ok v'⟩
    have hsame : s₁.memos.get? k = previous :=
      (hadv₁.frame k (.inl ⟨hsettles, .inl rfl⟩)).trans (hprevious hsettles)
    have hreads : s₁.currentReads = ks.eraseDups := by
      simp [Store.currentReads, show s₁.active = _ from hactive]
    let m : Memo K (V k) :=
      { value := v, changedAt := s₁.changedAt previous v, verifiedAt := s₁.revision
        reads := s₁.currentReads }
    have hset : Sets k m s₁ (s₁.finish.keep k m) := ⟨rfl, rfl, rfl, rfl, rfl⟩
    have hadv₂ : Advances rules L past (Spared rules (past R) T k) s₁ (s₁.finish.keep k m) := by
      refine hset.advances (fun h => h.ne hTk rfl) fun r l w hr ht hw hc => ?_
      refine like_of_changedAt_le hO hk (by rw [hR₁]; exact hn) hlike hr ht hw ?_
      rw [hsame]
      exact hc
    have hbacked : Backed rules L past (s₁.finish.keep k m) k m := by
      obtain ⟨l, hl⟩ := hreach.settleWith_done
      refine ⟨Nat.le_refl _, ?_, p, l, ks, v', hk, ?_, hlike, hreads, ?_⟩
      · show s₁.changedAt previous v ≤ s₁.revision
        rw [← hsame]
        exact hrun.sound.changedAt_le k v
      · show p.settleWith (settle rules (past s₁.revision) l) = _
        rw [hR₁]
        exact hl
      · intro d hd
        show TracksFrom rules L past _ s₁.revision d
        rw [hR₁]
        exact hadv₂.tracks R d (by omega) (hks d hd)
    refine ⟨hset.sound hrun.sound hadv₂ hbacked, (hadv₁.mono fun a h => h.within).trans hadv₂,
      ?_, by simp⟩
    intro node hnode
    cases hnode
    exact ⟨.memo (m := m) (NodeTable.get?_set_self _ k m) rfl rfl, n, v', hn, hlike⟩

theorem input_served (hO : Orderly rules L) {absent : V k} (hk : rules k = .input absent)
    {s : Store K V} (hR : s.revision = R) (hs : Sound rules L past s) (A : K → Prop) :
    Served rules L past R depth k A (Gives rules L past R k) s
      (.ok ((s.inputs.get? k).getD ⟨absent, 0⟩), s) := by
  refine ⟨hs, .refl _ s, ?_, by simp⟩
  intro node hnode
  cases hnode
  refine ⟨.input hk rfl, 0, _, settle_input hk 0, ?_⟩
  rw [← hR, hs.past_revision k]
  have hlike := hs.input_like hO hk rfl
  cases hx : s.inputs.get? k with
  | none => simpa [Store.input?, hx] using hlike
  | some x => simpa [Store.input?, hx] using hlike

theorem execute_served (hO : Orderly rules L) (hT : Steady rules (past R) T)
    (ih : Serves rules L past R T depth) (hTk : T k) (hk : rules k = .query p)
    {previous : Option (Memo K (V k))} {s : Store K V} (hR : s.revision = R)
    (hs : Sound rules L past s) (ha : Above rules (past R) s k)
    (hprevious : Settles rules (past R) k → s.memos.get? k = previous) :
    Served rules L past R (depth + 1) k (Spared rules (past R) T k) (Gives rules L past R k) s
      (execute (fetch rules depth) k p previous s) := by
  simp only [execute]
  split
  · rename_i hc
    refine ⟨hs, .refl _ s, by simp, ?_⟩
    intro halt he
    cases he
    obtain ⟨a, hmem, hak⟩ := List.any_eq_true.mp hc
    refine .cycle (Before.irrefl ?_)
    have hbefore := ha a hmem
    rwa [eq_of_beq hak] at hbefore
  · split
    · rename_i g hg
      refine ⟨hs, .refl _ s, by simp, ?_⟩
      intro halt he
      cases he
      exact .cancelled hg
    · exact compute_served hO hT ih hTk hk hR hs ha hprevious

theorem revalidate_served (hO : Orderly rules L) (hT : Steady rules (past R) T)
    (ih : Serves rules L past R T depth) (hTk : T k) (hk : rules k = .query p)
    {m : Memo K (V k)} {s : Store K V} (hR : s.revision = R)
    (hs : Sound rules L past s) (ha : Above rules (past R) s k) (hm : s.memos.get? k = some m) :
    Served rules L past R (depth + 1) k (Spared rules (past R) T k) (Gives rules L past R k) s
      (revalidate (fetch rules depth) k p m s) := by
  have hb := hs.memos k m hm
  obtain ⟨q, n, ks, v, hq, hp, hv, hreads, ht⟩ := hb.exists_run
  obtain rfl : p = q := by
    rw [hk] at hq
    cases hq
    rfl
  simp only [revalidate]
  split
  · rename_i he
    have he : m.verifiedAt = s.revision := eq_of_beq he
    refine ⟨hs, .refl _ s, ?_, by simp⟩
    intro node hnode
    cases hnode
    refine ⟨.memo hm he rfl, n + 1, v, ?_, hv⟩
    rw [← hR, ← he, settle_succ hk, hp]
    rfl
  · have hle := hb.le_revision
    have hks : ks.eraseDups = [] ++ m.reads := hreads.symm
    have hu := unchangedSince_served hO hT ih hTk hk (by omega) hp hks hR hs ha ht (by simp)
    have hua := unchangedSince_active (fetch_active rules depth) m.verifiedAt m.reads s
    generalize unchangedSince (fetch rules depth) m.verifiedAt m.reads s = out at hu hua
    obtain ⟨result, s₁⟩ := out
    have hadv₁ : Advances rules L past (SparedWithin rules (past R) T k) s s₁ := hu.advances
    have hR₁ : s₁.revision = R := hadv₁.revision.trans hR
    have hm₁ (h : Settles rules (past R) k) : s₁.memos.get? k = some m :=
      (hadv₁.frame k (.inl ⟨h, .inl rfl⟩)).trans hm
    cases result with
    | error halt =>
      refine ⟨hu.sound, hadv₁.mono fun a h => h.within, by simp, ?_⟩
      intro halt' he
      cases he
      exact hu.halts halt rfl
    | ok unchanged =>
      cases unchanged with
      | false =>
        have he := execute_served hO hT ih hTk hk hR₁ hu.sound
          (fun a hmem => ha a (by rw [← hua]; exact hmem)) hm₁
        exact ⟨he.sound, (hadv₁.mono fun a h => h.within).trans he.advances, he.ok, he.halts⟩
      | true =>
        have hks := hu.ok true rfl rfl
        obtain ⟨v', hreach, hlike⟩ := (hO.alike k p hk).reaches_done hp fun x hx w hw =>
          (hks x hx).1 n w hw
        obtain ⟨l, hl⟩ := settles_of_reaches_done hk hreach
        have hm₁ := hm₁ ⟨l, by rw [hl]; exact ended_ok v'⟩
        have hnow : L.like k v' m.value := L.trans (L.symm hlike) hv
        have hset : Sets k { m with verifiedAt := s₁.revision } s₁ (s₁.verify k m) :=
          ⟨rfl, rfl, rfl, rfl, rfl⟩
        have hadv₂ : Advances rules L past (Spared rules (past R) T k) s₁ (s₁.verify k m) :=
          hset.advances (fun h => h.ne hTk rfl) fun r i w _ ht hw hc => (ht i w hw m hm₁).2 hc
        have hbacked :
            Backed rules L past (s₁.verify k m) k { m with verifiedAt := s₁.revision } := by
          obtain ⟨i, hi⟩ := hreach.settleWith_done
          have hle₁ := (hu.sound.memos k m hm₁).le_revision
          refine ⟨Nat.le_refl _, Nat.le_trans hb.changed_le hle₁, p, i, ks, v', hk, ?_, hnow,
            hreads, ?_⟩
          · show p.settleWith (settle rules (past s₁.revision) i) = _
            rw [hR₁]
            exact hi
          · intro d hd
            show TracksFrom rules L past _ s₁.revision d
            rw [hR₁]
            exact hadv₂.tracks R d (by omega) (hks d hd).2
        refine ⟨hset.sound hu.sound hadv₂ hbacked,
          (hadv₁.mono fun a h => h.within).trans hadv₂, ?_, by simp⟩
        intro node hnode
        cases hnode
        exact ⟨.memo (NodeTable.get?_set_self _ k _) rfl rfl, l, v', hl, hnow⟩

/-- From a sound store, every read of a steady node keeps the store sound and gives what the node
settles to, or says truly why it cannot. -/
theorem serves (hO : Orderly rules L) (hT : Steady rules (past R) T) (depth : Nat) :
    Serves rules L past R T depth := by
  induction depth with
  | zero =>
    intro k s hTk hR hs ha
    unfold fetch
    cases hk : rules k with
    | input absent => exact input_served hO hk hR hs _
    | refused e => exact refused_served hk hs _
    | query p =>
      refine ⟨hs, .refl _ s, by simp, ?_⟩
      intro halt he
      cases he
      refine .tooDeep fun n hn he => ?_
      obtain rfl : n = 0 := by omega
      rw [settle_zero hk] at he
      exact not_ended_tooDeep he
  | succ depth ih =>
    intro k s hTk hR hs ha
    unfold fetch
    cases hk : rules k with
    | input absent => exact input_served hO hk hR hs _
    | refused e => exact refused_served hk hs _
    | query p =>
      simp only
      split
      · rename_i hm
        exact execute_served hO hT ih hTk hk hR hs ha fun _ => hm
      · rename_i m hm
        exact revalidate_served hO hT ih hTk hk hR hs ha hm

end SceneCodegen.Graph
