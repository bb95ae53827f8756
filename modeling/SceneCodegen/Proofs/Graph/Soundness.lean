import SceneCodegen.Proofs.Graph.Frames
import SceneCodegen.Proofs.Graph.Paths
import SceneCodegen.Proofs.Graph.Relaying

/-!
# Soundness of memos

A memo stands for the value its node had at the revision at which it was last found valid, and every
node read for that value tracks what changed since. One read keeps this of the whole store and gives
what the node settles to under the current inputs, as long as the queries it can come upon either
pass failures on or have no failed reads.
-/
namespace SceneCodegen.Graph

variable {K : Type} {V : K → Type} {α : Type}

/-- Nodes, with whatever they read, whose queries pass every failure on or meet none. -/
structure Steady (rules : Rules K V) (inputs : Inputs K V) (T : K → Prop) : Prop where
  passes : ∀ k p, T k → rules k = .query p →
    p.Relays (fun _ => True) ∨ ∃ n v, settle rules inputs n k = .ok v
  closed : ∀ k p ks d next, T k → rules k = .query p →
    p.Reaches rules inputs ks (.read d next) → T d

/-- Queries that pass every failure on are steady. -/
theorem steady_of_relays {rules : Rules K V}
    (h : ∀ k p, rules k = .query p → p.Relays fun _ => True) (inputs : Inputs K V) :
    Steady rules inputs fun _ => True :=
  ⟨fun k p _ hk => .inl (h k p hk), fun _ _ _ _ _ _ _ _ => trivial⟩

/-- A node that is steady with whatever it reads. -/
def Firm (rules : Rules K V) (inputs : Inputs K V) (k : K) : Prop :=
  ∃ T, Steady rules inputs T ∧ T k

section
variable {rules : Rules K V} {inputs : Inputs K V}

theorem steady_firm (rules : Rules K V) (inputs : Inputs K V) :
    Steady rules inputs (Firm rules inputs) where
  passes k p hk hp := by
    obtain ⟨T, hT, hk⟩ := hk
    exact hT.passes k p hk hp
  closed k p ks d next hk hp h := by
    obtain ⟨T, hT, hk⟩ := hk
    exact ⟨T, hT, hT.closed k p ks d next hk hp h⟩

/-- A node with a value is firm. -/
theorem firm_of_settles {k : K} {n : Nat} {v : V k} (h : settle rules inputs n k = .ok v) :
    Firm rules inputs k := by
  refine ⟨fun k => ∃ n v, settle rules inputs n k = .ok v, ⟨?_, ?_⟩, n, v, h⟩
  · intro a p ha _
    exact .inr ha
  · rintro a p ks d next ⟨m, w, hw⟩ hp hreach
    exact settles_read_of_settles hp hreach hw

end

/-- A node that has an outcome. -/
def Settles (rules : Rules K V) (inputs : Inputs K V) (k : K) : Prop :=
  ∃ n, Ended (settle rules inputs n k)

/-- Whenever the second node has settled, the first did so earlier. -/
def Before (rules : Rules K V) (inputs : Inputs K V) (d k : K) : Prop :=
  ∀ n, Ended (settle rules inputs n k) → ∃ m, m < n ∧ Ended (settle rules inputs m d)

/-- The nodes that settle after a node. -/
def After (rules : Rules K V) (inputs : Inputs K V) (k a : K) : Prop :=
  Settles rules inputs a ∧ Before rules inputs k a

/-- A node, if it settles, and the nodes that settle after it. -/
def FromOn (rules : Rules K V) (inputs : Inputs K V) (k a : K) : Prop :=
  Settles rules inputs a ∧ (a = k ∨ Before rules inputs k a)

/-- What a read of a node leaves alone: the nodes that settle after it, and those outside a set in
which the read stays. -/
def Spared (rules : Rules K V) (inputs : Inputs K V) (T : K → Prop) (k a : K) : Prop :=
  After rules inputs k a ∨ ¬ T a

/-- What the reads made for a node leave alone: the node as well. -/
def SparedWithin (rules : Rules K V) (inputs : Inputs K V) (T : K → Prop) (k a : K) : Prop :=
  FromOn rules inputs k a ∨ ¬ T a

/-- All queries being computed settle after a node, if at all. -/
def Above (rules : Rules K V) (inputs : Inputs K V) (s : Store K V) (k : K) : Prop :=
  ∀ a ∈ s.active, Before rules inputs k a.key

section
variable {rules : Rules K V} {inputs : Inputs K V}

theorem Before.trans {c d k : K} (h : Before rules inputs c d) (h' : Before rules inputs d k) :
    Before rules inputs c k := by
  intro n hn
  obtain ⟨m, hm, hd⟩ := h' n hn
  obtain ⟨l, hl, hc⟩ := h m hd
  exact ⟨l, Nat.lt_trans hl hm, hc⟩

/-- A node that would have to settle before itself does not settle. -/
theorem Before.irrefl {k : K} (h : Before rules inputs k k) : ¬ Settles rules inputs k := by
  rintro ⟨n, hn⟩
  induction n using Nat.strongRecOn with
  | _ n ih =>
    obtain ⟨m, hm, hk⟩ := h n hn
    exact ih m hm hk

theorem before_of_reaches {k d : K} {p : Program K V (V k)} {ks : List K}
    {next : Except (Failure K) (V d) → Program K V (V k)} (hk : rules k = .query p)
    (h : p.Reaches rules inputs ks (.read d next)) : Before rules inputs d k :=
  fun _ hn => ended_read_of_ended hk h hn

theorem FromOn.after {k d a : K} (h : FromOn rules inputs k a) (hd : Before rules inputs d k) :
    After rules inputs d a := by
  refine ⟨h.1, ?_⟩
  rcases h.2 with rfl | ha
  · exact hd
  · exact hd.trans ha

theorem After.fromOn {k a : K} (h : After rules inputs k a) : FromOn rules inputs k a :=
  ⟨h.1, .inr h.2⟩

theorem After.ne {k a : K} (h : After rules inputs k a) : a ≠ k := by
  rintro rfl
  exact h.2.irrefl h.1

theorem SparedWithin.read {T : K → Prop} {k d a : K} (h : SparedWithin rules inputs T k a)
    (hd : Before rules inputs d k) : Spared rules inputs T d a := h.imp_left (·.after hd)

theorem Spared.within {T : K → Prop} {k a : K} (h : Spared rules inputs T k a) :
    SparedWithin rules inputs T k a := h.imp_left After.fromOn

theorem Spared.ne {T : K → Prop} {k a : K} (h : Spared rules inputs T k a) (hk : T k) : a ≠ k := by
  rintro rfl
  exact h.elim (fun h => h.ne rfl) fun h => h hk

theorem Above.of_idle {s : Store K V} {k : K} (h : s.active = []) : Above rules inputs s k := by
  intro a ha
  rw [h] at ha
  cases ha

theorem Above.read {s s' : Store K V} {k d : K} {reads : List K} (h : Above rules inputs s k)
    (hs : s'.active = ⟨k, reads⟩ :: s.active) (hd : Before rules inputs d k) :
    Above rules inputs s' d := by
  intro a ha
  rw [hs] at ha
  rcases List.mem_cons.mp ha with rfl | ha
  · exact hd
  · exact hd.trans (h a ha)

end

section
variable [Node K]

section
variable (rules : Rules K V)

/-- Why the read of a node ends without a value: its pass was cancelled, the node has failed or
reads itself, or the depth was too small for it. -/
inductive HaltsAs (inputs : Inputs K V) (depth : Nat) (s : Store K V) (k : K) : Halt K → Prop
  | cancelled {g : Int} (h : s.cancelled? = some g) :
      HaltsAs inputs depth s k (.failed (.cancelled g))
  | settled {n : Nat} {e e' : Failure K} (h : settle rules inputs n k = .error (.failed e'))
      (he : SameKind e' e) : HaltsAs inputs depth s k (.failed e)
  | cycle {c : K} (h : ¬ Settles rules inputs k) : HaltsAs inputs depth s k (.failed (.cycle c))
  | tooDeep (h : ∀ n, n ≤ depth → ¬ Ended (settle rules inputs n k)) :
      HaltsAs inputs depth s k .tooDeep

end

section
variable {rules : Rules K V} {inputs : Inputs K V} {s : Store K V} {k : K} {depth : Nat}
  {p : Program K V (V k)}

/-- A query halts as the read at which it stopped did. -/
theorem HaltsAs.of_read {d : K} {ks : List K} {next : Except (Failure K) (V d) → Program K V (V k)}
    {halt : Halt K} (hk : rules k = .query p) (hp : p.Reaches rules inputs ks (.read d next))
    (h : HaltsAs rules inputs depth s d halt) : HaltsAs rules inputs (depth + 1) s k halt := by
  have hb := before_of_reaches hk hp
  cases h with
  | cancelled h => exact .cancelled h
  | settled h he =>
    obtain ⟨n, hn⟩ := settles_of_failed_read hk hp h
    exact .settled hn he
  | cycle h =>
    refine .cycle fun ⟨n, hn⟩ => ?_
    obtain ⟨m, -, hm⟩ := hb n hn
    exact h ⟨m, hm⟩
  | tooDeep h =>
    refine .tooDeep fun n hn he => ?_
    obtain ⟨m, hm, hd⟩ := hb n he
    exact h m (by omega) hd

theorem HaltsAs.of_cancelled {s' : Store K V} {halt : Halt K}
    (h : HaltsAs rules inputs depth s k halt)
    (hc : ∀ g, s.cancelled? = some g → s'.cancelled? = some g) :
    HaltsAs rules inputs depth s' k halt := by
  cases h with
  | cancelled h => exact .cancelled (hc _ h)
  | settled h he => exact .settled h he
  | cycle h => exact .cycle h
  | tooDeep h => exact .tooDeep h

/-- Only the cancellation of its pass keeps a node that has a value from being read. -/
theorem HaltsAs.exists_cancelled {n : Nat} {v : V k} (hv : settle rules inputs n k = .ok v)
    {e : Failure K} (h : HaltsAs rules inputs depth s k (.failed e)) :
    ∃ g, e = .cancelled g ∧ s.cancelled? = some g := by
  cases h with
  | cancelled h => exact ⟨_, rfl, h⟩
  | @settled m e e' h he =>
    have hu : settle rules inputs n k = settle rules inputs m k := settle_unique
      (by rw [hv]; exact ended_ok v) (by rw [h]; exact ended_failed e')
    rw [hv, h] at hu
    cases hu
  | cycle h => exact absurd ⟨n, by rw [hv]; exact ended_ok v⟩ h

theorem HaltsAs.isCancellation {n : Nat} {v : V k} (hv : settle rules inputs n k = .ok v)
    {e : Failure K} (h : HaltsAs rules inputs depth s k (.failed e)) : IsCancellation e := by
  obtain ⟨g, rfl, -⟩ := h.exists_cancelled hv
  exact ⟨g, rfl⟩

end

end

section
variable [BEq K] [Coherent K V]

/-- What a store holds for a node is valid now. -/
inductive Holds (rules : Rules K V) (s : Store K V) (k : K) (node : Stamped (V k)) : Prop
  | input {absent : V k} (hk : rules k = .input absent)
      (h : node = (s.inputs.get? k).getD ⟨absent, 0⟩)
  | memo {m : Memo K (V k)} (hm : s.memos.get? k = some m) (hv : m.verifiedAt = s.revision)
      (h : node = m.toStamped)

/-- A store that differs in the memo of one node, made or found valid now. -/
structure Sets (k : K) (m : Memo K (V k)) (s s' : Store K V) : Prop where
  memos : s'.memos = s.memos.set k m
  revision : s'.revision = s.revision
  inputs : s'.inputs = s.inputs
  token : s'.token = s.token
  verified : m.verifiedAt = s.revision

end

variable [BEq K] [LawfulBEq K]

/-- The memo of a node, if it has one, is no older than a revision and does not hide that the node
changed from a value it had then. -/
def Tracks (L : Likeness K V) (s : Store K V) (r : Nat) (k : K) (v : V k) : Prop :=
  ∀ m, s.memos.get? k = some m → r ≤ m.verifiedAt ∧ (m.changedAt ≤ r → L.like k v m.value)

section
variable (rules : Rules K V) (L : Likeness K V) (past : Nat → Inputs K V)

/-- A node tracks the value it had at a revision, if it had one. -/
def TracksFrom (s : Store K V) (r : Nat) (k : K) : Prop :=
  ∀ n v, settle rules (past r) n k = .ok v → Tracks L s r k v

/-- What a memo stands for. -/
structure Backed (s : Store K V) (k : K) (m : Memo K (V k)) : Prop where
  le_revision : m.verifiedAt ≤ s.revision
  changed_le : m.changedAt ≤ m.verifiedAt
  exists_run : ∃ p n ks v, rules k = .query p ∧
    p.settleWith (settle rules (past m.verifiedAt) n) = .ok (ks, v) ∧ L.like k v m.value ∧
    m.reads = ks.eraseDups ∧ ∀ d ∈ ks, TracksFrom rules L past s m.verifiedAt d

/-- The inputs of a store are those of the past since they changed, and its memos are backed. -/
structure Sound (s : Store K V) : Prop where
  inputs : ∀ k x, s.inputs.get? k = some x → x.changedAt ≤ s.revision ∧
    ∀ r, x.changedAt ≤ r → r ≤ s.revision → past r k = some x.value
  absent : ∀ k, s.inputs.get? k = none → ∀ r, r ≤ s.revision → past r k = none
  domain : ∀ k x, s.inputs.get? k = some x → L.like k x.value x.value
  memos : ∀ k m, s.memos.get? k = some m → Backed rules L past s k m

/-- A later store in which a set of nodes kept their memos, and every node its track. -/
structure Advances (A : K → Prop) (s s' : Store K V) : Prop where
  revision : s'.revision = s.revision
  inputs : s'.inputs = s.inputs
  frame : ∀ k, A k → s'.memos.get? k = s.memos.get? k
  tracks : ∀ r k, r ≤ s.revision → TracksFrom rules L past s r k → TracksFrom rules L past s' r k
  cancelled : ∀ g, s.cancelled? = some g → s'.cancelled? = some g
  token : s.token = none → s'.token = none

end

variable {rules : Rules K V} {L : Likeness K V} {past : Nat → Inputs K V} {A B : K → Prop}
  {s s' s'' : Store K V}

namespace Advances

theorem refl (A : K → Prop) (s : Store K V) : Advances rules L past A s s :=
  ⟨rfl, rfl, fun _ _ => rfl, fun _ _ _ h => h, fun _ h => h, fun h => h⟩

theorem trans (h : Advances rules L past A s s') (h' : Advances rules L past A s' s'') :
    Advances rules L past A s s'' where
  revision := h'.revision.trans h.revision
  inputs := h'.inputs.trans h.inputs
  frame k hk := (h'.frame k hk).trans (h.frame k hk)
  tracks r k hr ht := h'.tracks r k (by rw [h.revision]; exact hr) (h.tracks r k hr ht)
  cancelled g hg := h'.cancelled g (h.cancelled g hg)
  token hn := h'.token (h.token hn)

theorem mono (h : Advances rules L past A s s') (hB : ∀ k, B k → A k) :
    Advances rules L past B s s' :=
  { h with frame := fun k hk => h.frame k (hB k hk) }

/-- Only the bookkeeping of the running computations and of the pass differs. -/
theorem of_same (A : K → Prop) (hr : s'.revision = s.revision) (hi : s'.inputs = s.inputs)
    (hm : s'.memos = s.memos) (hc : ∀ g, s.cancelled? = some g → s'.cancelled? = some g)
    (ht : s.token = none → s'.token = none) : Advances rules L past A s s' where
  revision := hr
  inputs := hi
  frame k _ := by rw [hm]
  tracks r k _ h n v hv m hmk := h n v hv m (by rw [← hm]; exact hmk)
  cancelled := hc
  token := ht

theorem noteRead (A : K → Prop) (k : K) (s : Store K V) :
    Advances rules L past A s (s.noteRead k) :=
  .of_same A (by simp) (by simp) (by simp) (by simp) (by simp)

theorem cancelPass (A : K → Prop) (s : Store K V) : Advances rules L past A s s.cancelPass :=
  .of_same A rfl rfl rfl (fun _ h => Store.cancelled?_cancelPass h) (by simp [Store.cancelPass])

theorem start (A : K → Prop) (k : K) (s : Store K V) : Advances rules L past A s (s.start k) :=
  .of_same A rfl rfl rfl (fun _ h => Store.cancelled?_start k h) (by simp [Store.start])

theorem finish (A : K → Prop) (s : Store K V) : Advances rules L past A s s.finish :=
  .of_same A rfl rfl rfl (fun _ h => h) fun h => h

end Advances

namespace Sound

/-- Dropping memos leaves the others sound. -/
theorem of_fewer (h : Sound rules L past s) (hr : s'.revision = s.revision)
    (hi : s'.inputs = s.inputs)
    (hm : ∀ k m, s'.memos.get? k = some m → s.memos.get? k = some m) : Sound rules L past s' where
  inputs k x hx := by
    rw [hi] at hx
    rw [hr]
    exact h.inputs k x hx
  absent k hx r hrr := h.absent k (by rw [← hi]; exact hx) r (by rw [← hr]; exact hrr)
  domain k x hx := h.domain k x (by rw [← hi]; exact hx)
  memos k m hmk := by
    have hb := h.memos k m (hm k m hmk)
    obtain ⟨p, n, ks, v, hk, hp, hv, hreads, ht⟩ := hb.exists_run
    refine ⟨by rw [hr]; exact hb.le_revision, hb.changed_le, p, n, ks, v, hk, hp, hv, hreads, ?_⟩
    exact fun d hd n w hw m' hm' => ht d hd n w hw m' (hm d m' hm')

theorem of_same (h : Sound rules L past s) (hr : s'.revision = s.revision)
    (hi : s'.inputs = s.inputs) (hm : s'.memos = s.memos) : Sound rules L past s' :=
  h.of_fewer hr hi fun k m hmk => by rwa [hm] at hmk

/-- The inputs of the past at the current revision are those of the store. -/
theorem past_revision (h : Sound rules L past s) (k : K) :
    past s.revision k = s.input? k := by
  cases hx : s.inputs.get? k with
  | none => simp [Store.input?, hx, h.absent k hx _ (Nat.le_refl _)]
  | some x =>
    obtain ⟨hle, hpast⟩ := h.inputs k x hx
    simp [Store.input?, hx, hpast _ hle (Nat.le_refl _)]

theorem past_eq (h : Sound rules L past s) : past s.revision = s.input? :=
  funext h.past_revision

/-- An input that did not change since a revision had its value then. -/
theorem input_since (h : Sound rules L past s) {k : K} {absent : V k} {r : Nat}
    (hr : r ≤ s.revision) (hc : ((s.inputs.get? k).getD ⟨absent, 0⟩).changedAt ≤ r) :
    (past r k).getD absent = ((s.inputs.get? k).getD ⟨absent, 0⟩).value := by
  cases hx : s.inputs.get? k with
  | none => simp [h.absent k hx r hr]
  | some x =>
    simp only [hx, Option.getD_some] at hc
    simp [(h.inputs k x hx).2 r hc hr]

/-- A memo's value is one its node settled to when it was last found valid. -/
theorem settles_memo (h : Sound rules L past s) {k : K} {m : Memo K (V k)}
    (hm : s.memos.get? k = some m) :
    ∃ n v, settle rules (past m.verifiedAt) n k = .ok v ∧ L.like k v m.value := by
  obtain ⟨p, n, ks, v, hk, hp, hv, -⟩ := (h.memos k m hm).exists_run
  exact ⟨n + 1, v, by simp [settle_succ hk, hp, Except.map], hv⟩

/-- The memo of a node that fails now is from before. -/
theorem verifiedAt_lt (h : Sound rules L past s) {k : K} {m : Memo K (V k)}
    (hm : s.memos.get? k = some m) {n : Nat} {e : Failure K}
    (he : settle rules (past s.revision) n k = .error (.failed e)) :
    m.verifiedAt < s.revision := by
  have hle := (h.memos k m hm).le_revision
  obtain ⟨l, v, hv, -⟩ := h.settles_memo hm
  refine Nat.lt_of_le_of_ne hle fun heq => ?_
  rw [heq] at hv
  have hu : settle rules (past s.revision) l k = settle rules (past s.revision) n k :=
    settle_unique (by rw [hv]; exact ended_ok v) (by rw [he]; exact ended_failed e)
  rw [hv, he] at hu
  cases hu

theorem not_memo_of_input (h : Sound rules L past s) {k : K} {absent : V k}
    (hk : rules k = .input absent) (m : Memo K (V k)) : s.memos.get? k ≠ some m := by
  intro hm
  obtain ⟨p, n, ks, v, hq, -⟩ := (h.memos k m hm).exists_run
  rw [hk] at hq
  cases hq

end Sound

variable {k : K}

/-- A node that did not change since a revision has the value it had then. -/
theorem Holds.like_since {node : Stamped (V k)} (h : Holds rules s k node)
    (hs : Sound rules L past s) {r n : Nat} (hr : r ≤ s.revision) {w : V k}
    (hw : settle rules (past r) n k = .ok w) (ht : TracksFrom rules L past s r k)
    (hL : ∀ absent, rules k = .input absent → L.like k node.value node.value)
    (hc : node.changedAt ≤ r) : L.like k w node.value := by
  cases h with
  | @input absent hk hnode =>
    have hpast : (past r k).getD absent = ((s.inputs.get? k).getD ⟨absent, 0⟩).value :=
      hs.input_since hr (by rw [← hnode]; exact hc)
    rw [settle_input hk, hpast, ← hnode] at hw
    cases hw
    exact hL absent hk
  | memo hm hv hnode =>
    subst hnode
    exact (ht n w hw _ hm).2 hc

theorem Holds.tracks {node : Stamped (V k)} (h : Holds rules s k node)
    (hs : Sound rules L past s) {n : Nat} {v : V k}
    (hv : settle rules (past s.revision) n k = .ok v) (hn : L.like k v node.value) :
    TracksFrom rules L past s s.revision k := by
  intro m w hw x hx
  cases h with
  | input hk hnode => exact absurd hx (hs.not_memo_of_input hk x)
  | @memo y hm hy hnode =>
    rw [hm] at hx
    cases hx
    rw [settle_ok_unique hw hv]
    subst hnode
    exact ⟨Nat.le_of_eq hy.symm, fun _ => hn⟩

section
variable (rules L past) (R : Nat)

/-- A read gives what the store then holds, which is like what the node settles to. -/
def Gives (k : K) (node : Stamped (V k)) (s : Store K V) : Prop :=
  Holds rules s k node ∧ ∃ n v, settle rules (past R) n k = .ok v ∧ L.like k v node.value

/-- A node has again a value like the one it had at a revision. -/
def Recurs (r : Nat) (d : K) : Prop :=
  ∀ n v, settle rules (past r) n d = .ok v →
    ∃ m w, settle rules (past R) m d = .ok w ∧ L.like d v w

end

namespace Gives
variable {R : Nat} {node : Stamped (V k)}

theorem tracks (h : Gives rules L past R k node s) (hs : Sound rules L past s)
    (hR : s.revision = R) : TracksFrom rules L past s R k := by
  obtain ⟨hholds, n, v, hv, hvn⟩ := h
  subst hR
  exact hholds.tracks hs hv hvn

/-- A node read now that did not change since a revision has again a value like the one of then. -/
theorem recurs (h : Gives rules L past R k node s) (hs : Sound rules L past s)
    (hR : s.revision = R) {r : Nat} (hr : r ≤ R) (ht : TracksFrom rules L past s r k)
    (hc : node.changedAt ≤ r) : Recurs rules L past R r k := by
  intro l u hu
  obtain ⟨hholds, n, v, hv, hvn⟩ := h
  have hun := hholds.like_since hs (by rw [hR]; exact hr) hu ht (fun _ _ => L.right hvn) hc
  exact ⟨n, v, hv, L.trans hun (L.symm hvn)⟩

end Gives

theorem Backed.advance {m : Memo K (V k)} (h : Backed rules L past s k m)
    (ha : Advances rules L past A s s') : Backed rules L past s' k m := by
  obtain ⟨p, n, ks, v, hk, hp, hv, hreads, ht⟩ := h.exists_run
  refine ⟨by rw [ha.revision]; exact h.le_revision, h.changed_le, p, n, ks, v, hk, hp, hv, hreads,
    ?_⟩
  exact fun d hd => ha.tracks _ d h.le_revision (ht d hd)

namespace Sets
variable {m : Memo K (V k)}

theorem advances (h : Sets k m s s') (hA : ¬ A k)
    (ht : ∀ r n v, r ≤ s.revision → TracksFrom rules L past s r k →
      settle rules (past r) n k = .ok v → m.changedAt ≤ r → L.like k v m.value) :
    Advances rules L past A s s' where
  revision := h.revision
  inputs := h.inputs
  frame a ha := by
    have hne : k ≠ a := by
      rintro rfl
      exact hA ha
    rw [h.memos, NodeTable.get?_set_of_ne _ hne]
  tracks r a hr hs n v hv x hx := by
    by_cases hne : k = a
    · subst hne
      rw [h.memos, NodeTable.get?_set_self] at hx
      cases hx
      exact ⟨by rw [h.verified]; exact hr, ht r n v hr hs hv⟩
    · rw [h.memos, NodeTable.get?_set_of_ne _ hne] at hx
      exact hs n v hv x hx
  cancelled g hg := by
    simp only [Store.cancelled?, h.token] at hg ⊢
    exact hg
  token hn := h.token.trans hn

theorem sound (h : Sets k m s s') (hs : Sound rules L past s)
    (ha : Advances rules L past A s s') (hm : Backed rules L past s' k m) :
    Sound rules L past s' where
  inputs a x hx := by
    rw [h.inputs] at hx
    rw [h.revision]
    exact hs.inputs a x hx
  absent a hx r hr := hs.absent a (by rw [← h.inputs]; exact hx) r (by rw [← h.revision]; exact hr)
  domain a x hx := hs.domain a x (by rw [← h.inputs]; exact hx)
  memos a x hx := by
    by_cases hne : k = a
    · subst hne
      rw [h.memos, NodeTable.get?_set_self] at hx
      cases hx
      exact hm
    · rw [h.memos, NodeTable.get?_set_of_ne _ hne] at hx
      exact (hs.memos a x hx).advance ha

end Sets

variable [Node K] [∀ k, BEq (V k)]

/-- Rules whose queries cannot tell like values apart and let a cancellation through. -/
structure Orderly (rules : Rules K V) (L : Likeness K V) : Prop where
  absent : ∀ k a, rules k = .input a → L.like k a a
  alike : ∀ k p, rules k = .query p → p.Alike L SameKind (L.like k) p
  relays : ∀ k p, rules k = .query p → p.Relays IsCancellation
  faithful : ∀ k p v w, rules k = .query p → L.like k v v → L.like k w w → v == w → L.like k v w

theorem Sound.input_like (hO : Orderly rules L) (h : Sound rules L past s) {absent : V k}
    (hk : rules k = .input absent) {x : Stamped (V k)}
    (hx : x = (s.inputs.get? k).getD ⟨absent, 0⟩) : L.like k x.value x.value := by
  subst hx
  cases hg : s.inputs.get? k with
  | none => exact hO.absent k absent hk
  | some x => exact h.domain k x hg

end SceneCodegen.Graph
