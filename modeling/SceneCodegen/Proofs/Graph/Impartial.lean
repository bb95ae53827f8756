import Mathlib.Data.Quot
import SceneCodegen.Proofs.Graph.Mirroring

/-!
# Keys that count as the same

Where queries tell apart neither keys nor values that count as the same, a graph is mirrored by the
graph of its nodes, each of which is the class of the spellings of its key. So its reads are fresh
after any history, and end exactly as the memo-free evaluation does.
-/
namespace SceneCodegen.Graph

variable {K : Type} {V : K → Type} {α β : Type}

section
variable [BEq K] [Coherent K V] [Node K]

/-- Programs that read nodes under keys that count as the same, go on alike after like values
and end alike. -/
inductive Program.Kindred (L : Likeness K V) (R : α → β → Prop) :
    Program K V α → Program K V β → Prop
  | done {a : α} {b : β} (h : R a b) : Kindred L R (.done a) (.done b)
  | fail {e e' : Failure K} (h : SameKind e e') : Kindred L R (.fail e) (.fail e')
  | read {k l : K} {next : Except (Failure K) (V k) → Program K V α}
      {next' : Except (Failure K) (V l) → Program K V β} (h : k == l)
      (ok : ∀ v w, L.like l (carry h v) w → Kindred L R (next (.ok v)) (next' (.ok w))) :
      Kindred L R (.read k next) (.read l next')
  | cancel {p : Program K V α} {q : Program K V β} (h : Kindred L R p q) :
      Kindred L R (.cancel p) (.cancel q)

theorem Program.kindred_get (L : Likeness K V) {k l : K} (h : k == l) :
    (Program.get k : Program K V (V k)).Kindred L (fun v w => L.like l (carry h v) w)
      (Program.get l) :=
  .read h fun _ _ hvw => .done hvw

theorem Program.Kindred.bind {L : Likeness K V} {R : α → β → Prop} {p : Program K V α}
    {q : Program K V β} (h : p.Kindred L R q) {γ δ : Type} {S : γ → δ → Prop}
    {f : α → Program K V γ} {g : β → Program K V δ}
    (hfg : ∀ a b, R a b → (f a).Kindred L S (g b)) : (p.bind f).Kindred L S (q.bind g) := by
  induction h with
  | done hR => exact hfg _ _ hR
  | fail he => exact .fail he
  | read hkl _ ih => exact .read hkl fun v w hvw => ih v w hvw
  | cancel _ ih => exact .cancel ih

/-- Keys that count as the same are inputs with like values, queries of kindred programs, or refused
for one kind of reason. -/
inductive Rule.Kindred (L : Likeness K V) {k l : K} (h : k == l) :
    Rule K V (V k) → Rule K V (V l) → Prop
  | input {absent : V k} {absent' : V l} (ha : L.like l (carry h absent) absent') :
      Kindred L h (.input absent) (.input absent')
  | query {p : Program K V (V k)} {q : Program K V (V l)}
      (hp : p.Kindred L (fun v w => L.like l (carry h v) w) q) : Kindred L h (.query p) (.query q)
  | refused {e e' : Failure K} (he : SameKind e e') : Kindred L h (.refused e) (.refused e')

/-- Rules whose queries pass every failure on and tell apart neither keys nor values that
count as the same, values that count as the same being like, and like values being equal to
the same values. -/
structure Impartial [∀ k, BEq (V k)] (rules : Rules K V) (L : Likeness K V) : Prop where
  kindred : ∀ {k l : K} (h : k == l), (rules k).Kindred L h (rules l)
  relays : ∀ k p, rules k = .query p → p.Relays fun _ => True
  refl : ∀ k v, L.like k v v
  of_beq : ∀ k (v w : V k), v == w → L.like k v w
  beq_like : ∀ {k : K} {v w v' w' : V k}, L.like k v v' → L.like k w w' → (v == w) = (v' == w')
  like_carry : ∀ {k l : K} (h : k == l) {v w : V k}, L.like k v w → L.like l (carry h v) (carry h w)
  beq_carry : ∀ {k l : K} (h : k == l) (v w : V k), (carry h v == carry h w) = (v == w)

end

section
variable [BEq K] [EquivBEq K]

def sameNode (K : Type) [BEq K] [EquivBEq K] : Setoid K where
  r k l := k == l
  iseqv := ⟨fun _ => BEq.rfl, BEq.symm, BEq.trans⟩

/-- A node, as the class of the spellings of its key. -/
def NodeOf (K : Type) [BEq K] [EquivBEq K] : Type := Quotient (sameNode K)

def nodeOf (k : K) : NodeOf K := Quotient.mk (sameNode K) k

noncomputable def NodeOf.key (c : NodeOf K) : K := Quotient.out c

theorem nodeOf_eq_iff {k l : K} : nodeOf k = nodeOf l ↔ k == l :=
  Quotient.eq (r := sameNode K)

theorem nodeOf_key (c : NodeOf K) : nodeOf c.key = c := Quotient.out_eq c

theorem key_nodeOf (k : K) : (nodeOf k).key == k := nodeOf_eq_iff.mp (nodeOf_key (nodeOf k))

noncomputable instance : DecidableEq (NodeOf K) := Classical.decEq _

end

/-- A failure, its nodes being told by other keys. -/
def Failure.mapKey {K' : Type} (f : K → K') : Failure K → Failure K'
  | .declaration d => .declaration d
  | .raised kind message => .raised kind message
  | .cycle k => .cycle (f k)
  | .cancelled generation => .cancelled generation
  | .locked => .locked

@[simp] theorem Failure.kind_mapKey {K' : Type} [Node K] [Node K'] (f : K → K') (e : Failure K) :
    (e.mapKey f).kind = e.kind := by
  cases e <;> rfl

variable [BEq K] [EquivBEq K] [Coherent K V]

noncomputable instance [Node K] : Node (NodeOf K) where
  queryName c := Node.queryName c.key
  text c := Node.text c.key

noncomputable def readUnder (k : K) :
    Except (Failure (NodeOf K)) (V (nodeOf k).key) → Except (Failure K) (V k)
  | .ok v => .ok (carry (key_nodeOf k) v)
  | .error e => .error (e.mapKey NodeOf.key)

/-- A program that reads the nodes of the keys that another reads. -/
noncomputable def Program.overNodes : Program K V α → Program (NodeOf K) (fun c => V c.key) α
  | done a => done a
  | fail e => fail (e.mapKey nodeOf)
  | read k next => read (nodeOf k) fun r => (next (readUnder k r)).overNodes
  | cancel next => cancel next.overNodes

noncomputable def overNodes (rules : Rules K V) : Rules (NodeOf K) fun c => V c.key := fun c =>
  match rules c.key with
  | .input absent => .input absent
  | .query p => .query p.overNodes
  | .refused e => .refused (e.mapKey nodeOf)

noncomputable def Likeness.overNodes (L : Likeness K V) :
    Likeness (NodeOf K) fun c => V c.key where
  like c := L.like c.key
  symm := L.symm
  trans := L.trans

theorem mapKey_mapKey (e : Failure (NodeOf K)) : (e.mapKey NodeOf.key).mapKey nodeOf = e := by
  cases e with
  | cycle c => rw [Failure.mapKey, Failure.mapKey, nodeOf_key]
  | _ => rfl

theorem Program.Relays.overNodes {p : Program K V α} (h : p.Relays fun _ => True) :
    p.overNodes.Relays fun _ => True := by
  induction h with
  | done a => exact .done a
  | fail e => exact .fail _
  | @read k next hfail _ ih =>
    refine .read (fun e _ => ?_) fun v => ih _
    rw [readUnder, hfail _ trivial, Program.overNodes, mapKey_mapKey]
  | cancel _ ih => exact .cancel ih

section
variable [Node K] [∀ k, BEq (V k)] {rules : Rules K V} {L : Likeness K V} (h : Impartial rules L)
include h

theorem Impartial.kindred_alike {p q : Program K V α} {R : α → α → Prop} (hp : p.Kindred L R q) :
    p.overNodes.Alike L.overNodes SameKind R q.overNodes := by
  induction hp with
  | done hR => exact .done hR
  | fail he => exact .fail (by simpa [SameKind] using he)
  | @read k l next next' hkl _ ih =>
    have hread {c : NodeOf K} (hc : nodeOf k = c)
        {next' : Except (Failure (NodeOf K)) (V c.key) → Program (NodeOf K) (fun c => V c.key) α}
        (ok : ∀ v w, L.like c.key (cast (by rw [hc]) v) w →
          ((next (readUnder k (.ok v))).overNodes).Alike L.overNodes SameKind R (next' (.ok w))) :
        (Program.read (nodeOf k) fun r => (next (readUnder k r)).overNodes).Alike L.overNodes
          SameKind R (.read c next') := by
      subst hc
      exact .read ok
    refine hread (nodeOf_eq_iff.mpr hkl) fun v w hvw => ih _ _ ?_
    have hcarry := h.like_carry (key_nodeOf l) hvw
    simpa only [carry, cast_cast] using hcarry
  | cancel _ ih => exact .cancel ih

noncomputable def Impartial.mirror : Mirror K V (NodeOf K) fun c => V c.key where
  key := nodeOf
  like k v w := L.like k v (carry (key_nodeOf k) w)
  beq_key k l := by rw [Bool.eq_iff_iff, beq_iff_eq, nodeOf_eq_iff]
  beq_like hv hw := by rw [h.beq_like hv hw, h.beq_carry]
  like_carry hkl hkl' hv := by
    have hcarry := h.like_carry hkl hv
    simpa only [carry, cast_cast] using hcarry
  total k v := by
    refine ⟨carry (BEq.symm (key_nodeOf k)) v, ?_⟩
    rw [carry_carry _ _ BEq.rfl, carry_self]
    exact h.refl k v

theorem Impartial.kindred_like {p : Program K V α} {q : Program K V β} {R S : α → β → Prop}
    (hp : p.Kindred L R q) (hF : p.Relays fun _ => True) (hF' : q.Relays fun _ => True)
    (hS : ∀ a b, R a b → S a b) : h.mirror.LikeProgram S p q.overNodes := by
  induction hp with
  | done hR => exact .done (hS _ _ hR)
  | fail he => exact .fail (by simpa [SameKind, eq_comm] using he)
  | @read k l next next' hkl _ ih =>
    cases hF with
    | read hfail hok =>
      cases hF' with
      | read hfail' hok' =>
        have hread {c : NodeOf K} (hc : nodeOf k = c)
            {last : Except (Failure (NodeOf K)) (V c.key) →
              Program (NodeOf K) (fun c => V c.key) β}
            (ok : ∀ v w, L.like k v (carry (key_nodeOf k) (cast (by rw [hc]) w)) →
              h.mirror.LikeProgram S (next (.ok v)) (last (.ok w)))
            (error : ∀ e e', Failure.kind e' = Failure.kind e →
              h.mirror.LikeProgram S (next (.error e)) (last (.error e'))) :
            h.mirror.LikeProgram S (.read k next) (.read c last) := by
          subst hc
          exact .read ok error
        refine hread (nodeOf_eq_iff.mpr hkl) (fun v w hvw => ?_) fun e e' he => ?_
        · refine ih _ _ ?_ (hok v) (hok' _)
          have hcarry := h.like_carry hkl hvw
          simpa only [carry, cast_cast] using hcarry
        · rw [hfail e trivial, readUnder, hfail' _ trivial]
          exact .fail (by simpa using he)
  | cancel _ ih =>
    cases hF with
    | cancel hF =>
      cases hF' with
      | cancel hF' => exact .cancel (ih hF hF')

theorem Impartial.likeRules : h.mirror.LikeRules rules (overNodes rules) := by
  intro k
  have hback {v : V k} {w : V (nodeOf k).key} (hkl : k == (nodeOf k).key)
      (hv : L.like (nodeOf k).key (carry hkl v) w) : L.like k v (carry (key_nodeOf k) w) := by
    have hcarry := h.like_carry (key_nodeOf k) hv
    rwa [carry_carry _ _ BEq.rfl, carry_self] at hcarry
  have hkl : k == (nodeOf k).key := BEq.symm (key_nodeOf k)
  have hrules := h.kindred hkl
  have hrelays := h.relays k
  have hrelays' := h.relays (nodeOf k).key
  show h.mirror.LikeRule k (rules k) (overNodes rules (nodeOf k))
  unfold overNodes
  generalize rules k = rule, rules (nodeOf k).key = rule' at hrules hrelays hrelays'
  cases hrules with
  | input ha => exact .input (hback hkl ha)
  | query hp =>
    exact .query (h.kindred_like hp (hrelays _ rfl) (hrelays' _ rfl) fun a b => hback hkl)
  | refused he => exact .refused (by simpa [SameKind, eq_comm] using he)

omit [Node K] [∀ k, BEq (V k)] h in
theorem query_overNodes {c : NodeOf K}
    {p : Program (NodeOf K) (fun c => V c.key) (V c.key)}
    (hk : overNodes rules c = .query p) : ∃ q, rules c.key = .query q ∧ p = q.overNodes := by
  unfold overNodes at hk
  cases hq : rules c.key with
  | input absent => simp [hq] at hk
  | query q => exact ⟨q, rfl, by simpa [hq] using hk.symm⟩
  | refused e => simp [hq] at hk

omit [Node K] [∀ k, BEq (V k)] h in
theorem queriesIn_overNodes {queries : List K} (hq : QueriesIn rules queries) :
    QueriesIn (overNodes rules) (queries.map nodeOf) := by
  intro c p hk
  obtain ⟨q, hq', -⟩ := query_overNodes hk
  obtain ⟨l, hl, hcl⟩ := List.contains_iff_exists_mem_beq.mp (hq c.key q hq')
  refine List.contains_iff_mem.mpr (List.mem_map.mpr ⟨l, hl, ?_⟩)
  rw [← nodeOf_key c]
  exact (nodeOf_eq_iff.mpr hcl).symm

/-- The graph of nodes is one whose keys are equal if they count as the same. -/
theorem Impartial.propagating : Propagating (overNodes rules) L.overNodes where
  alike c p hk := by
    obtain ⟨q, hq, rfl⟩ := query_overNodes hk
    have hkindred := h.kindred (k := c.key) BEq.rfl
    rw [hq] at hkindred
    cases hkindred with
    | query hp => exact h.kindred_alike hp
  refl c v := h.refl c.key v
  of_beq c v w he := h.of_beq c.key v w he
  relays c p hk := by
    obtain ⟨q, hq, rfl⟩ := query_overNodes hk
    exact (h.relays c.key q hq).overNodes

end

/-- A store that is like one of the graph of nodes at rest. -/
def Impartial.Mirrored [Node K] [∀ k, BEq (V k)] {rules : Rules K V} {L : Likeness K V}
    (h : Impartial rules L) (s : Store K V) : Prop :=
  ∃ s', h.mirror.LikeStore s s' ∧ AtRest (overNodes rules) L.overNodes s'

end SceneCodegen.Graph
