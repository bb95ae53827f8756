import SceneCodegen.Proofs.Graph.Closed
import SceneCodegen.Proofs.Graph.Denotation

/-!
# Joins of input streams

A joined stream over two input streams is, with these, a graph of its own: its index is made of the
items on the right, each lookup of the index, and each pair of an item on the left and the lookups
of that item's keys. Equal values of these nodes are not told apart by what reads them.
-/
namespace SceneCodegen.Graph

/-- Lists are equal member by member. -/
instance equivBEqList {β : Type} [BEq β] [EquivBEq β] : EquivBEq (List β) where
  rfl := BEq.rfl
  symm {l l'} h := by
    induction l generalizing l' with
    | nil =>
      cases l' with
      | nil => rfl
      | cons b l' => cases h
    | cons a l ih =>
      cases l' with
      | nil => cases h
      | cons b l' =>
        rw [List.cons_beq_cons, Bool.and_eq_true] at h ⊢
        exact ⟨BEq.symm h.1, ih h.2⟩
  trans {l l' l''} h h' := by
    induction l generalizing l' l'' with
    | nil =>
      cases l' with
      | nil => exact h'
      | cons b l' => cases h
    | cons a l ih =>
      cases l' with
      | nil => cases h
      | cons b l' =>
        cases l'' with
        | nil => cases h'
        | cons c l'' =>
          rw [List.cons_beq_cons, Bool.and_eq_true] at h h' ⊢
          exact ⟨BEq.trans h.1 h'.1, ih h.2 h'.2⟩

variable {K : Type} {V : K → Type} {ι₁ ι₂ κ α β : Type}

/-- A joined stream over two input streams. Its handlers are functions. -/
structure Join (K : Type) (V : K → Type) (ι₁ ι₂ κ α β : Type) where
  left : Family K V (InputNode.Value ι₁ α)
  right : Family K V (InputNode.Value ι₂ β)
  nodes : Family K V (JoinNode.Value ι₁ κ α β)
  leftKeys : α → List κ
  rightKey : β → κ

/-- How deep the reads of a node of a join are nested. -/
def JoinNode.level {ι κ : Type} : JoinNode ι κ → Nat
  | index => 1
  | lookup _ => 2
  | item _ => 3

/-- What a stream of inputs holds. -/
def Family.listing {ι α : Type} [BEq K] [LawfulBEq K] (f : Family K V (InputNode.Value ι α))
    (s : Store K V) : Listing ι α where
  keys := f.valueOf .keys s
  item i := f.valueOf (.item i) s

namespace Join

section
variable (J : Join K V ι₁ ι₂ κ α β)

/-- The nodes of a join and of the streams that it joins. -/
inductive Has : K → Prop
  | left (n : InputNode ι₁) : Has (J.left.key n)
  | right (n : InputNode ι₂) : Has (J.right.key n)
  | node (n : JoinNode ι₁ κ) : Has (J.nodes.key n)

noncomputable instance : DecidablePred J.Has := Classical.decPred _

/-- The pairs of the items on the left with those on the right that share a key with them. -/
def pairs : Stream K V ι₁ (JoinPair α β) :=
  J.nodes.joinStream J.left.inputStream J.right.inputStream

def tuple [BEq K] [LawfulBEq K] [BEq κ] (s : Store K V) (k : κ) : List β :=
  (J.right.listing s).under J.rightKey k

def reads (n : JoinNode ι₁ κ) : K → Prop :=
  joinReads J.nodes.key (.ofInputs J.left.key) (.ofInputs J.right.key) Anything n

open Classical in
noncomputable def level (k : K) : Nat :=
  if h : ∃ n, J.nodes.key n = k then h.choose.level else 0

variable [BEq κ] [BEq β]

def program : (n : JoinNode ι₁ κ) → Program K V (n.Value ι₁ κ α β) :=
  joinProgram J.nodes J.left.inputStream J.right.inputStream (fun a => .done (J.leftKeys a))
    fun b => .done (J.rightKey b)

/-- Which values of a node of a join count as the same. -/
def Counts : (n : JoinNode ι₁ κ) → V (J.nodes.key n) → V (J.nodes.key n) → Prop
  | .index, v, w => ∃ a b, J.nodes.decode .index v = .ok a ∧ J.nodes.decode .index w = .ok b ∧
    ∀ k, ((a.get? k).getD [] == (b.get? k).getD []) = true
  | .lookup k, v, w => ∃ a b, J.nodes.decode (.lookup k) v = .ok a ∧
    J.nodes.decode (.lookup k) w = .ok b ∧ (a == b) = true
  | .item _, _, _ => True

variable [BEq ι₁] [BEq ι₂] [BEq α] [∀ k, BEq (V k)]

/-- A join and its streams have nodes of their own in a graph, and equal values are not told apart:
those of a lookup are equal lists, those of the index have equal lists under each key. -/
structure Placed (rules : Rules K V) : Prop where
  left_faithful : J.left.Faithful
  right_faithful : J.right.Faithful
  apart : ∀ n m, J.left.key n ≠ J.right.key m
  left_input : ∀ n, rules (J.left.key n) = .input (J.left.encode n n.absent)
  right_input : ∀ n, rules (J.right.key n) = .input (J.right.encode n n.absent)
  exact_nodes : J.nodes.Exact
  injective : Function.Injective J.nodes.key
  rule : ∀ n, rules (J.nodes.key n) = .query (J.nodes.rule n (J.program n))
  index_beq : ∀ v w a b, (v == w) = true → J.nodes.decode .index v = .ok a →
    J.nodes.decode .index w = .ok b → ∀ k, ((a.get? k).getD [] == (b.get? k).getD []) = true
  lookup_beq : ∀ k v w a b, J.nodes.decode (.lookup k) v = .ok a →
    J.nodes.decode (.lookup k) w = .ok b → (v == w) = (a == b)

end

section
variable [BEq κ] [BEq β] {J : Join K V ι₁ ι₂ κ α β}

omit [BEq κ] [BEq β] in
theorem level_of_ne {k : K} (hk : ∀ n, J.nodes.key n ≠ k) : J.level k = 0 := by
  rw [level, dif_neg fun ⟨n, hn⟩ => hk n hn]

/-- The nodes of a join read nodes of its own. -/
theorem program_within (n : JoinNode ι₁ κ) : (J.program n).Within J.Has := by
  have hget {N : Type} {W : N → Type} {f : Family K V W} (hf : ∀ n, J.Has (f.key n)) (n : N) :
      (f.get n).Within J.Has := by
    refine (Program.within_get (hf n)).bind fun v => ?_
    cases f.decode n v with
    | ok w => exact .done w
    | error e => exact .fail e
  cases n with
  | index =>
    have hitem (i : ι₂) : (do return (← J.right.inputStream.item i).map (i, ·) :
        Program K V (Option (ι₂ × β))).Within J.Has :=
      (hget Has.right (.item i)).bind fun _ => .done _
    have hitems : J.right.inputStream.items.Within J.Has :=
      (hget Has.right .keys).bind fun keys =>
        (Program.Within.mapM fun i _ => hitem i).bind fun _ => .done _
    exact hitems.bind fun items => (Program.Within.mapM fun x _ => .done _).bind fun _ => .done _
  | lookup key => exact (hget Has.node .index).bind fun _ => .done _
  | item i =>
    refine (hget Has.left (.item i)).bind fun x => ?_
    cases x with
    | none => exact .done _
    | some a =>
      exact (Program.Within.mapM fun key _ => hget Has.node (.lookup key)).bind fun _ => .done _

theorem Counts.symm [EquivBEq β] {n : JoinNode ι₁ κ} {v w : V (J.nodes.key n)}
    (h : J.Counts n v w) : J.Counts n w v := by
  cases n with
  | index =>
    obtain ⟨a, b, ha, hb, hab⟩ := h
    exact ⟨b, a, hb, ha, fun k => BEq.symm (hab k)⟩
  | lookup k =>
    obtain ⟨a, b, ha, hb, hab⟩ := h
    exact ⟨b, a, hb, ha, BEq.symm hab⟩
  | item i => trivial

theorem Counts.trans [EquivBEq β] {n : JoinNode ι₁ κ} {u v w : V (J.nodes.key n)}
    (h : J.Counts n u v) (h' : J.Counts n v w) : J.Counts n u w := by
  cases n with
  | index =>
    obtain ⟨a, b, ha, hb, hab⟩ := h
    obtain ⟨b', c, hb', hc, hbc⟩ := h'
    obtain rfl := Except.ok.inj (hb.symm.trans hb')
    exact ⟨a, c, ha, hc, fun k => BEq.trans (hab k) (hbc k)⟩
  | lookup k =>
    obtain ⟨a, b, ha, hb, hab⟩ := h
    obtain ⟨b', c, hb', hc, hbc⟩ := h'
    obtain rfl := Except.ok.inj (hb.symm.trans hb')
    exact ⟨a, c, ha, hc, BEq.trans hab hbc⟩
  | item i => trivial

/-- The values of a join count as the same where they do for whoever reads them; all others do only
if they are equal. -/
def likeness (J : Join K V ι₁ ι₂ κ α β) [EquivBEq β] : Likeness K V where
  like k v w := (∀ n (hn : J.nodes.key n = k), J.Counts n (hn.symm ▸ v) (hn.symm ▸ w)) ∧
    ((∀ n, J.nodes.key n ≠ k) → v = w)
  symm h := ⟨fun n hn => (h.1 n hn).symm, fun hk => (h.2 hk).symm⟩
  trans h h' := ⟨fun n hn => (h.1 n hn).trans (h'.1 n hn), fun hk => (h.2 hk).trans (h'.2 hk)⟩

theorem like_of_ne [EquivBEq β] {k : K} (hk : ∀ n, J.nodes.key n ≠ k) {v w : V k} :
    J.likeness.like k v w ↔ v = w :=
  ⟨fun h => h.2 hk, fun h => ⟨fun n hn => absurd hn (hk n), fun _ => h⟩⟩

theorem counts_of_like [EquivBEq β] {n : JoinNode ι₁ κ} {v w : V (J.nodes.key n)}
    (h : J.likeness.like (J.nodes.key n) v w) : J.Counts n v w := h.1 n rfl

variable [BEq ι₁] [BEq ι₂] [BEq α] [∀ k, BEq (V k)] {rules : Rules K V}

namespace Placed
variable (h : J.Placed rules)
include h

theorem like_of_counts [EquivBEq β] {n : JoinNode ι₁ κ} {v w : V (J.nodes.key n)}
    (hvw : J.Counts n v w) : J.likeness.like (J.nodes.key n) v w := by
  refine ⟨fun m hm => ?_, fun hne => absurd rfl (hne n)⟩
  obtain rfl := h.injective hm
  exact hvw

theorem counts_self [EquivBEq β] (n : JoinNode ι₁ κ) (v : V (J.nodes.key n)) :
    J.Counts n v v := by
  obtain ⟨a, ha⟩ := h.exact_nodes.total n v
  cases n with
  | index => exact ⟨a, a, ha, ha, fun _ => BEq.rfl⟩
  | lookup k => exact ⟨a, a, ha, ha, BEq.rfl⟩
  | item i => trivial

theorem like_self [EquivBEq β] (k : K) (v : V k) : J.likeness.like k v v := by
  refine ⟨fun n hn => ?_, fun _ => rfl⟩
  subst hn
  exact h.counts_self n v

/-- The nodes of a join are no inputs. -/
theorem node_ne {k : K} {absent : V k} (hk : rules k = .input absent) (n : JoinNode ι₁ κ) :
    J.nodes.key n ≠ k := by
  rintro rfl
  rw [h.rule] at hk
  cases hk

theorem left_ne (n : InputNode ι₁) (m : JoinNode ι₁ κ) : J.nodes.key m ≠ J.left.key n :=
  h.node_ne (h.left_input n) m

theorem right_ne (n : InputNode ι₂) (m : JoinNode ι₁ κ) : J.nodes.key m ≠ J.right.key n :=
  h.node_ne (h.right_input n) m

/-- All of a join and its streams are inputs, but for its own nodes. -/
theorem input_or_node {k : K} (hk : J.Has k) :
    (∃ absent, rules k = .input absent) ∨ ∃ n, J.nodes.key n = k := by
  cases hk with
  | left n => exact .inl ⟨_, h.left_input n⟩
  | right n => exact .inl ⟨_, h.right_input n⟩
  | node n => exact .inr ⟨n, rfl⟩

theorem level_node (n : JoinNode ι₁ κ) : J.level (J.nodes.key n) = n.level := by
  have hex : ∃ m, J.nodes.key m = J.nodes.key n := ⟨n, rfl⟩
  rw [level, dif_pos hex, h.injective hex.choose_spec]

/-- The nodes of a join read nodes of lower levels. -/
theorem level_of_reads {n : JoinNode ι₁ κ} {d : K} (hd : J.reads n d) : J.level d < n.level := by
  have hleft (m : InputNode ι₁) : J.level (J.left.key m) = 0 := level_of_ne (h.left_ne m)
  have hright (m : InputNode ι₂) : J.level (J.right.key m) = 0 := level_of_ne (h.right_ne m)
  cases n with
  | index =>
    rcases hd with rfl | ⟨i, -, rfl⟩
    · rw [hright]
      exact Nat.zero_lt_one
    · rw [hright]
      exact Nat.zero_lt_one
  | lookup key =>
    obtain rfl : d = J.nodes.key .index := hd
    rw [h.level_node]
    exact Nat.lt_succ_self 1
  | item i =>
    rcases hd with rfl | ⟨key, rfl⟩
    · rw [hleft]
      exact Nat.zero_lt_succ 2
    · rw [h.level_node]
      exact Nat.lt_succ_self 2

theorem program_heeds {Q : (k : K) → V k → Prop} (n : JoinNode ι₁ κ) :
    (J.program n).Heeds (J.reads n) Q (Unfailing K) Anything :=
  joinProgram_heeds J.nodes h.exact_nodes.total
    (inputStream_heeds J.left h.left_faithful.total fun _ _ _ _ _ _ => trivial)
    (inputStream_heeds J.right h.right_faithful.total fun _ _ _ _ _ _ => trivial)
    (fun _ => .done trivial) (fun _ => .done trivial) n

theorem closed : IsClosed rules J.Has := by
  intro k p hk hrule
  rcases h.input_or_node hk with ⟨absent, hinput⟩ | ⟨n, rfl⟩
  · rw [hinput] at hrule
    cases hrule
  · rw [h.rule] at hrule
    cases hrule
    exact (program_within n).bind fun w => .done (J.nodes.encode n w)

variable [EquivBEq β]

theorem program_alike (n : JoinNode ι₁ κ) : (J.program n).Alike J.likeness Eq
    (fun a b => J.Counts n (J.nodes.encode n a) (J.nodes.encode n b)) (J.program n) := by
  have hplain {N : Type} {W : N → Type} {f : Family K V W} (hf : f.Total)
      (hne : ∀ n m, J.nodes.key m ≠ f.key n) (n : N) : (f.get n).Alike J.likeness Eq Eq (f.get n) :=
    Family.get_alike fun v w hvw => by
      obtain rfl := (like_of_ne (hne n)).mp hvw
      obtain ⟨a, ha⟩ := hf n v
      exact ⟨a, a, ha, ha, rfl⟩
  cases n with
  | index =>
    have hsafe : (J.program .index).Safe (J.reads .index) (Unfailing K) :=
      (h.program_heeds (Q := fun _ _ => True) .index).safe fun _ _ => trivial
    refine (hsafe.alike fun k hk v w hvw => ?_).mono (fun _ _ h => h) fun a b hab => ?_
    · rcases hk with rfl | ⟨i, -, rfl⟩
      · exact (like_of_ne (h.right_ne _)).mp hvw
      · exact (like_of_ne (h.right_ne _)).mp hvw
    · subst hab
      exact h.counts_self .index _
  | lookup key =>
    refine (Family.get_alike (f := J.nodes) (n := .index) fun v w hvw =>
      counts_of_like hvw).bind fun a b hab => .done ?_
    exact ⟨_, _, h.exact_nodes.encode _ _, h.exact_nodes.encode _ _, hab key⟩
  | item i =>
    refine (hplain h.left_faithful.total h.left_ne (.item i)).bind fun x y hxy => ?_
    subst hxy
    cases x with
    | none => exact .done trivial
    | some a =>
      have hlookup (key : κ) : (J.nodes.get (.lookup key)).Alike J.likeness Eq
          (fun a b : List β => (a == b) = true) (J.nodes.get (.lookup key)) :=
        Family.get_alike (f := J.nodes) (n := .lookup key) fun v w hvw => counts_of_like hvw
      exact (Program.Alike.mapM (S := fun a b : List β => (a == b) = true)
        fun key _ => hlookup key).bind fun _ _ _ => .done trivial

end Placed

/-- A graph of nothing but a join and its streams. -/
structure Alone (J : Join K V ι₁ ι₂ κ α β) (rules : Rules K V) : Prop extends J.Placed rules where
  query : ∀ k p, rules k = .query p → ∃ n, J.nodes.key n = k
  known : ∀ k e, rules k ≠ .refused e

/-- Without the other nodes of its graph a join is alone. -/
theorem Placed.alone [∀ k, Nonempty (V k)] (h : J.Placed rules) :
    J.Alone (onlyRules J.Has rules) where
  left_faithful := h.left_faithful
  right_faithful := h.right_faithful
  apart := h.apart
  left_input n := (onlyRules_of_mem (.left n)).trans (h.left_input n)
  right_input n := (onlyRules_of_mem (.right n)).trans (h.right_input n)
  exact_nodes := h.exact_nodes
  injective := h.injective
  rule n := (onlyRules_of_mem (.node n)).trans (h.rule n)
  index_beq := h.index_beq
  lookup_beq := h.lookup_beq
  query k p hk := by
    obtain ⟨hT, hrule⟩ := mem_of_onlyRules_query hk
    rcases h.input_or_node hT with ⟨absent, hinput⟩ | hnode
    · rw [hinput] at hrule
      cases hrule
    · exact hnode
  known k e hk := by
    by_cases hT : J.Has k
    · rw [onlyRules_of_mem hT] at hk
      rcases h.input_or_node hT with ⟨absent, hinput⟩ | ⟨n, rfl⟩
      · rw [hinput] at hk
        cases hk
      · rw [h.rule] at hk
        cases hk
    · rw [onlyRules, if_neg hT] at hk
      cases hk

namespace Alone
variable (h : J.Alone rules)
include h

theorem leveled : Leveled rules J.level where
  safe k p hk := by
    obtain ⟨n, rfl⟩ := h.query k p hk
    rw [h.rule] at hk
    cases hk
    rw [h.level_node]
    exact (Family.rule_safe (h.program_heeds n)).mono (fun d hd => h.level_of_reads hd)
      fun _ h => h
  known := h.known

theorem orderly [EquivBEq β] [Node K] : Orderly rules J.likeness where
  absent k a _ := h.like_self k a
  alike k p hk := by
    obtain ⟨n, rfl⟩ := h.query k p hk
    rw [h.rule] at hk
    cases hk
    have halike : (J.program n).Alike J.likeness SameKind _ (J.program n) :=
      (h.program_alike n).mono (fun _ _ he => congrArg _ he) fun _ _ hab => hab
    exact halike.bind fun a b hab => .done (h.like_of_counts hab)
  relays := h.leveled.relays
  faithful k p v w hk _ _ hvw := by
    obtain ⟨n, rfl⟩ := h.query k p hk
    refine h.like_of_counts ?_
    obtain ⟨a, ha⟩ := h.exact_nodes.total n v
    obtain ⟨b, hb⟩ := h.exact_nodes.total n w
    cases n with
    | index => exact ⟨a, b, ha, hb, h.index_beq v w a b hvw ha hb⟩
    | lookup key => exact ⟨a, b, ha, hb, (h.lookup_beq key v w a b ha hb).symm.trans hvw⟩
    | item i => trivial

end Alone
end
end Join
end SceneCodegen.Graph
