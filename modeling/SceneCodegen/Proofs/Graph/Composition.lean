import Mathlib.Data.List.Forall2
import SceneCodegen.Proofs.Graph.Listing
import SceneCodegen.Proofs.Graph.Inputs

/-!
# Compositions of stream operators

A stream is composed of input streams by operators, each with nodes of its own in a graph. Beside
the stream, a composition has a list of items that knows of no graph: what the operators, as
functions of lists, make of the items that were supplied.
-/
namespace SceneCodegen

namespace Graph

/-- Keys any two of which can be compared. -/
class Ordered (ι : Type) where
  order : ι → ι → Ordering
  trans : Std.TransCmp order
  lawful : Std.LawfulEqCmp order

namespace Ordered
variable {ι κ : Type}

instance [Ordered ι] : Std.TransCmp (order (ι := ι)) := trans

instance [Ordered ι] : Std.LawfulEqCmp (order (ι := ι)) := lawful

theorem ne_of_order_eq_lt [Ordered ι] {i j : ι} (h : order i j = .lt) : i ≠ j := by
  rintro rfl
  have hself : order i i = .eq := Std.ReflCmp.compare_self
  rw [hself] at h
  cases h

theorem transCmp_of (cmp : ι → ι → Ordering) [Std.TransCmp cmp] (f : κ → ι) :
    Std.TransCmp fun a b => cmp (f a) (f b) where
  eq_swap := Std.OrientedCmp.eq_swap
  isLE_trans := Std.TransCmp.isLE_trans

/-- Pairs are in the order of their first keys, and then of their second ones. -/
instance [Ordered ι] [Ordered κ] : Ordered (ι × κ) where
  order a b := (order a.1 b.1).then (order a.2 b.2)
  trans :=
    have := transCmp_of (order (ι := ι)) (Prod.fst (β := κ))
    have := transCmp_of (order (ι := κ)) (Prod.snd (α := ι))
    inferInstanceAs <| Std.TransCmp <|
      compareLex (fun a b : ι × κ => order a.1 b.1) fun a b => order a.2 b.2
  lawful := {
    compare_self := by
      intro a
      simp
    eq_of_compare := by
      intro a b h
      obtain ⟨h₁, h₂⟩ := Ordering.then_eq_eq.mp h
      exact Prod.ext (Std.LawfulEqCmp.eq_of_compare h₁) (Std.LawfulEqCmp.eq_of_compare h₂) }

def arrange [BEq ι] [Ordered ι] (keys : List ι) : List ι :=
  keys.eraseDups.mergeSort fun a b => (order a b).isLE

section
variable [BEq ι] [LawfulBEq ι] [Ordered ι]

theorem mem_arrange {keys : List ι} {i : ι} : i ∈ arrange keys ↔ i ∈ keys := by simp [arrange]

/-- Arranged keys are told by which there are. -/
theorem arrange_congr {keys keys' : List ι} (h : ∀ i, i ∈ keys ↔ i ∈ keys') :
    arrange keys = arrange keys' :=
  mergeSort_eraseDups_congr order h

theorem arrange_of_ascending {keys : List ι} (h : keys.Pairwise (order · · = .lt)) :
    arrange keys = keys := by
  rw [arrange, Table.eraseDups_of_nodup (h.imp ne_of_order_eq_lt)]
  exact List.mergeSort_of_pairwise (h.imp fun hlt => by rw [hlt]; rfl)

end

end Ordered

/-- Keys by whose order streams are sorted. -/
class Sorts (ι : Type) [BEq ι] [ItemKey ι] [Ordered ι] : Prop where
  sorted_eq : ∀ keys : List ι, ItemKey.sorted keys = .ok (Ordered.arrange keys)

end Graph

open Graph Ordered

def Table.inOrder {ι α : Type} [BEq ι] [Ordered ι] (t : Table ι α) : List (ι × α) :=
  (arrange t.keys).filterMap fun i => (t.get? i).map (i, ·)

theorem Table.inOrder_of_perm {ι α : Type} [BEq ι] [LawfulBEq ι] [Ordered ι] {t t' : Table ι α}
    (ht : t.Perm t') (h : t'.keys.Pairwise (order · · = .lt)) : t.inOrder = t' := by
  have hkeys : t.keys.Perm t'.keys := ht.map Prod.fst
  have hnodup : t.keys.Nodup := hkeys.nodup_iff.mpr (h.imp ne_of_order_eq_lt)
  have hfound : ∀ x ∈ t', (t.get? x.1).map (x.1, ·) = some x := fun x hx => by
    rw [Table.get?_of_mem hnodup (ht.mem_iff.mpr hx), Option.map_some]
  rw [inOrder, arrange_congr fun i => hkeys.mem_iff, arrange_of_ascending h, keys,
    List.filterMap_map]
  exact (List.filterMap_congr hfound).trans List.filterMap_some

namespace Graph
variable {K : Type} {V : K → Type} {ι κ α β : Type}

/-- Families whose nodes hold any value of their type, and nothing else. -/
structure Family.Exact {N : Type} {W : N → Type} (f : Family K V W) : Prop where
  total : f.Total
  encode : ∀ n w, f.decode n (f.encode n w) = .ok w

/-- Like values of a node are related. -/
def Family.Tells {N : Type} {W : N → Type} (L : Likeness K V) (f : Family K V W) (n : N)
    (R : W n → W n → Prop) : Prop :=
  ∀ v w, L.like (f.key n) v w → ∃ a b, f.decode n v = .ok a ∧ f.decode n w = .ok b ∧ R a b

/-- The elements of items, each under its item's key and its own. -/
def elements (explode : α → List (κ × β)) (items : List (ι × α)) : List ((ι × κ) × β) :=
  items.flatMap fun x => (explode x.2).map fun p => ((x.1, p.1), p.2)

/-- Streams of items of a type under keys of a type: input streams, and what operators make of
streams. The handlers of the operators are functions. -/
inductive Composition (K : Type) (V : K → Type) {S : Type} (I A : S → Type) : Type → Type → Type 1
  | input (s : S) : Composition K V I A (I s) (A s)
  | map {ι α β : Type} [ItemKey ι] [BEq β] (nodes : Family K V (MapNode.Value ι β))
      (source : Composition K V I A ι α) (f : α → Outcome β) : Composition K V I A ι β
  /-- Each item with one value that all share. -/
  | combine {ι α β γ : Type} [ItemKey ι] [BEq β] (nodes : Family K V (MapNode.Value ι β))
      (source : Composition K V I A ι α) (shared : Family K V fun _ : Unit => γ)
      (f : α → γ → Outcome β) : Composition K V I A ι β
  | flatten {ι κ α β : Type} [BEq ι] [LawfulBEq ι] [Ordered ι] [BEq κ] [LawfulBEq κ] [Ordered κ]
      [ItemKey (ι × κ)] [Sorts (ι × κ)] [BEq β]
      (nodes : Family K V (FlatNode.Value ι (ι × κ) (κ × β) β))
      (source : Composition K V I A ι α) (explode : α → List (κ × β)) :
      Composition K V I A (ι × κ) β
  | join {ι₁ ι₂ κ α β : Type} [BEq κ] [LawfulBEq κ] [BEq α] [BEq β]
      (nodes : Family K V (JoinNode.Value ι₁ κ α β)) (left : Composition K V I A ι₁ α)
      (right : Composition K V I A ι₂ β) (leftKeys : α → List κ) (rightKey : β → κ) :
      Composition K V I A ι₁ (JoinPair α β)

namespace Composition
variable {S : Type} {I A : S → Type}

section
variable (inputs : (s : S) → Family K V (InputNode.Value (I s) (A s)))

def stream {ι α : Type} : Composition K V I A ι α → Stream K V ι α
  | input s => (inputs s).inputStream
  | map nodes source _ => nodes.mapStream source.stream
  | combine nodes source _ _ => nodes.mapStream source.stream
  | flatten nodes source _ => nodes.flatStream source.stream
  | join nodes left right _ _ => nodes.joinStream left.stream right.stream

/-- The nodes of a composition have the programs of its operators, and the values that are shared
are there whatever the inputs are. -/
def Placed [Node K] (rules : Rules K V) {ι α : Type} : Composition K V I A ι α → Prop
  | input _ => True
  | map nodes source f => source.Placed rules ∧ nodes.Exact ∧
      ∀ n, rules (nodes.key n) =
        .query (nodes.rule n (mapProgram nodes (source.stream inputs) (fun a => .done (f a)) n))
  | combine nodes source shared f => source.Placed rules ∧ nodes.Exact ∧ shared.Exact ∧
      (∀ given, ∃ n v, settle rules given n (shared.key ()) = .ok v) ∧
      ∀ n, rules (nodes.key n) = .query (nodes.rule n
        (mapProgram nodes (source.stream inputs) (fun a => do return f a (← shared.get ())) n))
  | flatten nodes source explode => source.Placed rules ∧ nodes.Exact ∧
      ∀ n, rules (nodes.key n) = .query (nodes.rule n
        (flatProgram .pairs nodes (source.stream inputs) (fun a => .done (explode a)) n))
  | join nodes left right leftKeys rightKey => left.Placed rules ∧ right.Placed rules ∧
      nodes.Exact ∧ ∀ n, rules (nodes.key n) = .query (nodes.rule n
        (joinProgram nodes (left.stream inputs) (right.stream inputs)
          (fun a => .done (leftKeys a)) (fun b => .done (rightKey b)) n))

end

/-- The nodes of the operator applied last. -/
def Owns {ι α : Type} : Composition K V I A ι α → K → Prop
  | input _, _ => False
  | map nodes _ _, k => ∃ n, k = nodes.key n
  | combine nodes _ _ _, k => ∃ n, k = nodes.key n
  | flatten nodes _ _, k => ∃ n, k = nodes.key n
  | join nodes _ _ _ _, k => ∃ n, k = nodes.key n

section
variable [∀ s, BEq (I s)] [∀ s, Ordered (I s)]

/-- The items that the list functions of the operators make of those in tables, given the values of
nodes that are shared. -/
def items (tables : (s : S) → Table (I s) (Option (A s))) (value : (k : K) → V k) {ι α : Type} :
    Composition K V I A ι α → List (ι × α)
  | input s => (tables s).inOrder.filterMap fun x => x.2.map (x.1, ·)
  | map _ source f =>
    (source.items tables value).filterMap fun x => (f x.2).value.map (x.1, ·)
  | combine _ source shared f =>
    match shared.decode () (value (shared.key ())) with
    | .ok y => (source.items tables value).filterMap fun x => (f x.2 y).value.map (x.1, ·)
    | .error _ => []
  | flatten _ source explode =>
    -- the first of the elements under a key is the one that counts
    Table.inOrder ((elements explode (source.items tables value)).foldl
      (fun t p => t.setNew p.1 p.2) [])
  | join _ left right leftKeys rightKey =>
    (left.items tables value).map fun x =>
      let groups := (leftKeys x.2).eraseDups.map fun k =>
        ((right.items tables value).filter fun y => rightKey y.2 == k).map Prod.snd
      (x.1, ⟨x.2, groups.foldl addMatches []⟩)

/-- What is reported of the items, those of the sources first: as it comes, neither in order
nor each once. -/
def reports (tables : (s : S) → Table (I s) (Option (A s))) (value : (k : K) → V k) {ι α : Type} :
    Composition K V I A ι α → List Diagnostic
  | input _ => []
  | map _ source f =>
    source.reports tables value ++
      (source.items tables value).flatMap fun x => (f x.2).diagnostics
  | combine _ source shared f =>
    match shared.decode () (value (shared.key ())) with
    | .ok y => source.reports tables value ++
        (source.items tables value).flatMap fun x => (f x.2 y).diagnostics
    | .error _ => source.reports tables value
  | flatten _ source _ => source.reports tables value
  | join _ left right _ _ => left.reports tables value ++ right.reports tables value

end

section
variable [∀ s, BEq (A s)]

/-- Whether items count as equal. -/
def same {ι α : Type} : Composition K V I A ι α → α → α → Bool
  | input _ => (· == ·)
  | map .. => (· == ·)
  | combine .. => (· == ·)
  | flatten .. => (· == ·)
  | join .. => (· == ·)

/-- Like values of the nodes that are read for a stream are of equal keys and of equal items. -/
def Keeps (inputs : (s : S) → Family K V (InputNode.Value (I s) (A s))) (L : Likeness K V)
    {ι α : Type} : Composition K V I A ι α → Prop
  | input s => (inputs s).Tells L .keys Eq ∧ ∀ i, (inputs s).Tells L (.item i) fun a b => a == b
  | map nodes source _ => source.Keeps inputs L ∧ ∀ i, nodes.Tells L (.item i) fun a b => a == b
  | combine nodes source _ _ =>
    source.Keeps inputs L ∧ ∀ i, nodes.Tells L (.item i) fun a b => a == b
  | flatten nodes _ _ =>
    nodes.Tells L .keys Eq ∧ ∀ key, nodes.Tells L (.item key) fun a b => a == b
  | join nodes left _ _ _ =>
    left.Keeps inputs L ∧ ∀ i, nodes.Tells L (.item i) fun a b => a == b

end

/-- The nodes that are read for a stream. -/
def sources (inputs : (s : S) → Family K V (InputNode.Value (I s) (A s))) {ι α : Type} :
    Composition K V I A ι α → Sources K ι
  | input s => .ofInputs (inputs s).key
  | map nodes source _ => (source.sources inputs).map nodes.key
  | combine nodes source _ _ => (source.sources inputs).map nodes.key
  | flatten nodes source _ => (source.sources inputs).flat nodes.key
  | join nodes left right _ _ => .join nodes.key (left.sources inputs) (right.sources inputs)

end Composition

section
variable {N : Type} {W : N → Type} {f : Family K V W} {rules : Rules K V} {given : Inputs K V}

/-- The nodes that have a value at a depth. -/
def SettledAt (rules : Rules K V) (given : Inputs K V) (depth : Nat) (k : K) : Prop :=
  ∃ v, settle rules given depth k = .ok v

theorem SettledAt.mono {n m : Nat} {k : K} (h : SettledAt rules given n k) (hle : n ≤ m) :
    SettledAt rules given m k := by
  obtain ⟨v, hv⟩ := h
  exact ⟨v, settle_ok_mono hle hv⟩

/-- A program that reads nodes of a set and does not fail. -/
abbrev Program.Plain (T : K → Prop) (p : Program K V α) : Prop :=
  p.Heeds T (fun _ _ => True) (Unfailing K) Anything

theorem Family.rule_safe {T : K → Prop} {n : N} {p : Program K V (W n)} (hp : p.Plain T) :
    (f.rule n p).Safe T (Unfailing K) :=
  (hp.safe fun _ _ => trivial).bind fun w => .done (f.encode n w)

/-- A node has a value one level above those that its program reads. -/
theorem settledAt_rule {T : K → Prop} {n : N} {p : Program K V (W n)}
    (hrule : rules (f.key n) = .query (f.rule n p)) (hp : p.Plain T) {depth : Nat}
    (hT : ∀ d, T d → SettledAt rules given depth d) :
    SettledAt rules given (depth + 1) (f.key n) := by
  obtain ⟨⟨ks, v⟩, hr⟩ := (Family.rule_safe hp).settleWith hT
  exact ⟨v, by rw [settle_succ hrule, hr]; rfl⟩

end

section
variable {rules : Rules K V} {given : Inputs K V} {depth : Nat} {S : Sources K ι}
  {source : Stream K V ι α} {T : K → Prop}

/-- Streams whose programs read given nodes and do not fail. -/
abbrev Stream.Plain (S : Sources K ι) (s : Stream K V ι α) : Prop :=
  s.Heeds S (fun _ _ => True) fun _ => True

section
variable [Node K] [ItemKey ι] {nodes : Family K V (MapNode.Value ι β)}
  {handler : α → Program K V (Outcome β)}

theorem mapProgram_plain (htotal : nodes.Total) (hsource : source.Plain S)
    (hhandler : ∀ a, (handler a).Plain T) (n : MapNode ι) :
    (mapProgram nodes source handler n).Plain (mapReads nodes.key S (fun _ => True) T n) :=
  mapProgram_heeds nodes htotal hsource
    (fun a => (hhandler a).mono (fun _ h => h) (fun _ h => h.elim) fun _ h => h) n

/-- The nodes of a mapped stream have values two levels above those of its source. -/
theorem settledAt_map (htotal : nodes.Total) (hsource : source.Plain S)
    (hhandler : ∀ a, (handler a).Plain T)
    (hrule : ∀ n, rules (nodes.key n) = .query (nodes.rule n (mapProgram nodes source handler n)))
    (hS : S.Within (SettledAt rules given depth)) (hT : ∀ d, T d → SettledAt rules given depth d)
    (n : MapNode ι) : SettledAt rules given (depth + 2) (nodes.key n) := by
  have hplain := mapProgram_plain htotal hsource hhandler
  have houtcome (i : ι) : SettledAt rules given (depth + 1) (nodes.key (.outcome i)) :=
    settledAt_rule (hrule (.outcome i)) (hplain (.outcome i)) fun d hd =>
      hd.elim (hS.item i d) (hT d)
  have hup (d : K) (h : SettledAt rules given depth d) : SettledAt rules given (depth + 1) d :=
    h.mono (Nat.le_succ depth)
  refine settledAt_rule (hrule n) (hplain n) fun d hd => ?_
  exact mapReads_within (hS.mono hup) (fun d hd => hup d (hT d hd)) (fun i _ => houtcome i)
    (fun _ i _ => houtcome i) hd

end

section
variable [BEq κ] [ItemKey (ι × κ)] [Sortable (ι × κ)]
  {nodes : Family K V (FlatNode.Value ι (ι × κ) (κ × β) β)} {explode : α → List (κ × β)}

theorem settledAt_flat (htotal : nodes.Total) (hsource : source.Plain S)
    (hrule : ∀ n, rules (nodes.key n) =
      .query (nodes.rule n (flatProgram .pairs nodes source (fun a => .done (explode a)) n)))
    (hS : S.Within (SettledAt rules given depth)) (n : FlatNode ι (ι × κ)) :
    SettledAt rules given (depth + 2) (nodes.key n) := by
  have hplain (n : FlatNode ι (ι × κ)) :
      (flatProgram .pairs nodes source (fun a => .done (explode a)) n).Plain
        (flatReads nodes.key S (fun _ => True) n) :=
    (flatProgram_heeds nodes htotal hsource (fun a => .done trivial) n).mono (fun _ h => h)
      (fun _ h => h) fun _ _ => trivial
  have hparts (i : ι) : SettledAt rules given (depth + 1) (nodes.key (.parts i)) :=
    settledAt_rule (hrule (.parts i)) (hplain (.parts i)) fun d hd => hS.item i d hd
  refine settledAt_rule (hrule n) (hplain n) fun d hd => ?_
  exact flatReads_within (hS.mono fun d h => h.mono (Nat.le_succ depth)) (fun _ i _ => hparts i)
    (fun key _ => hparts key.1) hd

end

section
variable {ι₂ : Type} [BEq κ] [BEq β] {nodes : Family K V (JoinNode.Value ι κ α β)}
  {right : Stream K V ι₂ β} {S' : Sources K ι₂} {leftKeys : α → List κ} {rightKey : β → κ}

theorem settledAt_join (htotal : nodes.Total) (hsource : source.Plain S) (hright : right.Plain S')
    (hrule : ∀ n, rules (nodes.key n) = .query (nodes.rule n (joinProgram nodes source right
      (fun a => .done (leftKeys a)) (fun b => .done (rightKey b)) n)))
    (hS : S.Within (SettledAt rules given depth)) (hS' : S'.Within (SettledAt rules given depth))
    (n : JoinNode ι κ) : SettledAt rules given (depth + 3) (nodes.key n) := by
  have hplain (n : JoinNode ι κ) : (joinProgram nodes source right (fun a => .done (leftKeys a))
      (fun b => .done (rightKey b)) n).Plain (joinReads nodes.key S S' (fun _ => True) n) :=
    joinProgram_heeds nodes htotal hsource hright (fun a => .done trivial)
      (fun b => .done trivial) n
  have hindex : SettledAt rules given (depth + 1) (nodes.key .index) :=
    settledAt_rule (hrule .index) (hplain .index) fun d hd => hS'.items hd
  have hlookup (k : κ) : SettledAt rules given (depth + 2) (nodes.key (.lookup k)) :=
    settledAt_rule (hrule (.lookup k)) (hplain (.lookup k)) fun d hd => by
      obtain rfl : d = _ := hd
      exact hindex
  have hup (d : K) (h : SettledAt rules given depth d) : SettledAt rules given (depth + 2) d :=
    h.mono (Nat.le_add_right depth 2)
  refine settledAt_rule (hrule n) (hplain n) fun d hd => ?_
  exact joinReads_within (fun _ => hS.mono hup) (fun _ => hS'.mono hup)
    (fun _ _ => hindex.mono (Nat.le_succ _)) (fun _ k _ => hlookup k) hd

end
end

instance [BEq ι] [LawfulBEq ι] [ItemKey ι] [Ordered ι] [Sorts ι] : Sortable ι where
  exists_sorted keys :=
    ⟨Ordered.arrange keys, Sorts.sorted_eq keys, fun _ hkey => Ordered.mem_arrange.mp hkey⟩

namespace Composition
variable {S : Type} {I A : S → Type} [Node K]
  {inputs : (s : S) → Family K V (InputNode.Value (I s) (A s))} {rules : Rules K V}

theorem stream_plain (hinputs : ∀ s, (inputs s).Total) (e : Composition K V I A ι α)
    (he : e.Placed inputs rules) : (e.stream inputs).Plain (e.sources inputs) := by
  induction e with
  | input s => exact inputStream_heeds (inputs s) (hinputs s) fun _ _ _ _ _ _ => trivial
  | map nodes source f ih => exact mapStream_heeds nodes he.2.1.total (ih he.1)
  | combine nodes source shared f ih => exact mapStream_heeds nodes he.2.1.total (ih he.1)
  | flatten nodes source explode ih =>
    exact flatStream_heeds nodes he.2.1.total (ih he.1) fun _ _ _ _ _ _ => trivial
  | join nodes left right leftKeys rightKey ihl ihr =>
    exact joinStream_heeds nodes he.2.2.1.total (ihl he.1) (ihr he.2.1)

/-- Whatever the inputs are, the nodes of a composition have values at a depth. -/
theorem exists_settled (hinputs : ∀ s, (inputs s).Total)
    (hrules : ∀ s n, ∃ absent, rules ((inputs s).key n) = .input absent)
    (e : Composition K V I A ι α) (he : e.Placed inputs rules) (given : Inputs K V) :
    ∃ depth, (e.sources inputs).Within (SettledAt rules given depth) ∧
      ∀ k, e.Owns k → SettledAt rules given depth k := by
  have hplain {ι α : Type} {e : Composition K V I A ι α} (he : e.Placed inputs rules) :=
    stream_plain hinputs e he
  induction e with
  | input s =>
    refine ⟨0, Sources.Within.ofInputs fun n => ?_, fun _ h => h.elim⟩
    obtain ⟨absent, habsent⟩ := hrules s n
    exact ⟨_, settle_input habsent 0⟩
  | map nodes source f ih =>
    obtain ⟨hsource, hexact, hrule⟩ := he
    obtain ⟨depth, hwithin, -⟩ := ih hsource
    have hnodes := settledAt_map (T := NoNode) hexact.total (hplain hsource)
      (fun a => .done trivial) hrule hwithin (fun _ h => h.elim)
    have hup := hwithin.mono fun d (h : SettledAt rules given depth d) =>
      h.mono (Nat.le_add_right depth 2)
    exact ⟨depth + 2, hup.map (fun i => hnodes _) (hnodes _), by rintro _ ⟨n, rfl⟩; exact hnodes n⟩
  | combine nodes source shared f ih =>
    obtain ⟨hsource, hexact, hshared, hsettles, hrule⟩ := he
    obtain ⟨depth, hwithin, -⟩ := ih hsource
    obtain ⟨depth', v, hv⟩ := hsettles given
    have hhandler {β : Type} (g : _ → Outcome β) :
        (do return g (← shared.get ()) : Program K V (Outcome β)).Plain (· = shared.key ()) :=
      (Family.heeds_any hshared.total ()).bind fun _ _ => .done trivial
    have hmax := hwithin.mono fun d (h : SettledAt rules given depth d) =>
      h.mono (Nat.le_max_left depth depth')
    have hnodes := settledAt_map hexact.total (hplain hsource) (fun a => hhandler (f a)) hrule hmax
      (by rintro _ rfl; exact ⟨v, settle_ok_mono (Nat.le_max_right depth depth') hv⟩)
    have hup := hmax.mono fun d (h : SettledAt rules given _ d) => h.mono (Nat.le_add_right _ 2)
    exact ⟨_, hup.map (fun i => hnodes _) (hnodes _), by rintro _ ⟨n, rfl⟩; exact hnodes n⟩
  | flatten nodes source explode ih =>
    obtain ⟨hsource, hexact, hrule⟩ := he
    obtain ⟨depth, hwithin, -⟩ := ih hsource
    have hnodes := settledAt_flat hexact.total (hplain hsource) hrule hwithin
    have hup := hwithin.mono fun d (h : SettledAt rules given depth d) =>
      h.mono (Nat.le_add_right depth 2)
    exact ⟨depth + 2, hup.flat (hnodes _) fun _ => hnodes _, by rintro _ ⟨n, rfl⟩; exact hnodes n⟩
  | join nodes left right leftKeys rightKey ihl ihr =>
    obtain ⟨hleft, hright, hexact, hrule⟩ := he
    obtain ⟨depth, hwithin, -⟩ := ihl hleft
    obtain ⟨depth', hwithin', -⟩ := ihr hright
    have hmax := hwithin.mono fun d (h : SettledAt rules given depth d) =>
      h.mono (Nat.le_max_left depth depth')
    have hmax' := hwithin'.mono fun d (h : SettledAt rules given depth' d) =>
      h.mono (Nat.le_max_right depth depth')
    have hnodes := settledAt_join hexact.total (hplain hleft) (hplain hright) hrule hmax hmax'
    have hup := hmax.mono fun d (h : SettledAt rules given _ d) => h.mono (Nat.le_add_right _ 3)
    have hup' := hmax'.mono fun d (h : SettledAt rules given _ d) => h.mono (Nat.le_add_right _ 3)
    exact ⟨_, hup.join hup' fun _ => hnodes _, by rintro _ ⟨n, rfl⟩; exact hnodes n⟩

end Composition

end Graph
end SceneCodegen
