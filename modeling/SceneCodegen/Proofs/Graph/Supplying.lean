import SceneCodegen.Proofs.Graph.Consistency
import SceneCodegen.Proofs.Graph.Denotation

/-!
# Compositions in use

Items are supplied to the input streams of a graph, and between that the graph is read, by itself or
in passes of which some are cancelled. The streams composed in it come to their lists of items all
the while, made from what was supplied last under each key.
-/
namespace SceneCodegen.Graph

variable {K : Type} {V : K → Type} {ι α β : Type} {S : Type} {I A : S → Type}

/-- What is done from outside to a graph with input streams: their items are replaced, or some are
put in and others taken out, or something is done that they have no part in. -/
inductive Deed (K : Type) (V : K → Type) {S : Type} (I A : S → Type)
  | replace (s : S) (items : List (I s × Option (A s)))
  | update (s : S) (items : List (I s × Option (A s))) (removed : List (I s))
  | other (move : Move K V)

section
variable [∀ s, BEq (I s)]

/-- What input streams hold after a deed. -/
def Deed.enter [DecidableEq S] (tables : (s : S) → Table (I s) (Option (A s))) :
    Deed K V I A → (s : S) → Table (I s) (Option (A s))
  | replace s items => Function.update tables s (.ofList items)
  | update s items removed =>
    Function.update tables s (items.foldl (fun t x => t.set x.1 x.2)
      ((tables s).filter fun x => !removed.contains x.1))
  | other _ => tables

/-- What input streams hold after deeds. -/
def supplied [DecidableEq S] (deeds : List (Deed K V I A)) :
    (s : S) → Table (I s) (Option (A s)) :=
  deeds.foldl Deed.enter fun _ => []

variable [BEq K]

def Deed.setting (others : NodeTable K V fun α => α) : Deed K V I A → NodeTable K V fun α => α
  | other (.set k v) => others.set k v
  | _ => others

/-- What other inputs are set to after deeds. -/
def settings (deeds : List (Deed K V I A)) : NodeTable K V fun α => α :=
  deeds.foldl Deed.setting {}

variable [LawfulBEq K] [∀ k, BEq (V k)] [∀ s, ItemKey (I s)]
  (inputs : (s : S) → Family K V (InputNode.Value (I s) (A s)))

def Deed.apply (rules : Rules K V) (st : Store K V) : Deed K V I A → Store K V
  | replace s items => ((inputs s).replaceAll (.ofList items) st).2
  | update s items removed => ((inputs s).update (.ofList items) removed st).2
  | other move => move.apply rules st

def reachBy (rules : Rules K V) (deeds : List (Deed K V I A)) : Store K V :=
  deeds.foldl (Deed.apply inputs rules) {}

omit [∀ s, BEq (I s)] [BEq K] [LawfulBEq K] [∀ k, BEq (V k)] [∀ s, ItemKey (I s)] in
/-- The items of input streams are set by way of the streams only. -/
def Deed.Apart : Deed K V I A → Prop
  | other (.set k _) => ∀ s n, (inputs s).key n ≠ k
  | _ => True

end

section
variable [∀ s, BEq (I s)] [∀ s, BEq (A s)] [Node K] [∀ k, BEq (V k)]
  (inputs : (s : S) → Family K V (InputNode.Value (I s) (A s)))

/-- The nodes of the operators of placed compositions and of what is collected of these. -/
inductive OfOperators (rules : Rules K V) (k : K) : Prop
  | owned {ι α : Type} (e : Composition K V I A ι α) (he : e.Placed inputs rules) (hk : e.Owns k)
  | collected {ι α : Type} (e : Composition K V I A ι α) (he : e.Placed inputs rules)
      (nodes : Family K V fun _ : Unit => List (ι × α)) (hnodes : nodes.Exact)
      (hrule : rules (nodes.key ()) = .query (nodes.rule () (e.stream inputs).items))
      (hk : k = nodes.key ())

/-- Graphs of input streams, compositions of operators, and other values that do not fail whatever
the inputs are. No query tells like values apart. -/
structure Composed (rules : Rules K V) (L : Likeness K V) : Prop extends
    Extensional rules L where
  faithful : ∀ s, (inputs s).Faithful
  apart : ∀ s s' n n', (inputs s).key n = (inputs s').key n' → s = s'
  input : ∀ s n, rules ((inputs s).key n) = .input ((inputs s).encode n n.absent)
  known : ∀ k e, rules k ≠ .refused e
  query : ∀ k p, rules k = .query p → OfOperators inputs rules k ∨
    p.Relays IsCancellation ∧ ∀ given, ∃ n v, settle rules given n k = .ok v

end

section
variable [∀ s, BEq (I s)] [∀ s, BEq (A s)] [Node K] [∀ k, BEq (V k)]
  {inputs : (s : S) → Family K V (InputNode.Value (I s) (A s))} {rules : Rules K V}
  {L : Likeness K V}

namespace Composed
variable (h : Composed inputs rules L)
include h

theorem total (s : S) : (inputs s).Total := (h.faithful s).total

theorem admits (s : S) (held : I s → Option (A s)) (items : Table (I s) (Option (A s))) :
    (inputs s).Admits L held items where
  keys l := h.refl _ _
  absent i := h.refl _ _
  self i a _ := h.refl _ _
  same i a x _ _ hsame := by
    refine h.of_beq _ _ _ ?_
    rw [(h.faithful s).item_beq]
    exact hsame

theorem relays {k : K} {p : Program K V (V k)} (hk : rules k = .query p) :
    p.Relays IsCancellation := by
  have hrelays {N : Type} {W : N → Type} {f : Family K V W} {n : N} {q : Program K V (W n)}
      {T : K → Prop} (hrule : rules (f.key n) = .query (f.rule n q)) (hq : q.Plain T)
      (hn : k = f.key n) : p.Relays IsCancellation := by
    subst hn
    obtain rfl : p = f.rule n q := by
      rw [hrule] at hk
      exact (Rule.query.inj hk).symm
    exact (Family.rule_safe hq).relays
  rcases h.query k p hk with (⟨e, he, howned⟩ | ⟨e, he, nodes, hnodes, hrule, hn⟩) | hother
  · cases e with
    | input s => exact howned.elim
    | map nodes source f =>
      obtain ⟨n, hn⟩ := howned
      have hsource := source.stream_plain h.total he.1
      exact hrelays (he.2.2 n) (mapProgram_plain (T := NoNode) he.2.1.total hsource
        (fun a => .done trivial) n) hn
    | combine nodes source shared f =>
      obtain ⟨n, hn⟩ := howned
      have hsource := source.stream_plain h.total he.1
      exact hrelays (he.2.2.2.2 n) (mapProgram_plain he.2.1.total hsource (fun a =>
        (Family.heeds_any he.2.2.1.total ()).bind fun _ _ => .done trivial) n) hn
    | flatten nodes source explode =>
      obtain ⟨n, hn⟩ := howned
      have hsource := source.stream_plain h.total he.1
      exact hrelays (he.2.2 n) ((flatProgram_heeds nodes he.2.1.total hsource
        (fun a => .done trivial) n).mono (fun _ h => h) (fun _ h => h) fun _ _ => trivial) hn
    | join nodes left right leftKeys rightKey =>
      obtain ⟨n, hn⟩ := howned
      have hleft := left.stream_plain h.total he.1
      have hright := right.stream_plain h.total he.2.1
      exact hrelays (he.2.2.2 n) (joinProgram_heeds nodes he.2.2.1.total hleft hright
        (fun a => .done trivial) (fun b => .done trivial) n) hn
  · exact hrelays hrule (e.stream_plain h.total he).items hn
  · exact hother.1

theorem orderly : Orderly rules L := h.toExtensional.orderly fun _ _ => h.relays

/-- Whatever the inputs are, every node has a value. -/
theorem settles (given : Inputs K V) (k : K) : ∃ n v, settle rules given n k = .ok v := by
  have hrules (s : S) (n : InputNode (I s)) : ∃ absent, rules ((inputs s).key n) = .input absent :=
    ⟨_, h.input s n⟩
  cases hk : rules k with
  | input absent => exact ⟨0, _, settle_input hk 0⟩
  | refused e => exact absurd hk (h.known k e)
  | query p =>
    rcases h.query k p hk with (⟨e, he, howned⟩ | ⟨e, he, nodes, hnodes, hrule, rfl⟩) | hother
    · obtain ⟨depth, -, hdepth⟩ := e.exists_settled h.total hrules he given
      exact ⟨depth, hdepth k howned⟩
    · obtain ⟨depth, hwithin, -⟩ := e.exists_settled h.total hrules he given
      exact ⟨depth + 1, settledAt_rule hrule (e.stream_plain h.total he).items
        fun d hd => hwithin.items hd⟩
    · exact hother.2 given

/-- Nodes have values that fit each other. -/
theorem exists_valuation (given : Inputs K V) : ∃ value, Valuation rules given value ∧
    ∀ k, ∃ n, settle rules given n k = .ok (value k) := by
  have hsettles (k : K) : ∃ v n, settle rules given n k = .ok v := by
    obtain ⟨n, v, hv⟩ := h.settles given k
    exact ⟨v, n, hv⟩
  obtain ⟨value, hvalue⟩ := Classical.skolem.mp hsettles
  refine ⟨value, .of_settles fun k => ?_, hvalue⟩
  obtain ⟨n, hn⟩ := hvalue k
  exact ⟨n, hn⟩

/-- There are inputs by which the streams hold the entries of tables. -/
theorem exists_given [∀ s, Ordered (I s)] (tables : (s : S) → Table (I s) (Option (A s)))
    (before : Inputs K V) : ∃ given : Inputs K V,
      (∀ s n, given ((inputs s).key n) =
        some ((inputs s).encode n (Composition.held (tables s) n))) ∧
      ∀ k, (∀ s n, (inputs s).key n ≠ k) → given k = before k := by
  have hnode (k : K) : ∃ x : Option (V k),
      (∀ s n (hk : (inputs s).key n = k),
        x = some (hk ▸ (inputs s).encode n (Composition.held (tables s) n))) ∧
      ((∀ s n, (inputs s).key n ≠ k) → x = before k) := by
    by_cases hk : ∃ s n, (inputs s).key n = k
    · obtain ⟨s, n, rfl⟩ := hk
      refine ⟨some ((inputs s).encode n (Composition.held (tables s) n)), ?_,
        fun hne => (hne s n rfl).elim⟩
      intro s' n' hk
      obtain rfl := h.apart s' s n' n hk
      obtain rfl := (h.faithful s').injective n' n hk
      rfl
    · exact ⟨before k, fun s n he => (hk ⟨s, n, he⟩).elim, fun _ => rfl⟩
  obtain ⟨given, hgiven⟩ := Classical.skolem.mp hnode
  exact ⟨given, fun s n => (hgiven _).1 s n rfl, fun k => (hgiven k).2⟩

end Composed
end

instance [BEq ι] [LawfulBEq ι] [ItemKey ι] [Ordered ι] [Sorts ι] : Ranked ι where
  exists_sorted l := ⟨Ordered.arrange l, Sorts.sorted_eq l, fun i => by simp [Ordered.arrange]⟩
  sorted_congr l l' h := by
    rw [Sorts.sorted_eq, Sorts.sorted_eq, Ordered.arrange_congr h]

/-- What is put in is found, and what is taken out is not. -/
theorem get?_updated [BEq ι] [LawfulBEq ι] (t : Table ι (Option α)) (items : List (ι × Option α))
    (removed : List ι) (i : ι) :
    Table.get? i (items.foldl (fun t x => t.set x.1 x.2)
        (t.filter fun x => !removed.contains x.1)) =
      updatedEntry (fun i => t.get? i) (.ofList items) removed i := by
  rw [updatedEntry, Table.get?_ofList, Table.get?_foldl_set,
    Table.get?_filter i fun i => !removed.contains i]
  cases removed.contains i <;> rfl

section
variable [BEq K] [LawfulBEq K] [Node K] [∀ k, BEq (V k)] [∀ s, BEq (I s)] [∀ s, BEq (A s)]
  [∀ s, ItemKey (I s)] {inputs : (s : S) → Family K V (InputNode.Value (I s) (A s))}
  {rules : Rules K V} {L : Likeness K V} {tables : (s : S) → Table (I s) (Option (A s))}
  {others : NodeTable K V fun α => α} {st : Store K V}

/-- A store at rest whose input streams hold the entries of tables, and whose other inputs are set
to those of a table, or to what counts as that. -/
structure Stocked (inputs : (s : S) → Family K V (InputNode.Value (I s) (A s)))
    (rules : Rules K V) (L : Likeness K V) (tables : (s : S) → Table (I s) (Option (A s)))
    (others : NodeTable K V fun α => α) (st : Store K V) : Prop where
  rest : AtRest rules L st
  nodup : ∀ s, (tables s).keys.Nodup
  carries : ∀ s, (inputs s).Carries L st fun i => (tables s).get? i
  others : ∀ k, (∀ s n, (inputs s).key n ≠ k) →
    Option.Rel (L.like k) (st.input? k) (others.get? k)

omit [Node K] [∀ k, BEq (V k)] [∀ s, BEq (A s)] in
/-- Whatever is done beside them, input streams hold what they held. -/
theorem Stocked.of_same (hst : Stocked inputs rules L tables others st) {st' : Store K V}
    (hrest : AtRest rules L st') (hsame : ∀ s n, st'.input? ((inputs s).key n) =
      st.input? ((inputs s).key n)) {others' : NodeTable K V fun α => α}
    (hothers : ∀ k, (∀ s n, (inputs s).key n ≠ k) →
      Option.Rel (L.like k) (st'.input? k) (others'.get? k)) :
    Stocked inputs rules L tables others' st' :=
  ⟨hrest, hst.nodup, fun s => (hst.carries s).of_same (hsame s), hothers⟩

namespace Composed
variable (h : Composed inputs rules L)
include h

theorem set (hst : Stocked inputs rules L tables others st) {k : K} (v : V k)
    (hk : ∀ s n, (inputs s).key n ≠ k) :
    Stocked inputs rules L tables (others.set k v) (st.setInput k v).2 := by
  obtain ⟨hset, -⟩ := setInput_set hst.rest.idle k v
  have hinput {d : K} (hd : d ≠ k) : (st.setInput k v).2.input? d = st.input? d := by
    rw [Store.input?, Store.input?, hset.other d (by simpa using hd)]
  refine hst.of_same (hst.rest.setInput (h.refl k v)) (fun s n => hinput (hk s n)) ?_
  intro d hd
  by_cases he : d = k
  · subst he
    rw [NodeTable.get?_set_self]
    cases hset.took d v (by simp) with
    | kept _ hbeq hnew =>
      rw [Store.input?, hnew]
      exact .some (h.of_beq _ _ _ hbeq)
    | changed _ _ _ hnew =>
      rw [Store.input?, hnew]
      exact .some (h.refl d v)
  · rw [NodeTable.get?_set_of_ne _ fun hkd => he hkd.symm, hinput he]
    exact hst.others d hd

theorem run (hst : Stocked inputs rules L tables others st) (depth : Nat)
    (program : Program K V Unit) :
    Stocked inputs rules L tables others (program.run rules depth st).2 := by
  have hfirm (k : K) : Firm rules st.input? k := by
    obtain ⟨n, v, hv⟩ := h.settles st.input? k
    exact firm_of_settles hv
  obtain ⟨hrest, hinputs⟩ := hst.rest.run h.orderly (steady_firm rules st.input?)
    (program.within_univ.mono fun k _ => hfirm k) depth
  refine hst.of_same hrest (fun s n => congrFun hinputs _) fun k hk => ?_
  rw [show (program.run rules depth st).2.input? k = st.input? k from congrFun hinputs k]
  exact hst.others k hk

theorem other (hst : Stocked inputs rules L tables others st) {move : Move K V}
    (hmove : (Deed.other move : Deed K V I A).Apart inputs) :
    Stocked inputs rules L tables ((Deed.other move : Deed K V I A).setting others)
      (move.apply rules st) := by
  cases move with
  | set k v => exact h.set hst v hmove
  | run depth program => exact h.run hst depth program
  | enter token => exact hst.of_same (hst.rest.beginPass token) (fun _ _ => rfl) hst.others
  | leave wasCancelled =>
    exact hst.of_same (hst.rest.endPass wasCancelled) (fun _ _ => rfl) hst.others

variable [DecidableEq S]

/-- One stream is given other items, and the others are left alone. -/
theorem stocked_of_refilled (hst : Stocked inputs rules L tables others st) {s : S}
    {t : Table (I s) (Option (A s))} {st' : Store K V} (hrefilled : (inputs s).Refilled L st st')
    (hnodup : t.keys.Nodup) (ht : (inputs s).Carries L st' fun i => t.get? i) :
    Stocked inputs rules L (Function.update tables s t) others st' where
  rest := hrefilled.rest rules L (fun _ _ h => h) hst.rest
  nodup s' := by
    by_cases hs : s' = s
    · subst hs
      rwa [Function.update_self]
    · rw [Function.update_of_ne hs]
      exact hst.nodup s'
  carries s' := by
    by_cases hs : s' = s
    · subst hs
      rwa [Function.update_self]
    · rw [Function.update_of_ne hs]
      refine (hst.carries s').of_same fun n => hrefilled.other _ fun n' he => hs ?_
      exact (h.apart s s' n' n he).symm
  others k hk := by
    rw [hrefilled.other k (hk s)]
    exact hst.others k hk

variable [∀ s, LawfulBEq (I s)] [∀ s, Ordered (I s)] [∀ s, Sorts (I s)]

theorem replace (hst : Stocked inputs rules L tables others st) (s : S)
    (items : List (I s × Option (A s))) :
    Stocked inputs rules L (Function.update tables s (.ofList items)) others
      ((inputs s).replaceAll (.ofList items) st).2 := by
  obtain ⟨changed, st', heq, hrefilled, hcarries⟩ := (h.faithful s).replaceAll_carries
    (hst.carries s) (h.admits s _ (.ofList items)) hst.rest.idle (Table.nodup_ofList _)
  rw [heq]
  exact h.stocked_of_refilled hst hrefilled (Table.nodup_ofList _) hcarries

theorem update (hst : Stocked inputs rules L tables others st) (s : S)
    (items : List (I s × Option (A s))) (removed : List (I s)) :
    Stocked inputs rules L (Function.update tables s (items.foldl (fun t x => t.set x.1 x.2)
      ((tables s).filter fun x => !removed.contains x.1))) others
      ((inputs s).update (.ofList items) removed st).2 := by
  obtain ⟨changed, st', heq, hrefilled, hcarries⟩ := (h.faithful s).update_carries
    (hst.carries s) (h.admits s _ (.ofList items)) hst.rest.idle (Table.nodup_ofList _) removed
  rw [heq]
  refine h.stocked_of_refilled hst hrefilled ?_ ?_
  · refine Table.nodup_foldl_set items ?_
    rw [Table.keys_filter fun i => !removed.contains i]
    exact (hst.nodup s).filter _
  · rw [funext fun i => get?_updated (tables s) items removed i]
    exact hcarries

omit [DecidableEq S] in
theorem empty : Stocked inputs rules L (fun _ => []) {} {} where
  rest := .empty
  nodup _ := List.nodup_nil
  carries _ := (Family.tallies_empty fun _ => h.refl _ _).carries
  others _ _ := .none

/-- Whatever is done, the input streams hold what was supplied last. -/
theorem stocked {deeds : List (Deed K V I A)} (hdeeds : ∀ d ∈ deeds, d.Apart inputs) :
    Stocked inputs rules L (supplied deeds) (settings deeds) (reachBy inputs rules deeds) := by
  have hstep (d : Deed K V I A) (hd : d.Apart inputs)
      {tables : (s : S) → Table (I s) (Option (A s))} {others : NodeTable K V fun α => α}
      {st : Store K V} (hst : Stocked inputs rules L tables others st) :
      Stocked inputs rules L (d.enter tables) (d.setting others) (d.apply inputs rules st) := by
    cases d with
    | replace s items => exact h.replace hst s items
    | update s items removed => exact h.update hst s items removed
    | other move => exact h.other hst hd
  have hrun (tables : (s : S) → Table (I s) (Option (A s))) (others : NodeTable K V fun α => α)
      (st : Store K V) (hst : Stocked inputs rules L tables others st) :
      Stocked inputs rules L (deeds.foldl Deed.enter tables) (deeds.foldl Deed.setting others)
        (deeds.foldl (Deed.apply inputs rules) st) := by
    induction deeds generalizing tables others st with
    | nil => exact hst
    | cons d deeds ih =>
      exact ih (fun d' hd' => hdeeds d' (List.mem_cons_of_mem d hd')) _ _ _
        (hstep d (hdeeds d List.mem_cons_self) hst)
  exact hrun _ _ _ h.empty

end Composed

variable [DecidableEq S] [∀ s, LawfulBEq (I s)] [∀ s, Ordered (I s)] [∀ s, Sorts (I s)]

/-- The same was supplied to the input streams, in whatever order, and other inputs are set to the
same. -/
structure SameSupplies (inputs : (s : S) → Family K V (InputNode.Value (I s) (A s)))
    (deeds deeds' : List (Deed K V I A)) : Prop where
  apart : ∀ d ∈ deeds', d.Apart inputs
  items : ∀ s i, (supplied deeds' s).get? i = (supplied deeds s).get? i
  others : ∀ k, (∀ s n, (inputs s).key n ≠ k) →
    (settings deeds').get? k = (settings deeds).get? k

theorem Composed.likeInputs (h : Composed inputs rules L) {deeds deeds' : List (Deed K V I A)}
    (hsame : SameSupplies inputs deeds deeds') {given : Inputs K V}
    (hgiven : ∀ s n, given ((inputs s).key n) =
      some ((inputs s).encode n (Composition.held (supplied deeds s) n)))
    (hother : ∀ k, (∀ s n, (inputs s).key n ≠ k) →
      given k = (settings deeds).get? k) :
    LikeInputs rules L given (reachBy inputs rules deeds').input? := by
  have hst := h.stocked hsame.apart
  intro k absent hk
  by_cases hnode : ∃ s n, (inputs s).key n = k
  · obtain ⟨s, n, rfl⟩ := hnode
    rw [h.input] at hk
    obtain rfl := Rule.input.inj hk
    rw [hgiven, Option.getD_some, ← (h.faithful s).valueOf_eq]
    cases n with
    | keys =>
      obtain ⟨l, hl, hsorted⟩ := (hst.carries s).keys
      rw [Sorts.sorted_eq] at hsorted
      have hkeys : Ordered.arrange (supplied deeds s).keys = Ordered.arrange l := by
        refine Ordered.arrange_congr fun i => ?_
        rw [hl, hsame.items, Option.isSome_iff_ne_none, ne_eq, Table.get?_eq_none_iff, not_not]
      rw [Composition.held, hkeys, Except.ok.inj hsorted]
      exact h.refl _ _
    | item i =>
      have hlike := (hst.carries s).like i
      rw [hsame.items] at hlike
      exact L.symm hlike
  · have hne : ∀ s n, (inputs s).key n ≠ k := fun s n he => hnode ⟨s, n, he⟩
    have hlike := hst.others k hne
    rw [hsame.others k hne, ← hother k hne] at hlike
    have hgetD {x y : Option (V k)} (hxy : Option.Rel (L.like k) x y) :
        L.like k (y.getD absent) (x.getD absent) := by
      cases hxy with
      | none => exact h.refl _ _
      | some hxy => exact L.symm hxy
    exact hgetD hlike

/-- What is read of a store by way of streams is what list functions make of the entries of
tables. -/
structure Denotes (inputs : (s : S) → Family K V (InputNode.Value (I s) (A s)))
    (rules : Rules K V) (L : Likeness K V) (tables : (s : S) → Table (I s) (Option (A s)))
    (value : (k : K) → V k) (st : Store K V) : Prop where
  /-- Each node is read as a value like the one it has. -/
  nodes : ∀ k, Comes rules st (.get k) (L.like k (value k))
  items : ∀ {ι α : Type} (e : Composition K V I A ι α), e.Placed inputs rules →
    e.Keeps inputs L → Comes rules st (e.stream inputs).items
      (List.Forall₂ (fun x y => x.1 = y.1 ∧ e.same x.2 y.2) (e.items tables value))
  collected : ∀ {ι α : Type} (e : Composition K V I A ι α)
    (nodes : Family K V fun _ : Unit => List (ι × α)), e.Placed inputs rules → nodes.Exact →
    rules (nodes.key ()) = .query (nodes.rule () (e.stream inputs).items) →
    nodes.Tells L () (List.Forall₂ fun x y => x.1 = y.1 ∧ e.same x.2 y.2) →
    Comes rules st (nodes.get ())
      (List.Forall₂ (fun x y => x.1 = y.1 ∧ e.same x.2 y.2) (e.items tables value))

/-- Whatever was supplied, read and cancelled before, streams come to what their list functions make
of the items supplied last, in whatever order they were supplied. -/
theorem Composed.run_deeds (h : Composed inputs rules L) (deeds : List (Deed K V I A)) :
    ∃ value, ∀ deeds', SameSupplies inputs deeds deeds' →
      Denotes inputs rules L (supplied deeds) value (reachBy inputs rules deeds') := by
  obtain ⟨given, hgiven, hother⟩ :=
    h.exists_given (supplied deeds) (settings deeds).get?
  obtain ⟨value, hvalue, hsettled⟩ := h.exists_valuation given
  have htables (s : S) : (inputs s).Holds value (Composition.held (supplied deeds s)) := by
    intro n
    refine (Program.ComesTo.get ((inputs s).key n)).bind ?_
    rw [hvalue.input _ _ (h.input s n), hgiven, Option.getD_some, (h.faithful s).encode]
    exact .done _
  refine ⟨value, fun deeds' hsame => ?_⟩
  have hcomes {α : Type} {R : α → α → Prop} {p : Program K V α} {T : K → Prop} {a : α}
      (halike : p.Alike L Eq R p) (hsafe : p.Safe T (Unfailing K)) (hp : p.ComesTo value a) :=
    (h.stocked hsame.apart).rest.comes h.orderly (h.settles _) hsettled
      (h.likeInputs hsame hgiven hother) halike hsafe hp
  refine ⟨fun k => ?_, fun e he hkeeps => ?_, fun e nodes he hnodes hrule htells => ?_⟩
  · exact hcomes (.read fun v w hvw => .done hvw) (Program.safe_get (T := fun _ => True) trivial)
      (.get k)
  · obtain ⟨M, hM, hitems, -⟩ := e.exists_lists hvalue htables he
    rw [← hitems]
    exact hcomes (Stream.items_related (e.keys_alike hkeeps) (e.item_alike hkeeps))
      ((e.stream_plain h.total he).items.safe fun _ _ => trivial) hM.items
  · obtain ⟨M, hM, hitems, -⟩ := e.exists_lists hvalue htables he
    obtain ⟨w, hholds, hw⟩ := hnodes.exists_holds (p := fun _ => (e.stream inputs).items) hvalue
      fun _ => hrule
    obtain rfl : w = fun _ => M.items := funext fun _ => (hw ()).unique hM.items
    rw [← hitems]
    exact hcomes (Family.get_alike htells)
      ((Family.heeds_any hnodes.total () (Q := fun _ _ => True)).safe fun _ _ => trivial)
      (hholds ())

end

/-- Orders with their lines, all lines together, and the share of each line. -/
inductive OrderNode
  | order (n : InputNode Nat)
  | line (n : FlatNode Nat (Nat × Nat))
  | all
  | share (n : MapNode (Nat × Nat))
  deriving DecidableEq

namespace OrderNode

abbrev Value : OrderNode → Type
  | .order n => n.Value Nat (List (Nat × Nat))
  | .line n => n.Value Nat (Nat × Nat) (Nat × Nat) Nat
  | .all => List ((Nat × Nat) × Nat)
  | .share n => n.Value (Nat × Nat) Nat

instance : Node OrderNode where
  queryName _ := "order"
  text _ := "order"

instance : Ordered Nat := ⟨compare, inferInstance, inferInstance⟩

instance : ItemKey Nat where
  label := toString
  sorted keys := .ok (Ordered.arrange keys)

instance : ItemKey (Nat × Nat) where
  label _ := "line"
  sorted keys := .ok (Ordered.arrange keys)

instance : Sorts Nat := ⟨fun _ => rfl⟩

instance : Sorts (Nat × Nat) := ⟨fun _ => rfl⟩

instance : (k : OrderNode) → DecidableEq k.Value
  | .order .keys => inferInstanceAs (DecidableEq (List Nat))
  | .order (.item _) => inferInstanceAs (DecidableEq (Option (List (Nat × Nat))))
  | .line (.parts _) => inferInstanceAs (DecidableEq (List (Nat × Nat)))
  | .line .keys => inferInstanceAs (DecidableEq (List (Nat × Nat)))
  | .line (.item _) => inferInstanceAs (DecidableEq (Option Nat))
  | .all => inferInstanceAs (DecidableEq (List ((Nat × Nat) × Nat)))
  | .share (.outcome _) => inferInstanceAs (DecidableEq (Outcome Nat))
  | .share (.item _) => inferInstanceAs (DecidableEq (Option Nat))
  | .share .diagnostics => inferInstanceAs (DecidableEq (List Diagnostic))

def orders (_ : Unit) : Family OrderNode Value (InputNode.Value Nat (List (Nat × Nat))) where
  key := .order
  encode _ w := w
  decode _ v := .ok v

def lineFamily : Family OrderNode Value (FlatNode.Value Nat (Nat × Nat) (Nat × Nat) Nat) where
  key := .line
  encode _ w := w
  decode _ v := .ok v

def allFamily : Family OrderNode Value fun _ : Unit => List ((Nat × Nat) × Nat) where
  key _ := .all
  encode _ w := w
  decode _ v := .ok v

def shareFamily : Family OrderNode Value (MapNode.Value (Nat × Nat) Nat) where
  key := .share
  encode _ w := w
  decode _ v := .ok v

def lines : Composition OrderNode Value (fun _ : Unit => Nat) (fun _ => List (Nat × Nat))
    (Nat × Nat) Nat :=
  .flatten lineFamily (.input ()) id

/-- The number of a line times the number of all lines. A line of nothing has no share. -/
def shareOf (n : Nat) (all : List ((Nat × Nat) × Nat)) : Outcome Nat :=
  { value := if n = 0 then none else some (n * all.length) }

def shares : Composition OrderNode Value (fun _ : Unit => Nat) (fun _ => List (Nat × Nat))
    (Nat × Nat) Nat :=
  .combine shareFamily lines allFamily shareOf

def rules : Rules OrderNode Value
  | .order n => .input n.absent
  | .line n => .query (lineFamily.rule n
      (flatProgram .pairs lineFamily (orders ()).inputStream (fun a => .done a) n))
  | .all => .query (allFamily.rule () (lines.stream orders).items)
  | .share n => .query (shareFamily.rule n (mapProgram shareFamily (lines.stream orders)
      (fun a => do return shareOf a (← allFamily.get ())) n))

theorem orders_total (s : Unit) : (orders s).Total := fun _ v => ⟨v, rfl⟩

theorem all_exact : allFamily.Exact := ⟨fun _ v => ⟨v, rfl⟩, fun _ _ => rfl⟩

theorem lines_placed : lines.Placed orders rules :=
  ⟨trivial, ⟨fun _ v => ⟨v, rfl⟩, fun _ _ => rfl⟩, fun _ => rfl⟩

theorem settles_all (given : Inputs OrderNode Value) :
    ∃ n v, settle rules given n .all = .ok v := by
  obtain ⟨depth, hwithin, -⟩ :=
    lines.exists_settled orders_total (fun _ n => ⟨_, rfl⟩) lines_placed given
  have hplain := (lines.stream_plain orders_total lines_placed).items
  exact ⟨depth + 1, settledAt_rule (f := allFamily) (n := ()) rfl hplain fun d hd =>
    hwithin.items hd⟩

theorem shares_placed : shares.Placed orders rules :=
  ⟨lines_placed, ⟨fun _ v => ⟨v, rfl⟩, fun _ _ => rfl⟩, all_exact, settles_all, fun _ => rfl⟩

theorem composed : Composed orders rules .eq where
  toExtensional := extensional_of_lawful rules
  faithful _ := {
    injective := fun _ _ h => OrderNode.order.inj h
    decode := fun _ v => ⟨v, rfl, rfl⟩
    encode := fun _ _ => rfl
    keys_beq := fun _ _ => by
      rw [Bool.eq_iff_iff, beq_iff_eq, beq_iff_eq]
      rfl
    item_beq := fun _ _ _ => by
      rw [Bool.eq_iff_iff, beq_iff_eq, beq_iff_eq]
      rfl }
  apart _ _ _ _ _ := rfl
  input _ _ := rfl
  known k e h := by cases k <;> cases h
  query k p h := by
    cases k with
    | order n => cases h
    | line n => exact .inl (.owned lines lines_placed ⟨n, rfl⟩)
    | all => exact .inl (.collected lines lines_placed allFamily all_exact rfl rfl)
    | share n => exact .inl (.owned shares shares_placed ⟨n, rfl⟩)

theorem lines_keeps : lines.Keeps orders .eq :=
  ⟨fun v w h => ⟨v, w, rfl, rfl, h⟩, fun _ v w h => ⟨v, w, rfl, rfl, beq_iff_eq.mpr h⟩⟩

/-- Orders are given and read, one is taken out and comes back, and a pass is cancelled. -/
def deeds : List (Deed OrderNode Value (fun _ : Unit => Nat) fun _ => List (Nat × Nat)) :=
  let reading : Program OrderNode Value Unit := (Program.get .all).bind fun _ => .done ()
  [.replace () [(2, some [(1, 5), (0, 3)]), (1, some [(0, 7), (0, 8)])],
    .other (.run 6 reading), .update () [] [2],
    .other (.enter (some { generation := 1 })),
    .other (.run 6 ((Program.get .all).bind fun _ => .cancel reading)), .other (.leave true),
    .update () [(2, some [(1, 9), (0, 0)]), (3, none)] []]

/-- The orders that are left in the end, given at once and in another order. -/
def atOnce : List (Deed OrderNode Value (fun _ : Unit => Nat) fun _ => List (Nat × Nat)) :=
  [.replace () [(3, none), (2, some [(1, 9), (0, 0)]), (1, some [(0, 7), (0, 8)])]]

theorem supplied_deeds : supplied deeds () =
    [(1, some [(0, 7), (0, 8)]), (2, some [(1, 9), (0, 0)]), (3, none)] := by
  decide +kernel

theorem sameSupplies_atOnce : SameSupplies orders deeds atOnce where
  apart d hd := by
    obtain rfl := List.mem_singleton.mp hd
    trivial
  items _ i := by
    have hatOnce : supplied atOnce () =
        [(3, none), (2, some [(1, 9), (0, 0)]), (1, some [(0, 7), (0, 8)])] := by
      decide +kernel
    rw [supplied_deeds, hatOnce]
    by_cases h1 : 1 = i
    · subst h1; rfl
    · by_cases h2 : 2 = i
      · subst h2; rfl
      · simp [Table.get?, h1, h2]
  others _ _ := rfl

theorem items_lines (value : (k : OrderNode) → k.Value) :
    lines.items (supplied deeds) value = [((1, 0), 7), ((2, 0), 0), ((2, 1), 9)] := by
  have hsupplied : (supplied deeds ()).inOrder = supplied deeds () := by
    rw [supplied_deeds]
    exact Table.inOrder_of_perm (.refl _) (by decide)
  show Table.inOrder ((elements id ((supplied deeds ()).inOrder.filterMap
    fun x => x.2.map (x.1, ·))).foldl (fun t p => t.setNew p.1 p.2) []) = _
  rw [hsupplied, supplied_deeds]
  exact Table.inOrder_of_perm (by decide) (by decide)

theorem run_deeds_atOnce :
    ∃ value, Denotes orders rules .eq (supplied deeds) value (reachBy orders rules atOnce) ∧
      Comes rules (reachBy orders rules atOnce) (lines.stream orders).items
        (· = [((1, 0), 7), ((2, 0), 0), ((2, 1), 9)]) := by
  obtain ⟨value, hvalue⟩ := composed.run_deeds deeds
  have hdenotes := hvalue atOnce sameSupplies_atOnce
  refine ⟨value, hdenotes, ?_⟩
  obtain ⟨depth, hcomes⟩ := hdenotes.items lines lines_placed lines_keeps
  refine ⟨depth, fun depth' hle => (hcomes depth' hle).imp_left ?_⟩
  rintro ⟨items, hrun, hsame⟩
  have heq : List.Forall₂ Eq (lines.items (supplied deeds) value) items :=
    hsame.imp fun x y h => Prod.ext h.1 (eq_of_beq h.2)
  rw [List.forall₂_eq_eq_eq, items_lines] at heq
  exact ⟨items, hrun, heq.symm⟩

end OrderNode

end SceneCodegen.Graph
