import Mathlib.Data.List.Sort
import SceneCodegen.Proofs.Graph.Exchanging
import SceneCodegen.Proofs.Graph.Respelling

/-!
# Streams and their histories

Whatever was done to the input streams of a graph before, by their own updates and by reads, a
stream is as its updates leave it, so that the next one does what it says. What is set behind a
stream's back, and what a refused update leaves behind, is not.
-/
namespace SceneCodegen.Graph

namespace Family
variable {K : Type} {V : K → Type} {ι α : Type} [∀ k, BEq (V k)] [BEq ι] [BEq α]
  {f : Family K V (InputNode.Value ι α)} {s s' : Store K V} [BEq K] [LawfulBEq K]

omit [∀ k, BEq (V k)] [BEq α] in
theorem InOrder.of_same [ItemKey ι] (h : f.InOrder s) (hidle : s'.active = [])
    (hsame : ∀ n, s'.input? (f.key n) = s.input? (f.key n)) : f.InOrder s' where
  idle := hidle
  encoded n v hv := h.encoded n v (hsame n ▸ hv)
  arranged hstored := by
    rw [hsame] at hstored
    rw [f.valueOf_congr (hsame .keys)]
    exact h.arranged hstored
  stored i hi := by
    rw [f.valueOf_congr (hsame .keys)] at hi
    rw [hsame]
    exact h.stored i hi
  listed i hi := by
    rw [f.valueOf_congr (hsame (.item i))] at hi
    rw [f.valueOf_congr (hsame .keys)]
    exact h.listed i hi

omit [∀ k, BEq (V k)] [BEq α] in
theorem InOrder.empty [ItemKey ι] : f.InOrder {} where
  idle := rfl
  encoded _ _ hv := by cases hv
  arranged hstored := absurd rfl hstored
  stored _ hi := by cases hi
  listed _ hi := absurd rfl hi

/-- All that is done at inputs other than these is nothing to them. -/
structure Leaves (f : Family K V (InputNode.Value ι α)) (s s' : Store K V) : Prop where
  active : s'.active = s.active
  other : ∀ k, (∀ n, f.key n ≠ k) → s'.inputs.get? k = s.inputs.get? k

omit [∀ k, BEq (V k)] [BEq ι] [BEq α] in
theorem Leaves.trans {s'' : Store K V} (h : f.Leaves s s') (h' : f.Leaves s' s'') :
    f.Leaves s s'' :=
  ⟨h'.active.trans h.active, fun k hk => (h'.other k hk).trans (h.other k hk)⟩

omit [BEq ι] [BEq α] in
theorem setInput_leaves (n : InputNode ι) (v : V (f.key n)) (s : Store K V) :
    f.Leaves s (s.setInput (f.key n) v).2 := by
  rw [Store.setInput]
  split
  · exact ⟨rfl, fun _ _ => rfl⟩
  · split
    · exact ⟨rfl, fun _ _ => rfl⟩
    · exact ⟨rfl, fun k hk => NodeTable.get?_set_of_ne _ (hk n) _⟩

section
variable {P : Store K V → Prop} (hset : ∀ n v s, P s → P (s.setInput (f.key n) v).2)
include hset

omit [BEq ι] [BEq α] in
theorem setItems_keeps (items : List (ι × Option α)) (h : P s) : P (f.setItems items s).2 := by
  induction items generalizing s with
  | nil => exact h
  | cons item rest ih =>
    have hfirst := hset (.item item.1) (f.encode (.item item.1) item.2) s h
    rw [setItems]
    split
    all_goals
      next heq =>
        rw [heq] at hfirst
        first
        | exact hfirst
        | exact ih hfirst

omit [BEq α] in
/-- What is kept when a node of a stream is set is kept when its items are replaced, be they taken
or refused. -/
theorem replaceAll_keeps [ItemKey ι] (items : Table ι (Option α)) (h : P s) :
    P (f.replaceAll items s).2 := by
  rw [replaceAll]
  split
  · exact h
  · next old _ =>
    have hitems := setItems_keeps hset
      ((old.eraseDups.filter fun i => !(Table.keys items).contains i).map (·, none) ++ items) h
    dsimp only
    split
    · next heq =>
      rw [heq] at hitems
      exact hitems
    · next heq =>
      rw [heq] at hitems
      split
      · exact hitems
      · exact hset .keys _ _ hitems

omit [BEq α] in
theorem update_keeps [ItemKey ι] (items : Table ι (Option α)) (removed : List ι) (h : P s) :
    P (f.update items removed s).2 := by
  rw [update]
  split
  · exact h
  · exact replaceAll_keeps hset _ h

end

omit [BEq α] in
/-- Whether items are taken or refused, no other inputs are touched. -/
theorem replaceAll_leaves [ItemKey ι] (items : Table ι (Option α)) (s : Store K V) :
    f.Leaves s (f.replaceAll items s).2 :=
  replaceAll_keeps (fun n v s' h => h.trans (setInput_leaves n v s')) items
    ⟨rfl, fun _ _ => rfl⟩

omit [BEq α] in
theorem update_leaves [ItemKey ι] (items : Table ι (Option α)) (removed : List ι)
    (s : Store K V) : f.Leaves s (f.update items removed s).2 :=
  update_keeps (fun n v s' h => h.trans (setInput_leaves n v s')) items removed
    ⟨rfl, fun _ _ => rfl⟩

omit [BEq α] in
/-- Items that are taken have keys that can be put in order. -/
theorem sorted_of_taken [ItemKey ι] {items : Table ι (Option α)} {changed : List ι}
    (h : (f.replaceAll items s).1 = .ok changed) :
    ∃ keys, ItemKey.sorted items.keys = .ok keys := by
  rw [replaceAll] at h
  split at h
  · cases h
  · dsimp only at h
    split at h
    · cases h
    · split at h
      · cases h
      · next keys heq =>
        rw [sortKeys] at heq
        cases hsorted : ItemKey.sorted items.keys with
        | ok keys => exact ⟨keys, rfl⟩
        | error e =>
          rw [hsorted] at heq
          cases heq

namespace Keyed
variable (hf : f.Keyed)
include hf

theorem currentItems_of_encoded (h : f.Encoded s) : f.currentItems s =
    .ok (.ofList ((f.valueOf .keys s).map fun i => (i, f.valueOf (.item i) s))) :=
  currentItems_of_read (hf.inputValue_of_encoded h)

/-- An update is the replacement by what is there now, without what is taken out, and with what is
put in. -/
theorem update_eq_of_encoded [ItemKey ι] (h : f.Encoded s) (changed : Table ι (Option α))
    (removed : List ι) :
    f.update changed removed s = f.replaceAll (f.updating changed removed s) s := by
  rw [update, hf.currentItems_of_encoded h]
  rfl

end Keyed

omit [∀ k, BEq (V k)] [BEq α] in
theorem unlike_updating [EquivBEq ι] (changed : Table ι (Option α)) (removed : List ι)
    (s : Store K V) : Unlike (Table.keys (f.updating changed removed s)) :=
  Table.unlike_foldl_set changed (Table.unlike_filter _ (Table.unlike_ofList _))

/-- A node of a stream is read as it is set. -/
theorem Keyed.reads {rules : Rules K V} (hf : f.Keyed) {n : InputNode ι}
    (hrule : rules (f.key n) = .input (f.encode n n.absent)) (hidle : s.active = [])
    (h : f.Encoded s) : Reads rules s (f.get n) (f.valueOf n s) := by
  have hvalue : f.decode n ((s.input? (f.key n)).getD (f.encode n n.absent)) =
      .ok (f.valueOf n s) := by
    rw [← hf.inputValue_of_encoded h n, inputValue]
    cases s.input? (f.key n) with
    | none => exact hf.decode n n.absent
    | some v => rfl
  refine Reads.bind (.get hrule hidle) ?_
  rw [hvalue]
  exact fun _ => rfl

/-- What became of a stream whose items were replaced by others. -/
structure Exchanged [ItemKey ι] (rules : Rules K V) (f : Family K V (InputNode.Value ι α))
    (items : Table ι (Option α)) (reported : List ι) (s s' : Store K V) : Prop where
  reads : ∀ n, Reads rules s' (f.get n) (f.valueOf n s')
  /-- The keys count as those given, in order. -/
  keys : ∃ keys, ItemKey.sorted items.keys = .ok keys ∧ (f.valueOf .keys s' == keys) = true
  /-- Each item is the one given, or was there before and counts as it; others are absent. -/
  item : ∀ i, f.valueOf (.item i) s' = (Table.get? i items).join ∨
    (f.valueOf (.item i) s' == (Table.get? i items).join) = true
  /-- The keys reported are those whose item is another than before, each once. -/
  differs : ∀ i, reported.contains i = true ↔
    (f.valueOf (.item i) s == f.valueOf (.item i) s') = false
  once : Unlike reported
  /-- A stream that was set before has the same revision if neither items nor keys changed. -/
  revision : s.input? (f.key .keys) ≠ none → (s'.revision = s.revision ↔
    reported = [] ∧ (f.valueOf .keys s == f.valueOf .keys s') = true)
  /-- The keys do not change alone if they are spelled as before and each had an item. -/
  unchanged : s.input? (f.key .keys) ≠ none → SpelledAlike (f.valueOf .keys s) items.keys →
    (∀ i ∈ f.valueOf .keys s, f.valueOf (.item i) s ≠ none) →
      (s'.revision = s.revision ↔ reported = [])
  other : ∀ k, (∀ n, f.key n ≠ k) → s'.inputs.get? k = s.inputs.get? k

/-- A stream whose updates do what they say. -/
structure Exchanges [ItemKey ι] (rules : Rules K V) (f : Family K V (InputNode.Value ι α))
    (s : Store K V) : Prop where
  reads : ∀ n, Reads rules s (f.get n) (f.valueOf n s)
  replace : ∀ (items : Table ι (Option α)) keys, Unlike items.keys →
    ItemKey.sorted items.keys = .ok keys → (∀ i, Table.get? i items ≠ some none) →
      ∃ changed s', f.replaceAll items s = (.ok changed, s') ∧
        Exchanged rules f items changed s s'
  update : ∀ (changed : Table ι (Option α)) (removed : List ι),
    f.update changed removed s = f.replaceAll (f.updating changed removed s) s

theorem InOrder.exchanges_of_keyed [EquivBEq ι] [PartialEquivBEq α] [ItemKey ι] [Arranging ι]
    {rules : Rules K V} (h : f.InOrder s) (hf : f.Keyed)
    (hrules : ∀ n, rules (f.key n) = .input (f.encode n n.absent)) : Exchanges rules f s where
  reads n := hf.reads (hrules n) h.idle h.encoded
  replace items keys hunlike hkeys hsome := by
    obtain ⟨changed, s₁, s', heq, hfit⟩ := h.replaceAll_fits hf hunlike hkeys
    exact ⟨changed, s', heq, {
      reads := fun n => hf.reads (hrules n) hfit.set.idle hfit.set.encoded
      keys := ⟨keys, hkeys, hfit.keys_given⟩
      item := hfit.item_given
      differs := hfit.changed_iff hsome
      once := hfit.unlike_changed
      revision := hfit.revision_iff
      unchanged := hfit.unchanged_iff hsome
      other := fun _ => hfit.other }⟩
  update := hf.update_eq_of_encoded h.encoded

end Family

section
variable {K : Type} {V : K → Type} {S : Type} {I A : S → Type} [BEq K] [LawfulBEq K]
  [∀ k, BEq (V k)] [∀ s, BEq (I s)] [∀ s, BEq (A s)] [∀ s, ItemKey (I s)]
  {inputs : (s : S) → Family K V (InputNode.Value (I s) (A s))} {rules : Rules K V}

/-- Input streams of a graph, each with nodes of its own. -/
structure Fed (inputs : (s : S) → Family K V (InputNode.Value (I s) (A s)))
    (rules : Rules K V) : Prop where
  keyed : ∀ s, (inputs s).Keyed
  apart : ∀ s s' n n', (inputs s).key n = (inputs s').key n' → s = s'
  input : ∀ s n, rules ((inputs s).key n) = .input ((inputs s).encode n n.absent)

/-- An update of one stream is not refused: its keys can be put in order. -/
def Deed.Taken (inputs : (s : S) → Family K V (InputNode.Value (I s) (A s))) (s : S)
    (st : Store K V) : Deed K V I A → Prop
  | replace s' items => s' = s →
    ∃ changed, ((inputs s').replaceAll (.ofList items) st).1 = .ok changed
  | update s' items removed => s' = s →
    ∃ changed, ((inputs s').update (.ofList items) removed st).1 = .ok changed
  | other _ => True

omit [∀ s, BEq (A s)] in
theorem reachBy_snoc (deeds : List (Deed K V I A)) (d : Deed K V I A) :
    reachBy inputs rules (deeds ++ [d]) = d.apply inputs rules (reachBy inputs rules deeds) := by
  rw [reachBy, List.foldl_append]
  rfl

namespace Fed
variable (h : Fed inputs rules) {s : S} {st : Store K V}
include h

/-- What is done to another stream, taken or refused, leaves a stream in order. -/
theorem inOrder_of_leaves {s' : S} (hs : s' ≠ s) {st' : Store K V}
    (hst : (inputs s).InOrder st) (hleaves : (inputs s').Leaves st st') :
    (inputs s).InOrder st' := by
  refine hst.of_same (hleaves.active.trans hst.idle) fun n => ?_
  rw [Store.input?, Store.input?, hleaves.other _ fun n' heq => hs (h.apart s' s n' n heq)]

variable [∀ s, EquivBEq (I s)] [∀ s, Arranging (I s)]

theorem inOrder_of_replaced (hst : (inputs s).InOrder st) {items : Table (I s) (Option (A s))}
    (hitems : Unlike items.keys)
    (htaken : ∃ changed, ((inputs s).replaceAll items st).1 = .ok changed) :
    (inputs s).InOrder ((inputs s).replaceAll items st).2 := by
  obtain ⟨changed, htaken⟩ := htaken
  obtain ⟨keys, hkeys⟩ := Family.sorted_of_taken htaken
  obtain ⟨changed, s₁, st', heq, hfit⟩ := hst.replaceAll_fits (h.keyed s) hitems hkeys
  rw [heq]
  exact hfit.after

theorem inOrder_apply (hst : (inputs s).InOrder st) {d : Deed K V I A} (hapart : d.Apart inputs)
    (htaken : d.Taken inputs s st) : (inputs s).InOrder (d.apply inputs rules st) := by
  cases d with
  | replace s' items =>
    by_cases hs : s' = s
    · subst hs
      exact h.inOrder_of_replaced hst (Table.unlike_ofList items) (htaken rfl)
    · exact h.inOrder_of_leaves hs hst (Family.replaceAll_leaves _ st)
  | update s' items removed =>
    by_cases hs : s' = s
    · subst hs
      have htaken := htaken rfl
      rw [(h.keyed s').update_eq_of_encoded hst.encoded] at htaken
      rw [Deed.apply, (h.keyed s').update_eq_of_encoded hst.encoded]
      exact h.inOrder_of_replaced hst (Family.unlike_updating _ _ _) htaken
    · exact h.inOrder_of_leaves hs hst (Family.update_leaves _ _ st)
  | other move =>
    cases move with
    | set k v =>
      rcases setInput_idle hst.idle k v with ⟨_, _, _, heq⟩ | ⟨-, s', heq, -, hidle, -, hother⟩
      · rw [Deed.apply, Move.apply, heq]
        exact hst
      · rw [Deed.apply, Move.apply, heq]
        exact hst.of_same hidle fun n => Family.input?_congr (hother _ (hapart s n))
    | run depth program =>
      have hsame := run_inputs rules depth program st
      refine hst.of_same (run_idle rules depth program hst.idle) fun n => ?_
      rw [Store.input?, Store.input?]
      exact congrArg (fun inputs => (NodeTable.get? inputs _).map _) hsame.inputs
    | enter token => exact hst.of_same hst.idle fun _ => rfl
    | leave wasCancelled => exact hst.of_same hst.idle fun _ => rfl

theorem inOrder {deeds : List (Deed K V I A)} (hapart : ∀ d ∈ deeds, d.Apart inputs)
    (htaken : ∀ before d after, deeds = before ++ d :: after →
      d.Taken inputs s (reachBy inputs rules before)) :
    (inputs s).InOrder (reachBy inputs rules deeds) := by
  induction deeds using List.reverseRecOn with
  | nil => exact .empty
  | append_singleton deeds d ih =>
    rw [reachBy_snoc]
    refine h.inOrder_apply (ih (fun d' hd' => hapart d' (List.mem_append_left _ hd')) ?_)
      (hapart d (by simp)) (htaken deeds d [] rfl)
    rintro before d' after rfl
    exact htaken before d' (after ++ [d]) (by simp)

/-- Whatever was done to the streams of a graph and read of it before, as long as no update of a
stream was refused, its updates do what they say. -/
theorem exchanges [∀ s, PartialEquivBEq (A s)] (s : S) (deeds : List (Deed K V I A))
    (hapart : ∀ d ∈ deeds, d.Apart inputs)
    (htaken : ∀ before d after, deeds = before ++ d :: after →
      d.Taken inputs s (reachBy inputs rules before)) :
    (inputs s).Exchanges rules (reachBy inputs rules deeds) :=
  (h.inOrder hapart htaken).exchanges_of_keyed (h.keyed s) (h.input s)

end Fed
end

namespace Numeral

/-- Numbers with a point come first, as their type has the first word. -/
def order (a b : Numeral) : Ordering :=
  compareLex (compareOn fun n => !n.pointed) (compareOn (·.value)) a b

instance : Std.TransCmp order :=
  inferInstanceAs (Std.TransCmp (compareLex (compareOn fun n : Numeral => !n.pointed)
    (compareOn (·.value))))

instance : Std.LawfulEqCmp order where
  eq_of_compare {a b} h := by
    rcases a with ⟨v, p⟩
    rcases b with ⟨w, q⟩
    obtain ⟨hp, hv⟩ := Ordering.then_eq_eq.mp h
    have hpq : (!p) = !q := Std.LawfulEqCmp.eq_of_compare hp
    have hvw : v = w := Std.LawfulEqCmp.eq_of_compare hv
    rw [hvw, Bool.not_inj hpq]

instance : ItemKey Numeral where
  label n := toString n.value
  sorted keys := .ok (keys.insertionSort fun a b => (order a b).isLE)

instance : Arranging Numeral := .of_order order fun l => by
  have : Std.Total fun a b : Numeral => ((order a b).isLE : Prop) := ⟨fun a b => by
    have hswap : order b a = (order a b).swap := Std.OrientedCmp.eq_swap
    rw [hswap]
    cases order a b <;> simp⟩
  have : IsTrans Numeral fun a b => ((order a b).isLE : Prop) :=
    ⟨fun _ _ _ hab hbc => Std.TransCmp.isLE_trans hab hbc⟩
  exact ⟨_, rfl, List.perm_insertionSort _ l, List.pairwise_insertionSort _ l⟩

end Numeral

/-- How many there are of the things under a number. -/
abbrev Tally : InputNode Nat → Type
  | .keys => List Numeral
  | .item _ => Option Nat

namespace Tally

instance : (k : InputNode Nat) → BEq (Tally k)
  | .keys => inferInstanceAs (BEq (List Numeral))
  | .item _ => inferInstanceAs (BEq (Option Nat))

def counts (_ : Unit) : Family (InputNode Nat) Tally (InputNode.Value Numeral Nat) where
  key
    | .keys => .keys
    | .item n => .item n.value
  encode
    | .keys, l => l
    | .item _, x => x
  decode
    | .keys, l => .ok l
    | .item _, x => .ok x

def rules : Rules (InputNode Nat) Tally
  | .keys => .input []
  | .item _ => .input none

theorem fed : Fed counts rules where
  keyed _ := {
    item_ne_keys := fun _ h => by cases h
    item_iff := fun i j => by
      rw [show ((i == j) = true) = ((i.value == j.value) = true) from rfl, beq_iff_eq]
      exact ⟨fun h => InputNode.item.inj h, congrArg InputNode.item⟩
    decode := fun n w => by cases n <;> rfl
    respell := fun i j h a => by
      rcases i with ⟨v, p⟩
      rcases j with ⟨w, q⟩
      cases h
      rfl
    keys_beq := fun _ _ => rfl
    item_beq := fun _ _ _ => rfl }
  apart _ _ _ _ _ := rfl
  input _ n := by cases n <;> rfl

abbrev Step := Deed (InputNode Nat) Tally (fun _ : Unit => Numeral) fun _ => Nat

/-- Two counts are given, the keys are read, and one count is taken out. -/
def deeds : List Step :=
  [.replace () [(⟨0, false⟩, some 5), (⟨1, false⟩, some 7)],
    .other (.run 1 ((Program.get .keys).bind fun _ => .done ())), .update () [] [⟨0, true⟩]]

theorem apart_deeds : ∀ d ∈ deeds, d.Apart counts := by
  intro d hd
  simp only [deeds, List.mem_cons, List.not_mem_nil, or_false] at hd
  rcases hd with rfl | rfl | rfl <;> trivial

theorem taken_deeds (before : List Step) (d : Step) (after : List Step)
    (h : deeds = before ++ d :: after) : d.Taken counts () (reachBy counts rules before) := by
  rcases before with _ | ⟨a, _ | ⟨b, _ | ⟨c, rest⟩⟩⟩
  all_goals simp only [deeds, List.nil_append, List.cons_append, List.cons.injEq] at h
  · obtain ⟨rfl, -⟩ := h
    exact fun _ => ⟨_, rfl⟩
  · obtain ⟨rfl, rfl, -⟩ := h
    trivial
  · obtain ⟨rfl, rfl, rfl, -⟩ := h
    exact fun _ => ⟨_, rfl⟩
  · simp at h

end Tally

theorem exchanges_tally : (∀ d ∈ Tally.deeds, d.Apart Tally.counts) ∧
    (∀ before d after, Tally.deeds = before ++ d :: after →
      d.Taken Tally.counts () (reachBy Tally.counts Tally.rules before)) ∧
    (Tally.counts ()).Exchanges Tally.rules (reachBy Tally.counts Tally.rules Tally.deeds) :=
  ⟨Tally.apart_deeds, Tally.taken_deeds,
    Tally.fed.exchanges () Tally.deeds Tally.apart_deeds Tally.taken_deeds⟩

/-- A key is spelled anew: no item changes, and yet the revision does, as the keys change their
order. And an item that was set behind the stream's back stays when the stream's items are
replaced. -/
theorem revision_moves_alone :
    (∃ s, (Tally.counts ()).replaceAll [(⟨0, false⟩, some 5), (⟨1, true⟩, some 7)]
        (reachBy Tally.counts Tally.rules
          [.replace () [(⟨0, false⟩, some 5), (⟨1, false⟩, some 7)]]) = (.ok [], s) ∧
      s.revision = (reachBy Tally.counts Tally.rules
        [.replace () [(⟨0, false⟩, some 5), (⟨1, false⟩, some 7)]]).revision + 1) ∧
    ∃ s, (Tally.counts ()).replaceAll [(⟨0, false⟩, some 5)]
        (reachBy Tally.counts Tally.rules [.other (.set (.item 9) (some 3))]) =
          (.ok [⟨0, false⟩], s) ∧
      (Tally.counts ()).valueOf (.item ⟨9, false⟩) s = some 3 :=
  ⟨⟨_, rfl, rfl⟩, _, rfl, rfl⟩

end SceneCodegen.Graph
