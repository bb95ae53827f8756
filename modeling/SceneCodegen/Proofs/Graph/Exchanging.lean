import SceneCodegen.Proofs.Graph.Supplying
import SceneCodegen.Proofs.Spellings

/-!
# Exchanging the items of a stream

What the items of an input stream are after they were replaced, which of them changed, and whether
the revision tells so. Keys may have several spellings that count as the same: these stand for one
item, but the keys of a stream can come to another order by a change of spelling alone.
-/
namespace SceneCodegen.Graph

/-- Keys whose order hangs on nothing but which keys there are, where they can be put in order. -/
class Arranging (ι : Type) [BEq ι] [ItemKey ι] : Prop where
  mem_sorted {l l' : List ι} : Unlike l → ItemKey.sorted l = .ok l' → ∀ i, i ∈ l' ↔ i ∈ l
  sorted_congr {l l' keys : List ι} : Unlike l → Unlike l' → (∀ i, i ∈ l ↔ i ∈ l') →
    ItemKey.sorted l = .ok keys → ItemKey.sorted l' = .ok keys

/-- Keys are in such an order if they are sorted by one that tells them all apart. -/
theorem Arranging.of_order {ι : Type} [BEq ι] [EquivBEq ι] [ItemKey ι] (order : ι → ι → Ordering)
    [Std.TransCmp order] [Std.LawfulEqCmp order] (h : ∀ l : List ι, ∃ l',
      ItemKey.sorted l = .ok l' ∧ l'.Perm l ∧ l'.Pairwise fun i j => (order i j).isLE) :
    Arranging ι where
  mem_sorted {l l'} _ hsorted i := by
    obtain ⟨l'', heq, hperm, -⟩ := h l
    obtain rfl := Except.ok.inj (heq.symm.trans hsorted)
    exact hperm.mem_iff
  sorted_congr {l l' keys} hl hl' hmem hsorted := by
    obtain ⟨m, heq, hperm, hpairwise⟩ := h l
    obtain ⟨m', heq', hperm', hpairwise'⟩ := h l'
    obtain rfl := Except.ok.inj (heq.symm.trans hsorted)
    have hsame : l'.Perm l :=
      (List.perm_ext_iff_of_nodup (Unlike.nodup hl') (Unlike.nodup hl)).mpr fun i => (hmem i).symm
    rw [heq', (hperm'.trans (hsame.trans hperm.symm)).eq_of_pairwise ?_ hpairwise' hpairwise]
    intro i j _ _ hij hji
    exact Std.LawfulEqCmp.eq_of_compare (Std.OrientedCmp.isLE_antisymm hij hji)

instance {ι : Type} [BEq ι] [ItemKey ι] [Ranked ι] : Arranging ι where
  mem_sorted {l l'} _ hsorted := by
    obtain ⟨l'', heq, hmem⟩ := Ranked.exists_sorted l
    obtain rfl := Except.ok.inj (heq.symm.trans hsorted)
    exact hmem
  sorted_congr _ _ hmem hsorted := (Ranked.sorted_congr _ _ hmem).symm.trans hsorted

section
variable {K : Type} {V : K → Type} {α : Type} [BEq K] [LawfulBEq K] [∀ k, BEq (V k)]
  {s : Store K V}

/-- A program gives a value and leaves the state as it is. -/
def Reads (rules : Rules K V) (s : Store K V) (p : Program K V α) (a : α) : Prop :=
  ∀ depth, p.run rules depth s = (.ok a, s)

/-- What comes after a program that gives a value is run as if it came first. -/
theorem Reads.run_bind {β : Type} {rules : Rules K V} {p : Program K V α} {a : α}
    (hp : Reads rules s p a) (f : α → Program K V β) (depth : Nat) :
    (p.bind f).run rules depth s = (f a).run rules depth s := by
  have hrun (below : (k : K) → Reader K V (Stamped (V k))) (s₀ : Store K V)
      (h : p.runWith below s₀ = (.ok a, s)) :
      (p.bind f).runWith below s₀ = (f a).runWith below s := by
    clear hp
    induction p generalizing s₀ with
    | done a' =>
      cases h
      rfl
    | fail e => cases h
    | read k next ih =>
      simp only [Program.bind, Program.runWith] at h ⊢
      split at h
      · exact ih _ _ h
      · exact ih _ _ h
      · cases h
    | cancel next ih => exact ih s₀.cancelPass h
  exact hrun _ s (hp depth)

theorem Reads.bind {β : Type} {rules : Rules K V} {p : Program K V α} {a : α}
    (hp : Reads rules s p a) {f : α → Program K V β} {b : β} (hf : Reads rules s (f a) b) :
    Reads rules s (p.bind f) b :=
  fun depth => (hp.run_bind f depth).trans (hf depth)

theorem Reads.get {rules : Rules K V} {k : K} {absent : V k} (hrule : rules k = .input absent)
    (hidle : s.active = []) : Reads rules s (.get k) ((s.input? k).getD absent) := by
  intro depth
  have hvalue : ((s.inputs.get? k).getD ⟨absent, 0⟩).value = (s.input? k).getD absent := by
    rw [Store.input?]
    cases s.inputs.get? k <;> rfl
  simp only [Program.run, Program.get, Program.runWith, Store.noteRead_of_idle hidle,
    fetch_input hrule, hvalue]

/-- Setting an input from outside: it is left alone or comes to hold the value. -/
theorem setInput_idle (hidle : s.active = []) (k : K) (v : V k) :
    (∃ w, s.input? k = some w ∧ (w == v) = true ∧ s.setInput k v = (.ok false, s)) ∨
    ((∀ w, s.input? k = some w → (w == v) = false) ∧ ∃ s', s.setInput k v = (.ok true, s') ∧
      s'.revision = s.revision + 1 ∧ s'.active = [] ∧ s'.input? k = some v ∧
      ∀ d, d ≠ k → s'.inputs.get? d = s.inputs.get? d) := by
  have hempty : s.active.isEmpty := by simp [hidle]
  simp only [Store.setInput, hempty, Bool.not_true, Bool.false_eq_true, if_false]
  split
  · next hsame =>
    obtain ⟨w, hw, he⟩ := (Option.any_eq_true _ _).mp hsame
    exact .inl ⟨w, hw, he, rfl⟩
  · next hsame =>
    refine .inr ⟨fun w hw => ?_, _, rfl, rfl, hidle, ?_, fun d hd => ?_⟩
    · rw [hw] at hsame
      exact Bool.eq_false_iff.mpr hsame
    · rw [Store.input?, NodeTable.get?_set_self]
      rfl
    · exact NodeTable.get?_set_of_ne _ (Ne.symm hd) _

omit [∀ k, BEq (V k)] in
theorem input?_of_eq {k d : K} (h : k = d) {v : V k} (hv : s.input? k = some v) :
    s.input? d = some (h ▸ v) := by
  subst h
  exact hv

/-- A present value counts as itself if it counts as another. -/
theorem beq_self_of_beq {β : Type} [BEq β] [PartialEquivBEq β] {a b : Option β}
    (h : (a == b) = true) : (a == a) = true := by
  cases a with
  | none => rfl
  | some a =>
    cases b with
    | none => cases h
    | some b =>
      have hab : (a == b) = true := h
      have haa : (a == a) = true := BEq.trans hab (BEq.symm hab)
      exact haa

end

namespace Family
section
variable {ι α : Type} [BEq ι]

/-- What is set when the items of a stream are replaced: keys that are not there any more are left
without an item. -/
def exchange (old : List ι) (items : Table ι (Option α)) : List (ι × Option α) :=
  (missing old items).map (·, none) ++ items

theorem keys_exchange (old : List ι) (items : Table ι (Option α)) :
    (exchange old items).map Prod.fst = missing old items ++ items.keys := by
  simp [exchange, Table.keys, Function.comp_def]

theorem contains_missing [EquivBEq ι] {old : List ι} {items : Table ι (Option α)} {i : ι} :
    (missing old items).contains i = true ↔
      old.contains i = true ∧ items.keys.contains i = false := by
  rw [List.contains_iff_exists_mem_beq, ← contains_eraseDups old, List.contains_iff_exists_mem_beq]
  constructor
  · rintro ⟨j, hj, hij⟩
    obtain ⟨hold, hnew⟩ := List.mem_filter.mp hj
    rw [List.contains_congr hij]
    exact ⟨⟨j, hold, hij⟩, by simpa using hnew⟩
  · rintro ⟨⟨j, hj, hij⟩, hnew⟩
    rw [List.contains_congr hij] at hnew
    exact ⟨j, List.mem_filter.mpr ⟨hj, by simp [hnew]⟩, hij⟩

theorem unlike_exchange [EquivBEq ι] {old : List ι} {items : Table ι (Option α)}
    (h : Unlike items.keys) : Unlike (missing old items ++ items.keys) := by
  refine List.pairwise_append.mpr
    ⟨(unlike_eraseDups old).sublist List.filter_sublist, h, fun i hi j hj => ?_⟩
  by_contra hij
  have hnew := (contains_missing.mp (contains_of_mem hi)).2
  rw [List.contains_congr (Bool.not_eq_false _ ▸ hij), contains_of_mem hj] at hnew
  cases hnew

end

variable {K : Type} {V : K → Type} {ι α : Type} [∀ k, BEq (V k)] [BEq ι] [BEq α]
  {f : Family K V (InputNode.Value ι α)} {s s' : Store K V}

/-- A family of inputs whose values can be had back, with one node for all spellings of a key. -/
structure Keyed (f : Family K V (InputNode.Value ι α)) : Prop where
  item_ne_keys : ∀ i, f.key (.item i) ≠ f.key .keys
  item_iff : ∀ i j, f.key (.item i) = f.key (.item j) ↔ (i == j) = true
  decode : ∀ n w, f.decode n (f.encode n w) = .ok w
  respell : ∀ i j (h : f.key (.item i) = f.key (.item j)) a,
    h ▸ f.encode (.item i) a = f.encode (.item j) a
  keys_beq : ∀ l l', (f.encode .keys l == f.encode .keys l') = (l == l')
  item_beq : ∀ i a a', (f.encode (.item i) a == f.encode (.item i) a') = (a == a')

theorem Faithful.keyed [LawfulBEq ι] (hf : f.Faithful) : f.Keyed where
  item_ne_keys i h := by cases hf.injective _ _ h
  item_iff i j := by
    rw [beq_iff_eq]
    refine ⟨fun h => ?_, fun h => h ▸ rfl⟩
    cases hf.injective _ _ h
    rfl
  decode := hf.encode
  respell i j h a := by
    cases hf.injective _ _ h
    rfl
  keys_beq := hf.keys_beq
  item_beq := hf.item_beq

variable [BEq K] [LawfulBEq K]

/-- What is stored for a stream was put there in the form of its nodes. -/
def Encoded (f : Family K V (InputNode.Value ι α)) (s : Store K V) : Prop :=
  ∀ n v, s.input? (f.key n) = some v → ∃ w, v = f.encode n w

/-- A stream of inputs as its updates leave it: no item is held under a key that is not kept, and
the kept keys were put in order. -/
structure InOrder [ItemKey ι] (f : Family K V (InputNode.Value ι α)) (s : Store K V) : Prop where
  idle : s.active = []
  encoded : f.Encoded s
  arranged : s.input? (f.key .keys) ≠ none →
    ∃ l, Unlike l ∧ ItemKey.sorted l = .ok (f.valueOf .keys s)
  stored : ∀ i, (f.valueOf .keys s).contains i = true → s.input? (f.key (.item i)) ≠ none
  listed : ∀ i, f.valueOf (.item i) s ≠ none → (f.valueOf .keys s).contains i = true

/-- What became of a stream when items were set, of which some changed. -/
structure Entered (f : Family K V (InputNode.Value ι α)) (items : List (ι × Option α))
    (changed : List ι) (s s' : Store K V) : Prop where
  sublist : changed.Sublist (items.map Prod.fst)
  took : ∀ i a, (i, a) ∈ items →
    i ∈ changed ∧ f.valueOf (.item i) s' = a ∧
      (s.input? (f.key (.item i)) ≠ none → (f.valueOf (.item i) s == a) = false) ∨
    i ∉ changed ∧ f.valueOf (.item i) s' = f.valueOf (.item i) s ∧
      (f.valueOf (.item i) s == a) = true
  stored : ∀ i ∈ items.map Prod.fst, s'.input? (f.key (.item i)) ≠ none
  encoded : f.Encoded s'
  other : ∀ k, (∀ i ∈ items.map Prod.fst, f.key (.item i) ≠ k) →
    s'.inputs.get? k = s.inputs.get? k
  revision : s'.revision = s.revision + changed.length
  idle : s'.active = []

/-- What became of a stream when its keys were set. -/
structure SetKeys (f : Family K V (InputNode.Value ι α)) (keys : List ι) (s s' : Store K V) :
    Prop where
  took : s' = s ∧ s.input? (f.key .keys) ≠ none ∧ (f.valueOf .keys s == keys) = true ∨
    f.valueOf .keys s' = keys ∧
      (s.input? (f.key .keys) ≠ none → (f.valueOf .keys s == keys) = false) ∧
      s'.revision = s.revision + 1
  other : ∀ k, k ≠ f.key .keys → s'.inputs.get? k = s.inputs.get? k
  encoded : f.Encoded s'
  idle : s'.active = []

omit [∀ k, BEq (V k)] in
theorem input?_congr {k : K} (h : s'.inputs.get? k = s.inputs.get? k) :
    s'.input? k = s.input? k := by rw [Store.input?, Store.input?, h]

namespace Keyed
variable (hf : f.Keyed)
include hf

theorem valueOf_of_encoded {n : InputNode ι} {w : n.Value ι α}
    (h : s.input? (f.key n) = some (f.encode n w)) : f.valueOf n s = w := by
  simp only [valueOf, inputValue, h, hf.decode n w]

theorem inputValue_of_encoded (h : f.Encoded s) (n : InputNode ι) :
    f.inputValue n s = .ok (f.valueOf n s) := by
  cases hv : s.input? (f.key n) with
  | none => simp only [valueOf, inputValue, hv]
  | some v =>
    obtain ⟨w, rfl⟩ := h n v hv
    rw [hf.valueOf_of_encoded hv]
    simp only [inputValue, hv, hf.decode n w]

theorem encode_valueOf_of_encoded (h : f.Encoded s) {n : InputNode ι} {v : V (f.key n)}
    (hv : s.input? (f.key n) = some v) : f.encode n (f.valueOf n s) = v := by
  obtain ⟨w, rfl⟩ := h n v hv
  rw [hf.valueOf_of_encoded hv]

/-- The spellings of a key have one item. -/
theorem input?_respelled {i j : ι} (hij : (i == j) = true) {a : Option α}
    (h : s.input? (f.key (.item i)) = some (f.encode (.item i) a)) :
    s.input? (f.key (.item j)) = some (f.encode (.item j) a) := by
  have hkey := (hf.item_iff i j).mpr hij
  rw [input?_of_eq hkey h, hf.respell i j hkey]

theorem valueOf_respelled [PartialEquivBEq ι] (h : f.Encoded s) {i j : ι}
    (hij : (i == j) = true) : f.valueOf (.item i) s = f.valueOf (.item j) s := by
  cases hi : s.input? (f.key (.item i)) with
  | some v =>
    obtain ⟨a, rfl⟩ := h _ v hi
    rw [hf.valueOf_of_encoded hi, hf.valueOf_of_encoded (hf.input?_respelled hij hi)]
  | none =>
    cases hj : s.input? (f.key (.item j)) with
    | none => simp only [valueOf, inputValue, hi, hj, InputNode.absent]
    | some v =>
      obtain ⟨a, rfl⟩ := h _ v hj
      rw [hf.input?_respelled (BEq.symm hij) hj] at hi
      cases hi

theorem encoded_of_set (h : f.Encoded s) {n : InputNode ι} {w : n.Value ι α}
    (hset : s'.input? (f.key n) = some (f.encode n w))
    (hother : ∀ d, d ≠ f.key n → s'.inputs.get? d = s.inputs.get? d) : f.Encoded s' := by
  intro m v hv
  by_cases hm : f.key m = f.key n
  · cases n with
    | keys =>
      cases m with
      | keys => exact ⟨w, Option.some.inj (hv.symm.trans hset)⟩
      | item j => exact absurd hm (hf.item_ne_keys j)
    | item i =>
      cases m with
      | keys => exact absurd hm.symm (hf.item_ne_keys i)
      | item j =>
        have hij : (i == j) = true := (hf.item_iff i j).mp hm.symm
        exact ⟨w, Option.some.inj (hv.symm.trans (hf.input?_respelled hij hset))⟩
  · rw [input?_congr (hother _ hm)] at hv
    exact h m v hv

/-- Items under different keys are set one after another. -/
theorem setItems_entered [EquivBEq ι] (items : List (ι × Option α))
    (hunlike : Unlike (items.map Prod.fst)) (hidle : s.active = []) (h : f.Encoded s) :
    ∃ changed s', f.setItems items s = (.ok changed, s') ∧ f.Entered items changed s s' := by
  induction items generalizing s with
  | nil =>
    exact ⟨[], s, rfl, .slnil, by simp, by simp, h, fun _ _ => rfl, rfl, hidle⟩
  | cons item rest ih =>
    rcases item with ⟨i, a⟩
    obtain ⟨hnew, hrest⟩ := List.pairwise_cons.mp hunlike
    have hapart (j : ι) (hj : j ∈ rest.map Prod.fst) : f.key (.item j) ≠ f.key (.item i) := by
      intro heq
      have hij := (hf.item_iff i j).mp heq.symm
      rw [hnew j hj] at hij
      cases hij
    rcases setInput_idle hidle (f.key (.item i)) (f.encode (.item i) a) with
      ⟨v, hv, hbeq, hset⟩ | ⟨hv, s₁, hset, hrevision, hidle₁, hnow, hother⟩
    · obtain ⟨changed, s', hitems, hs'⟩ := ih hrest hidle h
      have hi : i ∉ changed := fun hmem => by
        have hii := hnew i (hs'.sublist.mem hmem)
        rw [BEq.rfl] at hii
        cases hii
      have hsame := hs'.other (f.key (.item i)) hapart
      refine ⟨changed, s', ?_, hs'.sublist.cons i, ?_, ?_, hs'.encoded, ?_, hs'.revision,
        hs'.idle⟩
      · rw [setItems, hset]
        simp only [hitems]
        rfl
      · intro j b hmem
        rcases List.mem_cons.mp hmem with hmem | hmem
        · cases hmem
          rw [← hf.encode_valueOf_of_encoded h hv, hf.item_beq] at hbeq
          exact .inr ⟨hi, f.valueOf_congr (input?_congr hsame), hbeq⟩
        · exact hs'.took j b hmem
      · intro j hj
        rcases List.mem_cons.mp hj with rfl | hj
        · rw [input?_congr hsame, hv]
          exact Option.some_ne_none v
        · exact hs'.stored j hj
      · intro k hk
        exact hs'.other k fun j hj => hk j (List.mem_cons_of_mem i hj)
    · obtain ⟨changed, s', hitems, hs'⟩ := ih hrest hidle₁ (hf.encoded_of_set h hnow hother)
      have hsame := hs'.other (f.key (.item i)) hapart
      have hnow' := (input?_congr hsame).trans hnow
      refine ⟨i :: changed, s', ?_, hs'.sublist.cons_cons i, ?_, ?_, hs'.encoded, ?_, ?_, hs'.idle⟩
      · rw [setItems, hset]
        simp only [hitems]
        rfl
      · intro j b hmem
        rcases List.mem_cons.mp hmem with hmem | hmem
        · cases hmem
          refine .inl ⟨List.mem_cons_self, hf.valueOf_of_encoded hnow', fun hstored => ?_⟩
          obtain ⟨v, hold⟩ := Option.ne_none_iff_exists'.mp hstored
          rw [← hf.item_beq, hf.encode_valueOf_of_encoded h hold]
          exact hv v hold
        · have hj : j ∈ rest.map Prod.fst := List.mem_map_of_mem (f := Prod.fst) hmem
          have hji : j ≠ i := fun he => hapart j hj (he ▸ rfl)
          have hfirst := input?_congr (hother _ (hapart j hj))
          have htook := hs'.took j b hmem
          rw [f.valueOf_congr hfirst, hfirst] at htook
          refine htook.imp (And.imp_left (List.mem_cons_of_mem i)) (And.imp_left fun hc hmem => ?_)
          exact (List.mem_cons.mp hmem).elim hji hc
      · intro j hj
        rcases List.mem_cons.mp hj with rfl | hj
        · rw [hnow']
          exact Option.some_ne_none _
        · exact hs'.stored j hj
      · intro k hk
        rw [hs'.other k fun j hj => hk j (List.mem_cons_of_mem i hj)]
        exact hother k (Ne.symm (hk i List.mem_cons_self))
      · rw [hs'.revision, hrevision, List.length_cons]
        omega

/-- The keys are set: they are left alone or come to be those given. -/
theorem setKeys_cases (hidle : s.active = []) (h : f.Encoded s) (keys : List ι) :
    ∃ b s', s.setInput (f.key .keys) (f.encode .keys keys) = (.ok b, s') ∧
      f.SetKeys keys s s' := by
  rcases setInput_idle hidle (f.key .keys) (f.encode .keys keys) with
    ⟨v, hv, hbeq, hset⟩ | ⟨hv, s', hset, hrevision, hidle', hnow, hother⟩
  · rw [← hf.encode_valueOf_of_encoded h hv, hf.keys_beq] at hbeq
    refine ⟨false, s, hset, .inl ⟨rfl, ?_, hbeq⟩, fun _ _ => rfl, h, hidle⟩
    rw [hv]
    exact Option.some_ne_none v
  · refine ⟨true, s', hset, .inr ⟨hf.valueOf_of_encoded hnow, fun hstored => ?_, hrevision⟩,
      hother, hf.encoded_of_set h hnow hother, hidle'⟩
    obtain ⟨v, hold⟩ := Option.ne_none_iff_exists'.mp hstored
    rw [← hf.keys_beq, hf.encode_valueOf_of_encoded h hold]
    exact hv v hold

end Keyed

/-- The items of a stream were replaced: first they were set one by one, with those that are not
there any more, and then the keys. -/
structure Fitting [ItemKey ι] (f : Family K V (InputNode.Value ι α)) (items : Table ι (Option α))
    (keys changed : List ι) (s s₁ s' : Store K V) : Prop where
  keyed : f.Keyed
  before : f.InOrder s
  unlike : Unlike items.keys
  sorted : ItemKey.sorted items.keys = .ok keys
  entered : f.Entered (exchange (f.valueOf .keys s) items) changed s s₁
  set : f.SetKeys keys s₁ s'

/-- Items whose keys can be put in order replace those of a stream. -/
theorem InOrder.replaceAll_fits [EquivBEq ι] [ItemKey ι] {items : Table ι (Option α)}
    {keys : List ι} (h : f.InOrder s) (hf : f.Keyed) (hitems : Unlike items.keys)
    (hkeys : ItemKey.sorted items.keys = .ok keys) : ∃ changed s₁ s',
      f.replaceAll items s = (.ok changed, s') ∧ Fitting f items keys changed s s₁ s' := by
  have hunlike : Unlike ((exchange (f.valueOf .keys s) items).map Prod.fst) := by
    rw [keys_exchange]
    exact unlike_exchange hitems
  obtain ⟨changed, s₁, hset, hs₁⟩ := hf.setItems_entered _ hunlike h.idle h.encoded
  obtain ⟨b, s', hlast, hs'⟩ := hf.setKeys_cases hs₁.idle hs₁.encoded keys
  have hsorted : sortKeys (K := K) items.keys = .ok keys := by
    rw [sortKeys, hkeys]
    rfl
  rw [exchange, missing] at hset
  refine ⟨changed, s₁, s', ?_, hf, h, hitems, hkeys, hs₁, hs'⟩
  rw [replaceAll, hf.inputValue_of_encoded h.encoded]
  simp only [hset, hsorted, hlast]
  rfl

namespace Fitting
variable [ItemKey ι] {items : Table ι (Option α)} {keys changed : List ι} {s₁ : Store K V}
  (h : Fitting f items keys changed s s₁ s')
include h

theorem item_unchanged (i : ι) : f.valueOf (.item i) s' = f.valueOf (.item i) s₁ :=
  f.valueOf_congr (input?_congr (h.set.other _ (h.keyed.item_ne_keys i)))

theorem keys_untouched : s₁.input? (f.key .keys) = s.input? (f.key .keys) :=
  input?_congr (h.entered.other _ fun i _ => h.keyed.item_ne_keys i)

theorem other {k : K} (hk : ∀ n, f.key n ≠ k) : s'.inputs.get? k = s.inputs.get? k := by
  rw [h.set.other k (Ne.symm (hk .keys)), h.entered.other k fun i _ => hk (.item i)]

variable [EquivBEq ι]

/-- Keys that are neither kept nor given are left without an item. -/
theorem item_untouched {i : ι}
    (hi : ((exchange (f.valueOf .keys s) items).map Prod.fst).contains i = false) :
    f.valueOf (.item i) s₁ = f.valueOf (.item i) s ∧ f.valueOf (.item i) s = none := by
  constructor
  · refine f.valueOf_congr (input?_congr (h.entered.other _ fun j hj heq => ?_))
    have hji := (h.keyed.item_iff j i).mp heq
    rw [List.contains_iff_exists_mem_beq.mpr ⟨j, hj, BEq.symm hji⟩] at hi
    cases hi
  · by_contra hne
    rw [keys_exchange] at hi
    have hi := mt List.contains_iff_exists_mem_beq.mpr (Bool.eq_false_iff.mp hi)
    have hold := h.before.listed i hne
    cases hnew : items.keys.contains i with
    | true =>
      obtain ⟨j, hj, hij⟩ := List.contains_iff_exists_mem_beq.mp hnew
      exact hi ⟨j, List.mem_append_right _ hj, hij⟩
    | false =>
      obtain ⟨j, hj, hij⟩ := List.contains_iff_exists_mem_beq.mp (contains_missing.mpr ⟨hold, hnew⟩)
      exact hi ⟨j, List.mem_append_left _ hj, hij⟩

/-- An item is the one given, or counts as it; without one it is absent. -/
theorem item_given (i : ι) : f.valueOf (.item i) s' = (Table.get? i items).join ∨
    (f.valueOf (.item i) s' == (Table.get? i items).join) = true := by
  rw [h.item_unchanged]
  have htook {j : ι} {a : Option α} (hmem : (j, a) ∈ exchange (f.valueOf .keys s) items)
      (hji : (j == i) = true) :
      f.valueOf (.item i) s₁ = a ∨ (f.valueOf (.item i) s₁ == a) = true := by
    rw [← h.keyed.valueOf_respelled h.entered.encoded hji]
    rcases h.entered.took j a hmem with ⟨-, heq, -⟩ | ⟨-, heq, hbeq⟩
    · exact .inl heq
    · exact .inr (heq ▸ hbeq)
  cases hget : Table.get? i items with
  | some a =>
    obtain ⟨j, hji, hmem⟩ := Table.exists_mem_of_get? hget
    exact htook (List.mem_append_right _ hmem) hji
  | none =>
    cases hmem : ((exchange (f.valueOf .keys s) items).map Prod.fst).contains i with
    | false =>
      obtain ⟨hsame, hnone⟩ := h.item_untouched hmem
      exact .inl (hsame.trans hnone)
    | true =>
      obtain ⟨j, hj, hij⟩ := List.contains_iff_exists_mem_beq.mp hmem
      obtain ⟨⟨j, a⟩, hja, rfl⟩ := List.mem_map.mp hj
      rcases List.mem_append.mp hja with hmissing | hitem
      · obtain ⟨k, -, heq⟩ := List.mem_map.mp hmissing
        cases heq
        exact htook hja (BEq.symm hij)
      · rw [Table.get?_respelled items hij, Table.get?_of_mem_unlike h.unlike hitem] at hget
        cases hget

theorem isSome_given (i : ι) :
    (f.valueOf (.item i) s').isSome = (Table.get? i items).join.isSome := by
  rcases h.item_given i with heq | hbeq
  · rw [heq]
  · exact isSome_of_beq hbeq

/-- The keys reported are those whose items are not what they were. -/
theorem changed_iff [PartialEquivBEq α] (hsome : ∀ i, Table.get? i items ≠ some none) (i : ι) :
    changed.contains i = true ↔
      (f.valueOf (.item i) s == f.valueOf (.item i) s') = false := by
  rw [h.item_unchanged]
  cases hmem : ((exchange (f.valueOf .keys s) items).map Prod.fst).contains i with
  | false =>
    obtain ⟨hsame, hnone⟩ := h.item_untouched hmem
    have hno : changed.contains i ≠ true := fun hc => by
      obtain ⟨j, hj, hij⟩ := List.contains_iff_exists_mem_beq.mp hc
      rw [List.contains_iff_exists_mem_beq.mpr ⟨j, h.entered.sublist.mem hj, hij⟩] at hmem
      cases hmem
    rw [hsame, hnone]
    exact ⟨fun hc => (hno hc).elim, fun hbeq => by cases hbeq⟩
  | true =>
    obtain ⟨j, hj, hij⟩ := List.contains_iff_exists_mem_beq.mp hmem
    obtain ⟨⟨j, a⟩, hja, rfl⟩ := List.mem_map.mp hj
    rw [h.keyed.valueOf_respelled h.before.encoded hij,
      h.keyed.valueOf_respelled h.entered.encoded hij, List.contains_congr hij]
    rcases h.entered.took j a hja with ⟨hc, heq, hdiffers⟩ | ⟨hc, heq, hbeq⟩
    · refine ⟨fun _ => ?_, fun _ => contains_of_mem hc⟩
      rw [heq]
      by_cases hstored : s.input? (f.key (.item j)) = none
      · -- Only a key that is not kept can have nothing stored, so the item is given.
        have habsent : f.valueOf (.item j) s = none := by
          simp only [valueOf, inputValue, hstored, InputNode.absent]
        rw [habsent]
        rcases List.mem_append.mp hja with hmissing | hitem
        · obtain ⟨k, hk, heq⟩ := List.mem_map.mp hmissing
          cases heq
          exact absurd hstored (h.before.stored j (contains_missing.mp (contains_of_mem hk)).1)
        · cases a with
          | none => exact absurd (Table.get?_of_mem_unlike h.unlike hitem) (hsome j)
          | some a => rfl
      · exact hdiffers hstored
    · rw [heq]
      have hno : changed.contains j ≠ true := fun hcontains => by
        obtain ⟨k, hk, hjk⟩ := List.contains_iff_exists_mem_beq.mp hcontains
        have hkeys : Unlike ((exchange (f.valueOf .keys s) items).map Prod.fst) := by
          rw [keys_exchange]
          exact unlike_exchange h.unlike
        obtain rfl := hkeys.eq hj (h.entered.sublist.mem hk) hjk
        exact hc hk
      refine ⟨fun hcontains => (hno hcontains).elim, fun hdiffers => ?_⟩
      rw [beq_self_of_beq hbeq] at hdiffers
      cases hdiffers

theorem unlike_changed : Unlike changed := by
  have hkeys : Unlike ((exchange (f.valueOf .keys s) items).map Prod.fst) := by
    rw [keys_exchange]
    exact unlike_exchange h.unlike
  exact hkeys.sublist h.entered.sublist

/-- The keys that are kept afterwards count as those of the items. -/
theorem keys_given : (f.valueOf .keys s' == keys) = true := by
  rcases h.set.took with ⟨rfl, -, hbeq⟩ | ⟨heq, -, -⟩
  · exact hbeq
  · rw [heq]
    exact BEq.rfl

/-- The revision counts the items that changed, and the keys if these did. -/
theorem revision_iff (hstored : s.input? (f.key .keys) ≠ none) : s'.revision = s.revision ↔
    changed = [] ∧ (f.valueOf .keys s == f.valueOf .keys s') = true := by
  have hkept : f.valueOf .keys s₁ = f.valueOf .keys s := f.valueOf_congr h.keys_untouched
  have hcount := h.entered.revision
  rcases h.set.took with ⟨rfl, -, -⟩ | ⟨heq, hdiffers, hrevision⟩
  · rw [hkept, hcount, Nat.add_eq_left, List.length_eq_zero_iff]
    exact ⟨fun hnil => ⟨hnil, BEq.rfl⟩, And.left⟩
  · rw [h.keys_untouched, hkept] at hdiffers
    rw [heq, hdiffers hstored, hrevision, hcount]
    exact ⟨fun hno => by omega, fun hno => by cases hno.2⟩

variable [Arranging ι]

omit [EquivBEq ι] in
theorem contains_keys (i : ι) : keys.contains i = items.keys.contains i := by
  have hmem := Arranging.mem_sorted h.unlike h.sorted
  rw [Bool.eq_iff_iff, List.contains_iff_exists_mem_beq, List.contains_iff_exists_mem_beq]
  exact ⟨fun ⟨j, hj, hij⟩ => ⟨j, (hmem j).mp hj, hij⟩, fun ⟨j, hj, hij⟩ =>
    ⟨j, (hmem j).mpr hj, hij⟩⟩

/-- Where no item changes, and keys have one spelling, the same keys are kept. -/
theorem keys_eq_of_same (hstored : s.input? (f.key .keys) ≠ none)
    (halike : SpelledAlike (f.valueOf .keys s) items.keys)
    (hfull : ∀ i ∈ f.valueOf .keys s, f.valueOf (.item i) s ≠ none)
    (hsame : ∀ i, (f.valueOf (.item i) s).isSome = items.keys.contains i) :
    keys = f.valueOf .keys s := by
  have hmem (i : ι) : i ∈ f.valueOf .keys s ↔ i ∈ items.keys := by
    constructor
    · intro hi
      have hcontains : items.keys.contains i = true := by
        rw [← hsame, Option.isSome_iff_ne_none]
        exact hfull i hi
      obtain ⟨j, hj, hij⟩ := List.contains_iff_exists_mem_beq.mp hcontains
      exact halike i hi j hj hij ▸ hj
    · intro hi
      have hvalue : f.valueOf (.item i) s ≠ none := by
        rw [← Option.isSome_iff_ne_none, hsame]
        exact contains_of_mem hi
      obtain ⟨j, hj, hij⟩ := List.contains_iff_exists_mem_beq.mp (h.before.listed i hvalue)
      exact halike j hj i hi (BEq.symm hij) ▸ hj
  obtain ⟨l, hl, hsorted⟩ := h.before.arranged hstored
  have hagain : ItemKey.sorted items.keys = .ok (f.valueOf .keys s) :=
    Arranging.sorted_congr hl h.unlike
      (fun i => by rw [← Arranging.mem_sorted hl hsorted i, hmem]) hsorted
  exact Except.ok.inj (h.sorted.symm.trans hagain)

/-- Where keys have one spelling, and an item each, the revision tells whether an item changed. -/
theorem unchanged_iff [PartialEquivBEq α] (hsome : ∀ i, Table.get? i items ≠ some none)
    (hstored : s.input? (f.key .keys) ≠ none)
    (halike : SpelledAlike (f.valueOf .keys s) items.keys)
    (hfull : ∀ i ∈ f.valueOf .keys s, f.valueOf (.item i) s ≠ none) :
    s'.revision = s.revision ↔ changed = [] := by
  rw [h.revision_iff hstored]
  refine ⟨And.left, fun hnil => ⟨hnil, ?_⟩⟩
  have hpresent (i : ι) : (Table.get? i items).join.isSome = items.keys.contains i := by
    rw [Table.contains_keys]
    cases hget : Table.get? i items with
    | none => rfl
    | some a =>
      cases a with
      | none => exact absurd hget (hsome i)
      | some a => rfl
  have hsame (i : ι) : (f.valueOf (.item i) s).isSome = items.keys.contains i := by
    have hbeq : (f.valueOf (.item i) s == f.valueOf (.item i) s') ≠ false := by
      refine mt (h.changed_iff hsome i).mpr ?_
      rw [hnil]
      exact Bool.false_ne_true
    rw [← hpresent, ← h.isSome_given i]
    exact isSome_of_beq (eq_true_of_ne_false hbeq)
  obtain rfl := h.keys_eq_of_same hstored halike hfull hsame
  rcases h.set.took with ⟨rfl, -, -⟩ | ⟨heq, -, -⟩
  · rw [f.valueOf_congr h.keys_untouched]
    exact BEq.rfl
  · rw [heq]
    exact BEq.rfl

theorem after : f.InOrder s' where
  idle := h.set.idle
  encoded := h.set.encoded
  arranged hstored := by
    rcases h.set.took with ⟨rfl, hold, -⟩ | ⟨heq, -, -⟩
    · rw [h.keys_untouched] at hold
      rw [f.valueOf_congr h.keys_untouched]
      exact h.before.arranged hold
    · rw [heq]
      exact ⟨items.keys, h.unlike, h.sorted⟩
  stored i hi := by
    rw [contains_congr_list h.keys_given, h.contains_keys] at hi
    obtain ⟨j, hj, hij⟩ := List.contains_iff_exists_mem_beq.mp hi
    have hstored : s₁.input? (f.key (.item j)) ≠ none := by
      refine h.entered.stored j ?_
      rw [keys_exchange]
      exact List.mem_append_right _ hj
    rw [← input?_congr (h.set.other _ (h.keyed.item_ne_keys j))] at hstored
    obtain ⟨v, hv⟩ := Option.ne_none_iff_exists'.mp hstored
    rw [input?_of_eq ((h.keyed.item_iff j i).mpr (BEq.symm hij)) hv]
    exact Option.some_ne_none _
  listed i hi := by
    rw [contains_congr_list h.keys_given, h.contains_keys, Table.contains_keys]
    rw [← Option.isSome_iff_ne_none, h.isSome_given] at hi
    cases hget : Table.get? i items with
    | none =>
      rw [hget] at hi
      cases hi
    | some a => rfl

end Fitting

end Family
end SceneCodegen.Graph
