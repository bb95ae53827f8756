import Mathlib.Data.List.Nodup
import SceneCodegen.Proofs.Graph.History
import SceneCodegen.Proofs.Graph.Streams
import SceneCodegen.Proofs.Table

/-!
# Inputs from outside

What inputs hold after they were set one after another, and what a stream of inputs holds after its
items were replaced, or some of them updated: the value given last for each key, or one that counts
as the same.
-/
namespace SceneCodegen.Graph

section
variable {K : Type} {V : K → Type} [BEq K] [LawfulBEq K] [∀ k, BEq (V k)] {s s' s'' : Store K V}
  {k : K} {v : V k} {settings : List ((k : K) × V k)}

def Store.setAll (settings : List ((k : K) × V k)) (s : Store K V) : Store K V :=
  settings.foldl (fun s x => (s.setInput x.1 x.2).2) s

/-- What became of an input that was set: it was left alone if it counted as the value already. -/
inductive Took (s s' : Store K V) (k : K) (v : V k) : Prop
  | kept {x : Stamped (V k)} (hx : s.inputs.get? k = some x) (he : x.value == v)
      (h : s'.inputs.get? k = some x)
  | changed {r : Nat} (hx : ∀ x, s.inputs.get? k = some x → (x.value == v) = false)
      (hr : s.revision < r) (hle : r ≤ s'.revision) (h : s'.inputs.get? k = some ⟨v, r⟩)

/-- Inputs were set, and all else was left alone. -/
structure SetAll (settings : List ((k : K) × V k)) (s s' : Store K V) : Prop where
  took : ∀ k v, ⟨k, v⟩ ∈ settings → Took s s' k v
  other : ∀ k, k ∉ settings.map Sigma.fst → s'.inputs.get? k = s.inputs.get? k
  revision : s.revision ≤ s'.revision
  memos : s'.memos = s.memos
  active : s'.active = s.active
  token : s'.token = s.token
  executed : s'.executed = s.executed
  started : s'.started = s.started

theorem Took.of_inputs (h : Took s s' k v) (hs : s''.inputs.get? k = s'.inputs.get? k)
    (hle : s'.revision ≤ s''.revision) : Took s s'' k v := by
  cases h with
  | kept hx he h => exact .kept hx he (hs.trans h)
  | changed hx hr hr' h => exact .changed hx hr (Nat.le_trans hr' hle) (hs.trans h)

theorem setInput_set (hidle : s.active = []) (k : K) (v : V k) :
    SetAll [⟨k, v⟩] s (s.setInput k v).2 ∧ ∃ b, (s.setInput k v).1 = .ok b := by
  have hempty : s.active.isEmpty := by simp [hidle]
  simp only [Store.setInput, hempty, Bool.not_true, Bool.false_eq_true, if_false]
  split
  · rename_i hsame
    refine ⟨⟨?_, fun _ _ => rfl, Nat.le_refl _, rfl, rfl, rfl, rfl, rfl⟩, false, rfl⟩
    intro d w hmem
    obtain ⟨rfl, hw⟩ : d = k ∧ HEq w v := by simpa using hmem
    obtain rfl := eq_of_heq hw
    obtain ⟨u, hu, he⟩ := (Option.any_eq_true _ _).mp hsame
    obtain ⟨x, hx, rfl⟩ := Option.map_eq_some_iff.mp hu
    exact .kept hx he hx
  · rename_i hsame
    refine ⟨⟨?_, ?_, Nat.le_succ _, rfl, rfl, rfl, rfl, rfl⟩, true, rfl⟩
    · intro d w hmem
      obtain ⟨rfl, hw⟩ : d = k ∧ HEq w v := by simpa using hmem
      obtain rfl := eq_of_heq hw
      refine .changed (fun x hx => ?_) (Nat.lt_succ_self _) (Nat.le_refl _)
        (NodeTable.get?_set_self _ _ _)
      simpa [Store.input?, hx] using hsame
    · intro d hd
      have hne : k ≠ d := by
        rintro rfl
        simp at hd
      exact NodeTable.get?_set_of_ne _ hne _

theorem setAll_active (hidle : s.active = []) (settings : List ((k : K) × V k)) :
    (s.setAll settings).active = [] := by
  induction settings generalizing s with
  | nil => exact hidle
  | cons x settings ih => exact ih ((setInput_set hidle x.1 x.2).1.active.trans hidle)

/-- Inputs with different keys are all set. -/
theorem setAll_set (hidle : s.active = []) (hkeys : (settings.map Sigma.fst).Nodup) :
    SetAll settings s (s.setAll settings) := by
  induction settings generalizing s with
  | nil => exact ⟨by simp, fun _ _ => rfl, Nat.le_refl _, rfl, rfl, rfl, rfl, rfl⟩
  | cons x settings ih =>
    rcases x with ⟨k, v⟩
    obtain ⟨hnew, hkeys⟩ := List.nodup_cons.mp hkeys
    obtain ⟨hfirst, -⟩ := setInput_set hidle k v
    have hrest := ih (hfirst.active.trans hidle) hkeys
    have hstep : s.setAll (⟨k, v⟩ :: settings) = (s.setInput k v).2.setAll settings := rfl
    rw [hstep]
    refine ⟨?_, ?_, Nat.le_trans hfirst.revision hrest.revision, hrest.memos.trans hfirst.memos,
      hrest.active.trans hfirst.active, hrest.token.trans hfirst.token,
      hrest.executed.trans hfirst.executed, hrest.started.trans hfirst.started⟩
    · intro d w hmem
      rcases List.mem_cons.mp hmem with he | hmem
      · cases he
        exact (hfirst.took k v (by simp)).of_inputs (hrest.other k hnew) hrest.revision
      · have hkey : d ∈ settings.map Sigma.fst := List.mem_map_of_mem (f := Sigma.fst) hmem
        have hne : d ≠ k := fun he => hnew (he ▸ hkey)
        have hsame := hfirst.other d (by simpa using hne)
        cases hrest.took d w hmem with
        | kept hx he h => exact .kept (hsame ▸ hx) he h
        | changed hx hr hle h =>
          refine .changed (fun x hx' => hx x (hsame.trans hx')) ?_ hle h
          exact Nat.lt_of_le_of_lt hfirst.revision hr
    · intro d hd
      rw [List.map_cons, List.mem_cons, not_or] at hd
      exact (hrest.other d hd.2).trans (hfirst.other d (by simpa using hd.1))

variable {rules : Rules K V} {L : Likeness K V}

theorem AtRest.setAll (h : AtRest rules L s) (hL : ∀ k v, ⟨k, v⟩ ∈ settings → L.like k v v) :
    AtRest rules L (s.setAll settings) := by
  induction settings generalizing s with
  | nil => exact h
  | cons x settings ih =>
    refine ih (h.setInput (hL x.1 x.2 (by simp))) fun k v hmem => ?_
    exact hL k v (List.mem_cons_of_mem x hmem)

end

theorem isSome_of_beq {α : Type} [BEq α] {a b : Option α} (h : (a == b) = true) :
    a.isSome = b.isSome := by
  cases a <;> cases b <;> first | rfl | cases h

theorem join_map_some {α : Type} (a : Option α) : (a.map some).join = a := by cases a <;> rfl

/-- Keys whose order hangs on nothing but which keys there are. -/
class Ranked (ι : Type) [ItemKey ι] : Prop where
  exists_sorted (l : List ι) : ∃ l', ItemKey.sorted l = .ok l' ∧ ∀ i, i ∈ l' ↔ i ∈ l
  sorted_congr (l l' : List ι) (h : ∀ i, i ∈ l ↔ i ∈ l') : ItemKey.sorted l = ItemKey.sorted l'

namespace Family
variable {K : Type} {V : K → Type} {ι α : Type} (f : Family K V (InputNode.Value ι α))
  {s s' : Store K V} {old keys : List ι} {items : Table ι (Option α)}

def setting (n : InputNode ι) (w : n.Value ι α) : (k : K) × V k := ⟨f.key n, f.encode n w⟩

def itemSettings (items : List (ι × Option α)) : List ((k : K) × V k) :=
  items.map fun x => f.setting (.item x.1) x.2

section
variable [BEq ι]

def missing (old : List ι) (items : Table ι (Option α)) : List ι :=
  old.eraseDups.filter fun i => !(Table.keys items).contains i

/-- What is set when the items under some keys are replaced by others. -/
def settings (old : List ι) (items : Table ι (Option α)) (keys : List ι) : List ((k : K) × V k) :=
  f.itemSettings ((missing old items).map (·, none) ++ items) ++ [f.setting .keys keys]

theorem keys_settings (old : List ι) (items : Table ι (Option α)) (keys : List ι) :
    (f.settings old items keys).map Sigma.fst =
      (missing old items ++ Table.keys items).map (fun i => f.key (.item i)) ++ [f.key .keys] := by
  simp [settings, itemSettings, setting, Table.keys, Function.comp_def]

theorem mem_missing [LawfulBEq ι] {i : ι} :
    i ∈ missing old items ↔ i ∈ old ∧ i ∉ Table.keys items := by
  simp [missing]

theorem nodup_missing [LawfulBEq ι] (old : List ι) (h : (Table.keys items).Nodup) :
    (missing old items ++ Table.keys items).Nodup := by
  refine List.nodup_append.mpr ⟨(Table.nodup_eraseDups old).filter _, h, ?_⟩
  intro i hi j hj he
  exact (mem_missing.mp hi).2 (he ▸ hj)

end

section
variable [BEq K] [LawfulBEq K] [∀ k, BEq (V k)]

theorem setItems_eq (hidle : s.active = []) (l : List (ι × Option α)) :
    ∃ changed, f.setItems l s = (.ok changed, s.setAll (f.itemSettings l)) := by
  induction l generalizing s with
  | nil => exact ⟨[], rfl⟩
  | cons x l ih =>
    rcases x with ⟨i, a⟩
    obtain ⟨hset, b, hb⟩ := setInput_set hidle (f.key (.item i)) (f.encode (.item i) a)
    obtain ⟨changed, hrest⟩ := ih (hset.active.trans hidle)
    have hstep : s.setInput (f.key (.item i)) (f.encode (.item i) a) =
        (.ok b, (s.setInput (f.key (.item i)) (f.encode (.item i) a)).2) := by rw [← hb]
    rw [setItems, hstep]
    simp only [hrest]
    exact ⟨_, rfl⟩

theorem replaceAll_eq [BEq ι] [ItemKey ι] (hidle : s.active = [])
    (hold : f.inputValue .keys s = .ok old)
    (hkeys : ItemKey.sorted (Table.keys items) = .ok keys) :
    ∃ changed, f.replaceAll items s = (.ok changed, s.setAll (f.settings old items keys)) := by
  obtain ⟨changed, hitems⟩ := f.setItems_eq hidle ((missing old items).map (·, none) ++ items)
  have hidle' := setAll_active hidle (f.itemSettings ((missing old items).map (·, none) ++ items))
  obtain ⟨-, b, hb⟩ := setInput_set hidle' (f.key .keys) (f.encode .keys keys)
  have hsorted : sortKeys (K := K) (Table.keys items) = .ok keys := by
    rw [sortKeys, hkeys]
    rfl
  have hlast : s.setAll (f.settings old items keys) =
      ((s.setAll (f.itemSettings ((missing old items).map (·, none) ++ items))).setInput
        (f.key .keys) (f.encode .keys keys)).2 := by
    simp [settings, setting, Store.setAll, List.foldl_append]
  rw [missing] at hitems hlast hb
  refine ⟨changed, ?_⟩
  rw [replaceAll, hold]
  simp only [hitems, hsorted, hlast, hb]
  rfl

end

section
variable [BEq K] [LawfulBEq K]

def valueOf (n : InputNode ι) (s : Store K V) : n.Value ι α :=
  match f.inputValue n s with
  | .ok w => w
  | .error _ => n.absent

theorem valueOf_congr {n : InputNode ι} (h : s'.input? (f.key n) = s.input? (f.key n)) :
    f.valueOf n s' = f.valueOf n s := by
  simp only [valueOf, inputValue, h]

/-- Items that count as the same. -/
def LikeItems (L : Likeness K V) (i : ι) (a b : Option α) : Prop :=
  L.like (f.key (.item i)) (f.encode (.item i) a) (f.encode (.item i) b)

variable (L : Likeness K V)

/-- A stream of inputs holds for each key what was given last for it, or what counts as that. -/
structure Tallies [ItemKey ι] (s : Store K V) (held : ι → Option α) : Prop where
  keys : ∃ l, (∀ i, i ∈ l ↔ (held i).isSome) ∧ ItemKey.sorted l = .ok (f.valueOf .keys s)
  isSome : ∀ i, (f.valueOf (.item i) s).isSome = (held i).isSome
  like : ∀ i, f.LikeItems L i (f.valueOf (.item i) s) (held i)

/-- A stream of inputs has under each of its keys what was given last for it, an item or none, or
what counts as that. -/
structure Carries [ItemKey ι] (s : Store K V) (entry : ι → Option (Option α)) : Prop where
  keys : ∃ l, (∀ i, i ∈ l ↔ (entry i).isSome) ∧ ItemKey.sorted l = .ok (f.valueOf .keys s)
  isSome : ∀ i, (f.valueOf (.item i) s).isSome = (entry i).join.isSome
  like : ∀ i, f.LikeItems L i (f.valueOf (.item i) s) (entry i).join

variable {f L}

namespace Carries
variable [ItemKey ι] {entry : ι → Option (Option α)} (h : f.Carries L s entry)
include h

theorem mem_keys [Ranked ι] (i : ι) : i ∈ f.valueOf .keys s ↔ (entry i).isSome := by
  obtain ⟨l, hl, hsorted⟩ := h.keys
  obtain ⟨l', hl', hmem⟩ := Ranked.exists_sorted l
  obtain rfl : l' = f.valueOf .keys s := Except.ok.inj (hl'.symm.trans hsorted)
  rw [hmem, hl]

theorem of_same (hs : ∀ n, s'.input? (f.key n) = s.input? (f.key n)) : f.Carries L s' entry where
  keys := by
    obtain ⟨l, hl, hsorted⟩ := h.keys
    exact ⟨l, hl, by rw [hsorted, f.valueOf_congr (hs .keys)]⟩
  isSome i := by
    rw [f.valueOf_congr (hs (.item i))]
    exact h.isSome i
  like i := by
    rw [f.valueOf_congr (hs (.item i))]
    exact h.like i

theorem congr {entry' : ι → Option (Option α)}
    (hentry : ∀ i, (entry i).isSome = (entry' i).isSome)
    (hsome : ∀ i, (entry i).join.isSome = (entry' i).join.isSome)
    (hlike : ∀ i, f.LikeItems L i (entry i).join (entry' i).join) : f.Carries L s entry' where
  keys := by
    obtain ⟨l, hl, hsorted⟩ := h.keys
    exact ⟨l, fun i => by rw [hl, hentry], hsorted⟩
  isSome i := (h.isSome i).trans (hsome i)
  like i := L.trans (h.like i) (hlike i)

/-- A stream that has no key without an item holds the items. -/
theorem tallies (hsome : ∀ i, entry i ≠ some none) : f.Tallies L s fun i => (entry i).join where
  keys := by
    obtain ⟨l, hl, hsorted⟩ := h.keys
    refine ⟨l, fun i => ?_, hsorted⟩
    rw [hl]
    cases hi : entry i with
    | none => rfl
    | some a =>
      cases a with
      | none => exact absurd hi (hsome i)
      | some a => rfl
  isSome := h.isSome
  like := h.like

end Carries

/-- Nothing is held at first. -/
theorem tallies_empty [ItemKey ι] [Ranked ι] (h : ∀ i, f.LikeItems L i none none) :
    f.Tallies L {} fun _ => none where
  keys := by
    obtain ⟨l, hl, hmem⟩ := Ranked.exists_sorted ([] : List ι)
    obtain rfl : l = [] := List.eq_nil_iff_forall_not_mem.mpr fun i hi => by simp [hmem] at hi
    exact ⟨[], by simp, hl⟩
  isSome _ := rfl
  like i := h i

namespace Tallies
variable [ItemKey ι] {held : ι → Option α} (h : f.Tallies L s held)
include h

theorem carries : f.Carries L s fun i => (held i).map some where
  keys := by simpa using h.keys
  isSome i := by
    rw [join_map_some]
    exact h.isSome i
  like i := by
    rw [join_map_some]
    exact h.like i

theorem mem_keys [Ranked ι] (i : ι) : i ∈ f.valueOf .keys s ↔ (held i).isSome := by
  rw [h.carries.mem_keys, Option.isSome_map]

theorem of_same (hs : ∀ n, s'.input? (f.key n) = s.input? (f.key n)) : f.Tallies L s' held where
  keys := by
    obtain ⟨l, hl, hsorted⟩ := h.keys
    exact ⟨l, hl, by rw [hsorted, f.valueOf_congr (hs .keys)]⟩
  isSome i := by
    rw [f.valueOf_congr (hs (.item i))]
    exact h.isSome i
  like i := by
    rw [f.valueOf_congr (hs (.item i))]
    exact h.like i

theorem same_keys [Ranked ι] (h' : f.Tallies L s' held) :
    f.valueOf .keys s = f.valueOf .keys s' := by
  obtain ⟨l, hl, hsorted⟩ := h.keys
  obtain ⟨l', hl', hsorted'⟩ := h'.keys
  have hcongr : ItemKey.sorted l = ItemKey.sorted l' :=
    Ranked.sorted_congr l l' fun i => by rw [hl, hl']
  rw [hsorted, hsorted'] at hcongr
  exact Except.ok.inj hcongr

end Tallies

/-- Values that may be given for items: each is like itself, and like any value that the graph does
not tell from it. -/
structure Admits [BEq ι] [BEq α] (f : Family K V (InputNode.Value ι α)) (L : Likeness K V)
    (held : ι → Option α) (items : Table ι (Option α)) : Prop where
  keys : ∀ l, L.like (f.key .keys) (f.encode .keys l) (f.encode .keys l)
  absent : ∀ i, f.LikeItems L i none none
  self : ∀ i a, Table.get? i items = some a → f.LikeItems L i a a
  same : ∀ i a x, Table.get? i items = some a → f.LikeItems L i x (held i) → (x == a) = true →
    f.LikeItems L i x a

omit [BEq K] [LawfulBEq K] in
theorem Admits.settings [BEq ι] [LawfulBEq ι] [BEq α] {held : ι → Option α}
    (ha : f.Admits L held items) (hnodup : (Table.keys items).Nodup) {k : K} {v : V k}
    (hv : ⟨k, v⟩ ∈ f.settings old items keys) : L.like k v v := by
  rcases List.mem_append.mp hv with hv | hv
  · obtain ⟨⟨i, a⟩, hx, he⟩ := List.mem_map.mp hv
    cases he
    rcases List.mem_append.mp hx with hx | hx
    · obtain ⟨j, -, he⟩ := List.mem_map.mp hx
      cases he
      exact ha.absent i
    · exact ha.self i a (Table.get?_of_mem hnodup hx)
  · cases List.mem_singleton.mp hv
    exact ha.keys keys

omit [BEq K] [LawfulBEq K] in
theorem not_mem_settings_of_ne [BEq ι] {k : K} (hk : ∀ n, f.key n ≠ k) :
    k ∉ (f.settings old items keys).map Sigma.fst := by
  rw [keys_settings]
  intro hmem
  rcases List.mem_append.mp hmem with hmem | hmem
  · obtain ⟨i, -, he⟩ := List.mem_map.mp hmem
    exact hk _ he
  · exact hk _ (List.mem_singleton.mp hmem).symm

/-- What became of a store of which one stream of inputs was given other items. -/
structure Refilled [∀ k, BEq (V k)] (f : Family K V (InputNode.Value ι α)) (L : Likeness K V)
    (s s' : Store K V) : Prop where
  other : ∀ k, (∀ n, f.key n ≠ k) → s'.input? k = s.input? k
  rest : ∀ rules L', (∀ k v, L.like k v v → L'.like k v v) →
    AtRest rules L' s → AtRest rules L' s'

/-- What became of a stream of inputs whose items were replaced: they are held from then on, and
inputs were set and nothing else. -/
structure Replaced [BEq ι] [ItemKey ι] [∀ k, BEq (V k)] (f : Family K V (InputNode.Value ι α))
    (L : Likeness K V) (items : Table ι (Option α)) (s s' : Store K V) : Prop where
  exists_set : ∃ keys, SetAll (f.settings (f.valueOf .keys s) items keys) s s' ∧
    f.valueOf .keys s' = keys
  nodup : (Table.keys items).Nodup
  present : ∀ i, Table.get? i items ≠ some none
  tallies : f.Tallies L s' fun i => (Table.get? i items).join
  rest : ∀ rules L', (∀ k v, L.like k v v → L'.like k v v) →
    AtRest rules L' s → AtRest rules L' s'

theorem Replaced.token [BEq ι] [ItemKey ι] [∀ k, BEq (V k)] (h : Replaced f L items s s') :
    s'.token = s.token := by
  obtain ⟨keys, hset, -⟩ := h.exists_set
  exact hset.token

theorem Replaced.inputs_other [BEq ι] [ItemKey ι] [∀ k, BEq (V k)] (h : Replaced f L items s s')
    {k : K} (hk : ∀ n, f.key n ≠ k) : s'.inputs.get? k = s.inputs.get? k := by
  obtain ⟨keys, hset, -⟩ := h.exists_set
  exact hset.other k (not_mem_settings_of_ne hk)

theorem Replaced.other [BEq ι] [ItemKey ι] [∀ k, BEq (V k)] (h : Replaced f L items s s') {k : K}
    (hk : ∀ n, f.key n ≠ k) : s'.input? k = s.input? k := by
  rw [Store.input?, Store.input?, h.inputs_other hk]

end

variable [∀ k, BEq (V k)] [BEq ι] [BEq α]

/-- A family of inputs whose nodes hold each value of their type as it is, as far as can be told. -/
structure Faithful (f : Family K V (InputNode.Value ι α)) : Prop where
  injective : ∀ n n', f.key n = f.key n' → n = n'
  decode : ∀ n v, ∃ w, f.decode n v = .ok w ∧ f.encode n w = v
  encode : ∀ n w, f.decode n (f.encode n w) = .ok w
  keys_beq : ∀ l l', (f.encode .keys l == f.encode .keys l') = (l == l')
  item_beq : ∀ i a a', (f.encode (.item i) a == f.encode (.item i) a') = (a == a')

namespace Faithful
variable {f} (hf : f.Faithful)
include hf

theorem total : f.Total := fun n v => by
  obtain ⟨w, hw, -⟩ := hf.decode n v
  exact ⟨w, hw⟩

section
variable [LawfulBEq ι]

theorem nodup_settings (old keys : List ι) (h : (Table.keys items).Nodup) :
    ((f.settings old items keys).map Sigma.fst).Nodup := by
  have hinjective : Function.Injective fun i => f.key (.item i) := by
    intro i j hij
    cases hf.injective _ _ hij
    rfl
  rw [keys_settings]
  refine List.nodup_append.mpr ⟨List.Nodup.map hinjective (nodup_missing old h), by simp, ?_⟩
  intro k hk l hl he
  obtain ⟨i, -, rfl⟩ := List.mem_map.mp hk
  cases hf.injective _ _ (he.trans (List.mem_singleton.mp hl))

theorem not_mem_settings {i : ι} (hold : i ∉ old) (hnew : i ∉ Table.keys items) :
    f.key (.item i) ∉ (f.settings old items keys).map Sigma.fst := by
  rw [keys_settings, List.mem_append, List.mem_singleton]
  rintro (h | h)
  · obtain ⟨j, hj, he⟩ := List.mem_map.mp h
    cases hf.injective _ _ he
    rcases List.mem_append.mp hj with hj | hj
    · exact hold (mem_missing.mp hj).1
    · exact hnew hj
  · cases hf.injective _ _ h

end

variable [BEq K] [LawfulBEq K]

theorem inputValue_eq (n : InputNode ι) (s : Store K V) :
    f.inputValue n s = .ok (f.valueOf n s) := by
  cases hv : s.input? (f.key n) with
  | none => simp only [valueOf, inputValue, hv]
  | some v =>
    obtain ⟨w, hw, -⟩ := hf.decode n v
    simp only [valueOf, inputValue, hv, hw]

theorem valueOf_of_input {n : InputNode ι} {w : n.Value ι α}
    (h : s.input? (f.key n) = some (f.encode n w)) : f.valueOf n s = w := by
  simp only [valueOf, inputValue, h, hf.encode n w]

theorem encode_valueOf {n : InputNode ι} {v : V (f.key n)} (h : s.input? (f.key n) = some v) :
    f.encode n (f.valueOf n s) = v := by
  obtain ⟨w, -, rfl⟩ := hf.decode n v
  rw [hf.valueOf_of_input h]

/-- The value of a node, in the form of the graph. -/
theorem valueOf_eq (n : InputNode ι) (s : Store K V) :
    f.encode n (f.valueOf n s) = (s.input? (f.key n)).getD (f.encode n n.absent) := by
  cases hv : s.input? (f.key n) with
  | some v => exact hf.encode_valueOf hv
  | none => simp only [valueOf, inputValue, hv, Option.getD_none]

/-- Streams that hold the same count as the same wherever they are read. -/
theorem like_of_tallies [ItemKey ι] [Ranked ι] {L : Likeness K V} {held : ι → Option α}
    (hkeys : ∀ l, L.like (f.key .keys) (f.encode .keys l) (f.encode .keys l))
    (h : f.Tallies L s held) (h' : f.Tallies L s' held) (n : InputNode ι) :
    L.like (f.key n) ((s.input? (f.key n)).getD (f.encode n n.absent))
      ((s'.input? (f.key n)).getD (f.encode n n.absent)) := by
  rw [← hf.valueOf_eq, ← hf.valueOf_eq]
  cases n with
  | keys =>
    rw [h.same_keys h']
    exact hkeys _
  | item i => exact L.trans (h.like i) (L.symm (h'.like i))

theorem item_took {i : ι} {a : Option α}
    (h : Took s s' (f.key (.item i)) (f.encode (.item i) a)) : f.valueOf (.item i) s' = a ∨
      f.valueOf (.item i) s' = f.valueOf (.item i) s ∧ (f.valueOf (.item i) s == a) = true := by
  cases h with
  | @kept x hx he h =>
    have hold : s.input? (f.key (.item i)) = some x.value := by rw [Store.input?, hx]; rfl
    have hnew : s'.input? (f.key (.item i)) = some x.value := by rw [Store.input?, h]; rfl
    refine .inr ⟨f.valueOf_congr (hnew.trans hold.symm), ?_⟩
    rw [← hf.item_beq, hf.encode_valueOf hold]
    exact he
  | changed _ _ _ h => exact .inl (hf.valueOf_of_input (by rw [Store.input?, h]; rfl))

theorem keys_took [LawfulBEq ι] {l : List ι}
    (h : Took s s' (f.key .keys) (f.encode .keys l)) : f.valueOf .keys s' = l := by
  cases h with
  | @kept x hx he h =>
    have hnew : s'.input? (f.key .keys) = some x.value := by rw [Store.input?, h]; rfl
    have hsame : (f.encode .keys (f.valueOf .keys s') == f.encode .keys l) = true := by
      rw [hf.encode_valueOf hnew]
      exact he
    rw [hf.keys_beq] at hsame
    exact eq_of_beq hsame
  | changed _ _ _ h => exact hf.valueOf_of_input (by rw [Store.input?, h]; rfl)

variable [LawfulBEq ι]

variable [ItemKey ι] [Ranked ι] {L : Likeness K V} {held : ι → Option α}
  {entry : ι → Option (Option α)}

/-- Each item comes to count as the value given for it, or becomes absent. -/
theorem like_of_settings (h : f.Carries L s entry) (ha : f.Admits L (fun i => (entry i).join) items)
    (hnodup : (Table.keys items).Nodup)
    (hset : SetAll (f.settings (f.valueOf .keys s) items keys) s s') (i : ι) :
    (f.valueOf (.item i) s').isSome = (Table.get? i items).join.isSome ∧
      f.LikeItems L i (f.valueOf (.item i) s') (Table.get? i items).join := by
  by_cases hnew : i ∈ Table.keys items
  · obtain ⟨⟨j, a⟩, hx, rfl⟩ := List.mem_map.mp hnew
    have hget := Table.get?_of_mem hnodup hx
    rw [hget]
    have htook := hf.item_took (hset.took _ _ (List.mem_append_left _ (List.mem_map.mpr
      ⟨(j, a), List.mem_append_right _ hx, rfl⟩)))
    rcases htook with he | ⟨he, hsame⟩
    · rw [he]
      exact ⟨rfl, ha.self j a hget⟩
    · rw [he]
      exact ⟨isSome_of_beq hsame, ha.same j a _ hget (h.like j) hsame⟩
  · rw [Table.get?_eq_none_iff.mpr hnew]
    have hnone : f.valueOf (.item i) s' = none := by
      by_cases hold : i ∈ f.valueOf .keys s
      · have hmissing : i ∈ missing (f.valueOf .keys s) items := mem_missing.mpr ⟨hold, hnew⟩
        have htook := hf.item_took (hset.took _ _ (List.mem_append_left _ (List.mem_map.mpr
          ⟨(i, none), List.mem_append_left _ (List.mem_map_of_mem hmissing), rfl⟩)))
        rcases htook with he | ⟨he, hsame⟩
        · exact he
        · rw [he]
          simpa using isSome_of_beq hsame
      · have hother := hset.other _ (hf.not_mem_settings hold hnew)
        have hsame : f.valueOf (.item i) s' = f.valueOf (.item i) s :=
          f.valueOf_congr (by rw [Store.input?, Store.input?, hother])
        have habsent := h.isSome i
        rw [h.mem_keys, Option.not_isSome_iff_eq_none] at hold
        rw [hold] at habsent
        rw [hsame]
        simpa using habsent
    rw [hnone]
    exact ⟨rfl, ha.absent i⟩

theorem carries_of_settings (h : f.Carries L s entry)
    (ha : f.Admits L (fun i => (entry i).join) items) (hnodup : (Table.keys items).Nodup)
    (hkeys : ItemKey.sorted (Table.keys items) = .ok keys)
    (hset : SetAll (f.settings (f.valueOf .keys s) items keys) s s') :
    f.Carries L s' fun i => Table.get? i items where
  keys := by
    have hlast : f.valueOf .keys s' = keys :=
      hf.keys_took (hset.took _ _ (List.mem_append_right _ List.mem_cons_self))
    refine ⟨Table.keys items, fun i => ?_, by rw [hlast, hkeys]⟩
    rw [Option.isSome_iff_ne_none, ne_eq, Table.get?_eq_none_iff, not_not]
  isSome i := (hf.like_of_settings h ha hnodup hset i).1
  like i := (hf.like_of_settings h ha hnodup hset i).2

theorem replaceAll_set (hidle : s.active = []) (hnodup : (Table.keys items).Nodup) :
    ∃ changed s' keys, f.replaceAll items s = (.ok changed, s') ∧
      ItemKey.sorted (Table.keys items) = .ok keys ∧
      SetAll (f.settings (f.valueOf .keys s) items keys) s s' ∧
      s' = s.setAll (f.settings (f.valueOf .keys s) items keys) := by
  obtain ⟨keys, hkeys, -⟩ := Ranked.exists_sorted (Table.keys items)
  obtain ⟨changed, heq⟩ := f.replaceAll_eq hidle (hf.inputValue_eq .keys s) hkeys
  have hset := setAll_set hidle (hf.nodup_settings (f.valueOf .keys s) keys hnodup)
  exact ⟨changed, _, keys, heq, hkeys, hset, rfl⟩

theorem replaceAll_carries (h : f.Carries L s entry)
    (ha : f.Admits L (fun i => (entry i).join) items) (hidle : s.active = [])
    (hnodup : (Table.keys items).Nodup) : ∃ changed s', f.replaceAll items s = (.ok changed, s') ∧
      f.Refilled L s s' ∧ f.Carries L s' fun i => Table.get? i items := by
  obtain ⟨changed, s', keys, heq, hkeys, hset, rfl⟩ := hf.replaceAll_set hidle hnodup
  refine ⟨changed, _, heq, ⟨fun k hk => ?_, fun rules L' hL hrest => ?_⟩, ?_⟩
  · rw [Store.input?, Store.input?, hset.other k (not_mem_settings_of_ne hk)]
  · exact hrest.setAll fun k v hv => hL k v (ha.settings hnodup hv)
  · exact hf.carries_of_settings h ha hnodup hkeys hset

theorem replaceAll_tallies (h : f.Tallies L s held) (ha : f.Admits L held items)
    (hidle : s.active = []) (hnodup : (Table.keys items).Nodup)
    (hsome : ∀ i, Table.get? i items ≠ some none) :
    ∃ changed s', f.replaceAll items s = (.ok changed, s') ∧ Replaced f L items s s' := by
  have ha' : f.Admits L (fun i => ((held i).map some).join) items := by
    simpa only [join_map_some] using ha
  obtain ⟨changed, s', keys, heq, hkeys, hset, rfl⟩ := hf.replaceAll_set hidle hnodup
  have hlast := hf.keys_took (hset.took _ _ (List.mem_append_right _ List.mem_cons_self))
  refine ⟨changed, _, heq, ⟨keys, hset, hlast⟩, hnodup, hsome, ?_, fun rules L' hL hrest => ?_⟩
  · exact (hf.carries_of_settings h.carries ha' hnodup hkeys hset).tallies hsome
  · exact hrest.setAll fun k v hv => hL k v (ha.settings hnodup hv)

end Faithful

end Family

/-- What is held once items were taken out and others put in. -/
def updated {ι α : Type} [BEq ι] (held : ι → Option α) (changed : Table ι (Option α))
    (removed : List ι) (i : ι) : Option α :=
  (Table.get? i changed).getD (if removed.contains i then none else held i)

/-- What there is under each key once items were taken out and others put in. -/
def updatedEntry {ι α : Type} [BEq ι] (entry : ι → Option (Option α))
    (changed : Table ι (Option α)) (removed : List ι) (i : ι) : Option (Option α) :=
  (Table.get? i changed).or (if removed.contains i then none else entry i)

theorem join_updatedEntry {ι α : Type} [BEq ι] (held : ι → Option α)
    (changed : Table ι (Option α)) (removed : List ι) (i : ι) :
    (updatedEntry (fun i => (held i).map some) changed removed i).join =
      updated held changed removed i := by
  rw [updatedEntry, updated]
  cases Table.get? i changed with
  | some a => rfl
  | none =>
    rw [Option.none_or, Option.getD_none]
    split
    · rfl
    · exact join_map_some (held i)

namespace Family
variable {K : Type} {V : K → Type} {ι α : Type} {f : Family K V (InputNode.Value ι α)}
  {s s' : Store K V} {items changed : Table ι (Option α)} [BEq K] [LawfulBEq K] [BEq ι]

/-- The items that a stream is made to hold by an update. -/
def updating (f : Family K V (InputNode.Value ι α)) (changed : Table ι (Option α))
    (removed : List ι) (s : Store K V) : Table ι (Option α) :=
  let current : Table ι (Option α) :=
    .ofList ((f.valueOf .keys s).map fun i => (i, f.valueOf (.item i) s))
  changed.foldl (fun t x => Table.set x.1 x.2 t) (current.filter fun x => !removed.contains x.1)

section
variable [LawfulBEq ι]

theorem nodup_updating (changed : Table ι (Option α)) (removed : List ι) (s : Store K V) :
    (Table.keys (f.updating changed removed s)).Nodup := by
  refine Table.nodup_foldl_set changed ?_
  rw [Table.keys_filter fun i => !removed.contains i]
  exact (Table.nodup_ofList _).filter _

theorem get?_current (l : List ι) (i : ι) :
    Table.get? i (l.map fun i => (i, f.valueOf (.item i) s)).reverse =
      if i ∈ l then some (f.valueOf (.item i) s) else none := by
  induction l with
  | nil => rfl
  | cons j l ih =>
    rw [List.map_cons, List.reverse_cons, Table.get?_append, ih]
    by_cases hj : j = i
    · subst hj
      by_cases hl : j ∈ l <;> simp [hl, Table.get?]
    · have hne : i ≠ j := fun he => hj he.symm
      by_cases hl : i ∈ l <;> simp [hl, hj, hne, Table.get?]

variable [ItemKey ι] [Ranked ι] {L : Likeness K V} {entry : ι → Option (Option α)}

/-- What is under a key is put in, or it is not there any more, or it is put in as it is. -/
theorem updating_cases (h : f.Carries L s entry) (hnodup : (Table.keys changed).Nodup)
    (removed : List ι) (i : ι) :
    (∃ a, Table.get? i changed = some a ∧ Table.get? i (f.updating changed removed s) = some a ∧
      updatedEntry entry changed removed i = some a) ∨
    (Table.get? i (f.updating changed removed s) = none ∧
      updatedEntry entry changed removed i = none) ∨
    (Table.get? i (f.updating changed removed s) = some (f.valueOf (.item i) s) ∧
      (entry i).isSome ∧ updatedEntry entry changed removed i = entry i) := by
  have hkeys := h.mem_keys i
  have hget : Table.get? i (f.updating changed removed s) = (Table.get? i changed).or
      (if removed.contains i then none
        else if i ∈ f.valueOf .keys s then some (f.valueOf (.item i) s) else none) := by
    rw [updating, Table.get?_foldl_set, Table.get?_reverse hnodup,
      Table.get?_filter i fun i => !removed.contains i, Table.get?_ofList, get?_current]
    cases removed.contains i <;> rfl
  rw [hget, updatedEntry]
  cases hc : Table.get? i changed with
  | some a => exact .inl ⟨a, rfl, rfl, rfl⟩
  | none =>
    rw [Option.none_or, Option.none_or]
    by_cases hr : removed.contains i
    · rw [if_pos hr, if_pos hr]
      exact .inr (.inl ⟨rfl, rfl⟩)
    · rw [if_neg hr, if_neg hr]
      by_cases hi : i ∈ f.valueOf .keys s
      · rw [if_pos hi]
        exact .inr (.inr ⟨rfl, hkeys.mp hi, rfl⟩)
      · rw [if_neg hi]
        rw [hkeys, Option.not_isSome_iff_eq_none] at hi
        exact .inr (.inl ⟨rfl, hi⟩)

theorem Admits.updating [BEq α] (ha : f.Admits L (fun i => (entry i).join) changed)
    (h : f.Carries L s entry) (hnodup : (Table.keys changed).Nodup) (removed : List ι) :
    f.Admits L (fun i => (entry i).join) (f.updating changed removed s) where
  keys := ha.keys
  absent := ha.absent
  self i a hi := by
    rcases updating_cases h hnodup removed i with ⟨b, hc, hu, -⟩ | ⟨hu, -⟩ | ⟨hu, -, -⟩
    · cases hu.symm.trans hi
      exact ha.self i a hc
    · cases hu.symm.trans hi
    · cases hu.symm.trans hi
      exact L.left (h.like i)
  same i a x hi hx hsame := by
    rcases updating_cases h hnodup removed i with ⟨b, hc, hu, -⟩ | ⟨hu, -⟩ | ⟨hu, -, -⟩
    · cases hu.symm.trans hi
      exact ha.same i a x hc hx hsame
    · cases hu.symm.trans hi
    · cases hu.symm.trans hi
      exact L.trans hx (L.symm (h.like i))

end

/-- What a stream holds now, if its values can be read. -/
theorem currentItems_of_read (h : ∀ n, f.inputValue n s = .ok (f.valueOf n s)) :
    f.currentItems s =
      .ok (.ofList ((f.valueOf .keys s).map fun i => (i, f.valueOf (.item i) s))) := by
  have hread (l : List ι) : (l.mapM fun i => do return (i, ← f.inputValue (.item i) s) :
      Except (Failure K) (List (ι × Option α))) =
        .ok (l.map fun i => (i, f.valueOf (.item i) s)) := by
    induction l with
    | nil => rfl
    | cons i l ih =>
      rw [List.mapM_cons, h (.item i), ih]
      rfl
  rw [currentItems, h .keys]
  exact congrArg (Except.map Table.ofList) (hread (f.valueOf .keys s))

namespace Faithful
variable [∀ k, BEq (V k)] [BEq α] (hf : f.Faithful)
include hf

theorem currentItems_eq (s : Store K V) : f.currentItems s =
    .ok (.ofList ((f.valueOf .keys s).map fun i => (i, f.valueOf (.item i) s))) :=
  currentItems_of_read fun n => hf.inputValue_eq n s

theorem update_eq [ItemKey ι] (changed : Table ι (Option α)) (removed : List ι) (s : Store K V) :
    f.update changed removed s = f.replaceAll (f.updating changed removed s) s := by
  rw [update, hf.currentItems_eq s]
  rfl

variable [LawfulBEq ι] [ItemKey ι] [Ranked ι] {L : Likeness K V} {held : ι → Option α}
  {entry : ι → Option (Option α)}

/-- There is nothing under keys that are taken out from then on, and what is put in is there. -/
theorem update_carries (h : f.Carries L s entry)
    (ha : f.Admits L (fun i => (entry i).join) changed) (hidle : s.active = [])
    (hnodup : (Table.keys changed).Nodup) (removed : List ι) :
    ∃ r s', f.update changed removed s = (.ok r, s') ∧ f.Refilled L s s' ∧
      f.Carries L s' (updatedEntry entry changed removed) := by
  obtain ⟨r, s', heq, hrefilled, hcarries⟩ := hf.replaceAll_carries h
    (ha.updating h hnodup removed) hidle (nodup_updating changed removed s)
  refine ⟨r, s', (hf.update_eq changed removed s).trans heq, hrefilled,
    hcarries.congr (fun i => ?_) (fun i => ?_) fun i => ?_⟩
  all_goals
    rcases updating_cases h hnodup removed i with ⟨a, hc, hu, he⟩ | ⟨hu, he⟩ | ⟨hu, hsome, he⟩
    all_goals rw [hu, he]
  · exact hsome.symm
  · exact h.isSome i
  · exact ha.self i a hc
  · exact ha.absent i
  · exact h.like i

/-- Items that are taken out are absent from then on, and those that are put in are held. -/
theorem update_tallies (h : f.Tallies L s held) (ha : f.Admits L held changed)
    (hidle : s.active = []) (hnodup : (Table.keys changed).Nodup)
    (hsome : ∀ i, Table.get? i changed ≠ some none) (removed : List ι) :
    ∃ r s', f.update changed removed s = (.ok r, s') ∧
      f.Replaced L (f.updating changed removed s) s s' ∧
      f.Tallies L s' (updated held changed removed) := by
  have ha' : f.Admits L (fun i => ((held i).map some).join) changed := by
    simpa only [join_map_some] using ha
  have hpresent (i : ι) : Table.get? i (f.updating changed removed s) ≠ some none ∧
      updatedEntry (fun i => (held i).map some) changed removed i ≠ some none := by
    rcases updating_cases h.carries hnodup removed i with
      ⟨a, hc, hu, he⟩ | ⟨hu, he⟩ | ⟨hu, hi, he⟩
    · rw [hu, he, ← hc]
      exact ⟨hsome i, hsome i⟩
    · simp [hu, he]
    · have hvalue := h.isSome i
      rw [Option.isSome_map] at hi
      rw [hi, Option.isSome_iff_ne_none] at hvalue
      rw [hu, he]
      exact ⟨fun hn => hvalue (Option.some.inj hn), by cases held i <;> simp⟩
  have hadmits : f.Admits L held (f.updating changed removed s) := by
    simpa only [join_map_some] using ha'.updating h.carries hnodup removed
  obtain ⟨r, s', heq, hreplaced⟩ := hf.replaceAll_tallies h hadmits hidle
    (nodup_updating changed removed s) fun i => (hpresent i).1
  obtain ⟨r', s'', heq', -, hcarries⟩ := hf.update_carries h.carries ha' hidle hnodup removed
  rw [hf.update_eq, heq] at heq'
  obtain ⟨-, rfl⟩ := Prod.mk.inj heq'
  refine ⟨r, s', (hf.update_eq changed removed s).trans heq, hreplaced, ?_⟩
  simpa only [join_updatedEntry] using hcarries.tallies fun i => (hpresent i).2

end Faithful
end Family
end SceneCodegen.Graph
