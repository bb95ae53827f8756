import SceneCodegen.Graph.Stream
import SceneCodegen.Proofs.Graph.Valuation
import SceneCodegen.Proofs.Table

/-!
# What streams come to

A stream whose nodes all have values comes to a listing: its keys, the item under each and what is
reported. Each operator on streams is an operation on listings that knows of no graph.
-/
namespace SceneCodegen.Graph

/-- The keys of a stream in order, the item under each key, and the diagnostics. -/
structure Listing (ι α : Type) where
  keys : List ι
  item : ι → Option α
  diagnostics : List Diagnostic := []

variable {ι ι₁ ι₂ κ α β : Type}

namespace Listing

/-- The items that are there, in the order of the keys. -/
def items (L : Listing ι α) : List (ι × α) := L.keys.filterMap fun i => (L.item i).map (i, ·)

theorem mem_items {L : Listing ι α} {i : ι} {a : α} :
    (i, a) ∈ L.items ↔ i ∈ L.keys ∧ L.item i = some a := by
  simp only [items, List.mem_filterMap, Option.map_eq_some_iff, Prod.mk.injEq]
  constructor
  · rintro ⟨j, hj, b, hb, rfl, rfl⟩
    exact ⟨hj, hb⟩
  · rintro ⟨hi, ha⟩
    exact ⟨i, hi, a, ha, rfl, rfl⟩

theorem keys_items_sublist (L : Listing ι α) : (L.items.map Prod.fst).Sublist L.keys := by
  rw [items, List.map_filterMap]
  induction L.keys with
  | nil => exact .slnil
  | cons i keys ih =>
    cases hi : L.item i with
    | none => simpa [hi] using ih.cons i
    | some a => simpa [hi] using ih.cons_cons i

/-- What comes of the item under a key. -/
def outcome (f : α → Outcome β) (L : Listing ι α) (i : ι) : Outcome β :=
  match L.item i with
  | none => {}
  | some a => f a

def map (f : α → Outcome β) (L : Listing ι α) : Listing ι β where
  keys := L.keys
  item i := (L.outcome f i).value
  diagnostics :=
    Diagnostic.sorted (L.diagnostics ++ L.keys.flatMap fun i => (L.outcome f i).diagnostics)

theorem item_map (f : α → Outcome β) (L : Listing ι α) (i : ι) :
    (L.map f).item i = (L.item i).bind fun a => (f a).value := by
  simp only [map, outcome]
  cases L.item i <;> rfl

theorem mem_items_map {f : α → Outcome β} {L : Listing ι α} {i : ι} {b : β} :
    (i, b) ∈ (L.map f).items ↔ ∃ a, (i, a) ∈ L.items ∧ (f a).value = some b := by
  simp only [mem_items, item_map, Option.bind_eq_some_iff, and_assoc]
  exact ⟨fun ⟨hi, a, ha, hb⟩ => ⟨a, hi, ha, hb⟩, fun ⟨a, hi, ha, hb⟩ => ⟨hi, a, ha, hb⟩⟩

/-- The elements of the item under a key, each with its own key. -/
def parts (explode : α → List (κ × β)) (L : Listing ι α) (i : ι) : List (κ × β) :=
  match L.item i with
  | none => []
  | some a => explode a

def flat [BEq κ] (sort : List (ι × κ) → List (ι × κ)) (explode : α → List (κ × β))
    (L : Listing ι α) : Listing (ι × κ) β where
  keys := sort (L.keys.flatMap fun i => (L.parts explode i).map fun p => (i, p.1))
  item key := ((L.parts explode key.1).find? (·.1 == key.2)).map Prod.snd
  diagnostics := L.diagnostics

/-- The elements are those found first under their own keys. -/
theorem item_flat [BEq κ] [LawfulBEq κ] {sort : List (ι × κ) → List (ι × κ)}
    {explode : α → List (κ × β)} {L : Listing ι α} {i : ι} {k : κ} {b : β} :
    (L.flat sort explode).item (i, k) = some b ↔
      ∃ a, L.item i = some a ∧ (explode a).find? (·.1 == k) = some (k, b) := by
  have hfind {l : List (κ × β)} :
      (l.find? (·.1 == k)).map Prod.snd = some b ↔ l.find? (·.1 == k) = some (k, b) := by
    rw [Option.map_eq_some_iff]
    constructor
    · rintro ⟨⟨k', b'⟩, hl, rfl⟩
      obtain rfl : k' = k := by simpa using List.find?_some hl
      exact hl
    · exact fun hl => ⟨(k, b), hl, rfl⟩
  show ((L.parts explode i).find? (·.1 == k)).map Prod.snd = some b ↔ _
  rw [hfind, parts]
  cases L.item i <;> simp

theorem mem_items_flat [BEq κ] [LawfulBEq κ] {sort : List (ι × κ) → List (ι × κ)}
    (hsort : ∀ l key, key ∈ sort l ↔ key ∈ l) {explode : α → List (κ × β)} {L : Listing ι α}
    {i : ι} {k : κ} {b : β} : ((i, k), b) ∈ (L.flat sort explode).items ↔
      i ∈ L.keys ∧ ∃ a, L.item i = some a ∧ (explode a).find? (·.1 == k) = some (k, b) := by
  rw [mem_items, item_flat]
  refine and_congr_left ?_
  rintro ⟨a, ha, hl⟩
  have hkeys : (L.flat sort explode).keys =
      sort (L.keys.flatMap fun i => (L.parts explode i).map fun p => (i, p.1)) := rfl
  rw [hkeys, hsort, List.mem_flatMap]
  constructor
  · rintro ⟨j, hj, hmem⟩
    obtain ⟨p, -, he⟩ := List.mem_map.mp hmem
    cases he
    exact hj
  · intro hi
    refine ⟨i, hi, List.mem_map.mpr ⟨(k, b), ?_, rfl⟩⟩
    rw [parts, ha]
    exact List.mem_of_find?_eq_some hl

def under [BEq κ] (rightKey : β → κ) (R : Listing ι₂ β) (k : κ) : List β :=
  (R.items.filter fun x => rightKey x.2 == k).map Prod.snd

/-- The items of the other side that share a key, each once. -/
def sharing [BEq κ] [BEq β] (keys : List κ) (rightKey : β → κ) (R : Listing ι₂ β) : List β :=
  (keys.eraseDups.map (R.under rightKey)).foldl addMatches []

def join [BEq κ] [BEq β] (leftKeys : α → List κ) (rightKey : β → κ) (L : Listing ι₁ α)
    (R : Listing ι₂ β) : Listing ι₁ (JoinPair α β) where
  keys := L.keys
  item i := (L.item i).map fun a => ⟨a, R.sharing (leftKeys a) rightKey⟩
  diagnostics := Diagnostic.sorted (L.diagnostics ++ R.diagnostics)

theorem mem_items_join [BEq κ] [BEq β] {f : α → List κ} {g : β → κ} {L : Listing ι₁ α}
    {R : Listing ι₂ β} {i : ι₁} {pair : JoinPair α β} : (i, pair) ∈ (L.join f g R).items ↔
      ∃ a, (i, a) ∈ L.items ∧ pair = ⟨a, R.sharing (f a) g⟩ := by
  have hitem : (L.join f g R).item i = (L.item i).map fun a => ⟨a, R.sharing (f a) g⟩ := rfl
  simp only [mem_items, hitem, Option.map_eq_some_iff, and_assoc]
  exact ⟨fun ⟨hi, a, ha, hb⟩ => ⟨a, hi, ha, hb.symm⟩, fun ⟨a, hi, ha, hb⟩ => ⟨hi, a, ha, hb.symm⟩⟩

section
variable [BEq β] [LawfulBEq β]

theorem mem_addMatches {found new : List β} {b : β} :
    b ∈ addMatches found new ↔ b ∈ found ∨ b ∈ new := by
  induction new generalizing found with
  | nil => simp [addMatches]
  | cons a new ih =>
    have hstep : addMatches found (a :: new) =
        addMatches (if found.contains a then found else found ++ [a]) new := rfl
    rw [hstep, ih]
    split
    · rename_i ha
      have ha : a ∈ found := by simpa using ha
      constructor
      · exact Or.imp_right (List.mem_cons_of_mem a)
      · rintro (hb | hb)
        · exact .inl hb
        · rcases List.mem_cons.mp hb with rfl | hb
          · exact .inl ha
          · exact .inr hb
    · simp [or_assoc]

theorem nodup_addMatches {found : List β} (h : found.Nodup) (new : List β) :
    (addMatches found new).Nodup := by
  induction new generalizing found with
  | nil => exact h
  | cons a new ih =>
    have hadded : (if found.contains a then found else found ++ [a]).Nodup := by
      simpa using Table.nodup_added a h
    exact ih hadded

theorem mem_foldl_addMatches {found : List β} {lists : List (List β)} {b : β} :
    b ∈ lists.foldl addMatches found ↔ b ∈ found ∨ ∃ l ∈ lists, b ∈ l := by
  induction lists generalizing found with
  | nil => simp
  | cons l lists ih =>
    rw [List.foldl_cons, ih, mem_addMatches]
    simp [or_assoc]

theorem nodup_foldl_addMatches {found : List β} (h : found.Nodup) (lists : List (List β)) :
    (lists.foldl addMatches found).Nodup := by
  induction lists generalizing found with
  | nil => exact h
  | cons l lists ih => exact ih (nodup_addMatches h l)

/-- Where nothing of it was found before, all that is new is added, each once. -/
theorem addMatches_eq_append {found new : List β} (h : ∀ b ∈ new, b ∉ found) :
    addMatches found new = found ++ new.eraseDups := by
  induction new using List.reverseRecOn with
  | nil => exact (List.append_nil found).symm
  | append_singleton new b ih =>
    have hstep : addMatches found (new ++ [b]) = if (addMatches found new).contains b then
        addMatches found new else addMatches found new ++ [b] := List.foldl_concat ..
    have hb : b ∉ found := h b (by simp)
    have hbefore := ih fun a ha => h a (List.mem_append_left _ ha)
    have hmem : (addMatches found new).contains b ↔ b ∈ new := by
      rw [List.contains_iff_mem, mem_addMatches, or_iff_right hb]
    rw [hstep, Table.eraseDups_concat, if_congr hmem rfl rfl, hbefore, ← List.append_assoc]
    split <;> simp

variable [BEq κ] {R : Listing ι₂ β} {rightKey : β → κ} {keys : List κ}

theorem nodup_sharing : (R.sharing keys rightKey).Nodup :=
  nodup_foldl_addMatches List.nodup_nil _

omit [BEq β] [LawfulBEq β] in
theorem mem_under [LawfulBEq κ] {k : κ} {b : β} :
    b ∈ R.under rightKey k ↔ rightKey b = k ∧ ∃ i ∈ R.keys, R.item i = some b := by
  simp only [under, List.mem_map, List.mem_filter, beq_iff_eq]
  constructor
  · rintro ⟨⟨i, b'⟩, ⟨hmem, hkey⟩, rfl⟩
    obtain ⟨hi, hitem⟩ := mem_items.mp hmem
    exact ⟨hkey, i, hi, hitem⟩
  · rintro ⟨hkey, i, hi, hitem⟩
    exact ⟨(i, b), ⟨mem_items.mpr ⟨hi, hitem⟩, hkey⟩, rfl⟩

theorem mem_sharing [LawfulBEq κ] {b : β} :
    b ∈ R.sharing keys rightKey ↔ rightKey b ∈ keys ∧ ∃ i ∈ R.keys, R.item i = some b := by
  simp only [sharing, mem_foldl_addMatches, List.not_mem_nil, false_or, List.mem_map,
    List.mem_eraseDups]
  constructor
  · rintro ⟨_, ⟨k, hk, rfl⟩, hb⟩
    obtain ⟨rfl, hitem⟩ := mem_under.mp hb
    exact ⟨hk, hitem⟩
  · rintro ⟨hk, hitem⟩
    exact ⟨_, ⟨rightKey b, hk, rfl⟩, mem_under.mpr ⟨rfl, hitem⟩⟩

/-- The items that share a key stand key by key. -/
theorem sharing_eq_flatMap [LawfulBEq κ] : R.sharing keys rightKey =
    keys.eraseDups.flatMap fun k => (R.under rightKey k).eraseDups := by
  have hnodup := Table.nodup_eraseDups keys
  rw [sharing]
  generalize keys.eraseDups = ks at hnodup
  induction ks using List.reverseRecOn with
  | nil => rfl
  | append_singleton ks k ih =>
    obtain ⟨hks, -, hk⟩ := List.nodup_append.mp hnodup
    have hnew : ∀ b ∈ R.under rightKey k, b ∉ (ks.map (R.under rightKey)).foldl addMatches [] := by
      intro b hb hfound
      obtain ⟨_, hl, hbl⟩ := (mem_foldl_addMatches.mp hfound).resolve_left List.not_mem_nil
      obtain ⟨k', hk', rfl⟩ := List.mem_map.mp hl
      -- An item has one key only.
      have hkey : k' = k := (mem_under.mp hbl).1.symm.trans (mem_under.mp hb).1
      exact hk k' hk' k (List.mem_singleton_self k) hkey
    rw [List.map_append, List.foldl_append, List.map_singleton, List.foldl_cons, List.foldl_nil,
      addMatches_eq_append hnew, ih hks, List.flatMap_append, List.flatMap_singleton]

end

/-- Items stand under the keys of the listing only. -/
def Closed (L : Listing ι α) : Prop := ∀ i, (L.item i).isSome → i ∈ L.keys

theorem Closed.map {L : Listing ι α} (h : L.Closed) (f : α → Outcome β) : (L.map f).Closed := by
  intro i hi
  rw [item_map] at hi
  exact h i (Option.isSome_of_isSome_bind hi)

theorem Closed.flat [BEq κ] [LawfulBEq κ] {L : Listing ι α} (h : L.Closed)
    {sort : List (ι × κ) → List (ι × κ)} (hsort : ∀ l key, key ∈ sort l ↔ key ∈ l)
    (explode : α → List (κ × β)) : (L.flat sort explode).Closed := by
  rintro ⟨i, k⟩ hsome
  obtain ⟨b, hb⟩ := Option.isSome_iff_exists.mp hsome
  obtain ⟨a, ha, hl⟩ := item_flat.mp hb
  have hi : i ∈ L.keys := h i (by rw [ha]; rfl)
  exact (mem_items.mp ((mem_items_flat hsort).mpr ⟨hi, a, ha, hl⟩)).1

theorem Closed.join [BEq κ] [BEq β] {L : Listing ι₁ α} (h : L.Closed) (f : α → List κ) (g : β → κ)
    (R : Listing ι₂ β) : (L.join f g R).Closed := by
  intro i hi
  rw [Listing.join, Option.isSome_map] at hi
  exact h i hi

end Listing

variable {K : Type} {V : K → Type} {value : (k : K) → V k}

/-- What a stream comes to when every node has the given value. -/
structure Stream.Lists (value : (k : K) → V k) (s : Stream K V ι α) (L : Listing ι α) : Prop where
  keys : s.keys.ComesTo value L.keys
  item : ∀ i, (s.item i).ComesTo value (L.item i)
  diagnostics : s.diagnostics.ComesTo value L.diagnostics

theorem Stream.Lists.items {s : Stream K V ι α} {L : Listing ι α} (h : s.Lists value L) :
    s.items.ComesTo value L.items := by
  have hread (i : ι) : (do return (← s.item i).map (i, ·) : Program K V (Option (ι × α))).ComesTo
      value ((L.item i).map (i, ·)) := (h.item i).bind (.done _)
  have hall := Program.ComesTo.mapM (l := L.keys) fun i _ => hread i
  have hitems : (L.keys.map fun i => (L.item i).map (i, ·)).filterMap id = L.items := by
    rw [List.filterMap_map]
    rfl
  rw [← hitems]
  exact h.keys.bind (hall.bind (.done _))

namespace Family

/-- The values of the nodes of a family. -/
def Holds {N : Type} {W : N → Type} (value : (k : K) → V k) (f : Family K V W)
    (w : (n : N) → W n) : Prop := ∀ n, (f.get n).ComesTo value (w n)

theorem lists_input {f : Family K V (InputNode.Value ι α)} {w : (n : InputNode ι) → n.Value ι α}
    (h : f.Holds value w) : f.inputStream.Lists value ⟨w .keys, fun i => w (.item i), []⟩ :=
  ⟨h .keys, fun i => h (.item i), .done []⟩

/-- A mapped stream comes to the mapped listing. -/
theorem lists_map [Node K] [ItemKey ι] {self : Family K V (MapNode.Value ι β)}
    {w : (n : MapNode ι) → n.Value ι β} {source : Stream K V ι α} {L : Listing ι α}
    {handler : α → Program K V (Outcome β)} {f : α → Outcome β} (hself : self.Holds value w)
    (hrule : ∀ n, (mapProgram self source handler n).ComesTo value (w n))
    (hsource : source.Lists value L)
    (hhandler : ∀ i a, L.item i = some a →
      (isolate (ItemKey.label i) (handler a)).ComesTo value (f a)) :
    (self.mapStream source).Lists value (L.map f) := by
  have houtcome (i : ι) : w (.outcome i) = L.outcome f i := by
    refine (hrule (.outcome i)).unique ((hsource.item i).bind ?_)
    rw [Listing.outcome]
    cases hi : L.item i with
    | none => exact .done _
    | some a => exact hhandler i a hi
  have hitem (i : ι) : w (.item i) = (L.outcome f i).value := by
    rw [← houtcome]
    exact (hrule (.item i)).unique ((hself (.outcome i)).bind (.done _))
  have hown : (L.keys.mapM fun i => do return (← self.get (.outcome i)).diagnostics :
      Program K V (List (List Diagnostic))).ComesTo value
        (L.keys.map fun i => (L.outcome f i).diagnostics) := by
    refine .mapM fun i _ => ?_
    rw [← houtcome]
    exact (hself (.outcome i)).bind (.done _)
  refine ⟨hsource.keys, fun i => ?_, ?_⟩
  · have hget := hself (.item i)
    rw [hitem] at hget
    exact hget
  · have hdiagnostics : w .diagnostics = (L.map f).diagnostics :=
      (hrule .diagnostics).unique
        (hsource.diagnostics.bind (hsource.keys.bind (hown.bind (.done _))))
    rw [← hdiagnostics]
    exact hself .diagnostics

theorem mapM_eq_ok {ε : Type} {f : α → Except ε β} {g : α → β} (h : ∀ a, f a = .ok (g a))
    (l : List α) : l.mapM f = .ok (l.map g) := by
  induction l with
  | nil => rfl
  | cons a l ih =>
    rw [List.mapM_cons, h, ih]
    rfl

theorem find?_pairs [BEq κ] (wanted : κ) (l : List (κ × β)) :
    (Flattening.pairs (K := K) (ι := ι)).find? wanted l =
      .ok ((l.find? (·.1 == wanted)).map Prod.snd) := by
  induction l with
  | nil => rfl
  | cons p l ih =>
    rw [Flattening.find?, ih, List.find?_cons]
    change (if p.1 == wanted then Except.ok (some p.2) else _) = _
    cases p.1 == wanted <;> rfl

/-- A stream of elements comes to the flattened listing. -/
theorem lists_flat [BEq κ] [ItemKey (ι × κ)]
    {self : Family K V (FlatNode.Value ι (ι × κ) (κ × β) β)}
    {w : (n : FlatNode ι (ι × κ)) → n.Value ι (ι × κ) (κ × β) β} {source : Stream K V ι α}
    {L : Listing ι α} {explode : α → Program K V (List (κ × β))} {f : α → List (κ × β)}
    {sort : List (ι × κ) → List (ι × κ)} (hself : self.Holds value w)
    (hrule : ∀ n, (flatProgram .pairs self source explode n).ComesTo value (w n))
    (hsource : source.Lists value L) (hexplode : ∀ a, (explode a).ComesTo value (f a))
    (hsort : ∀ l, ItemKey.sorted l = .ok (sort l)) :
    (self.flatStream source).Lists value (L.flat sort f) := by
  have hparts (i : ι) : w (.parts i) = L.parts f i := by
    refine (hrule (.parts i)).unique ((hsource.item i).bind ?_)
    rw [Listing.parts]
    cases hi : L.item i with
    | none => exact .done _
    | some a => exact hexplode a
  have hget (i : ι) : (self.get (.parts i)).ComesTo value (L.parts f i) := by
    rw [← hparts]
    exact hself (.parts i)
  have hkeys : w .keys = (L.flat sort f).keys := by
    refine (hrule .keys).unique (hsource.keys.bind ?_)
    refine Program.ComesTo.bind
      (.mapM (g := fun i => (L.parts f i).map fun p => (i, p.1)) fun i _ => ?_) ?_
    · exact (hget i).bind (.ofExcept (mapM_eq_ok (fun _ => rfl) _))
    · refine .ofExcept ?_
      rw [sortKeys, hsort]
      rfl
  have hitem (key : ι × κ) : w (.item key) = (L.flat sort f).item key := by
    refine (hrule (.item key)).unique (Program.ComesTo.bind (a := key) ?_ ?_)
    · exact .ofExcept rfl
    · exact (hget key.1).bind (.ofExcept (find?_pairs key.2 _))
  refine ⟨?_, fun key => ?_, hsource.diagnostics⟩
  · rw [← hkeys]
    exact hself .keys
  · rw [← hitem]
    exact hself (.item key)

section
variable [BEq κ] [LawfulBEq κ] [BEq β] {self : Family K V (JoinNode.Value ι₁ κ α β)}
  {w : (n : JoinNode ι₁ κ) → n.Value ι₁ κ α β} {left : Stream K V ι₁ α} {right : Stream K V ι₂ β}
  {R : Listing ι₂ β} {leftKeys : α → Program K V (List κ)} {rightKey : β → Program K V κ}
  {g : β → κ}

/-- Under a key, a join finds the items of the other side that have it. -/
theorem lookup_join (hself : self.Holds value w)
    (hrule : ∀ n, (joinProgram self left right leftKeys rightKey n).ComesTo value (w n))
    (hright : right.Lists value R) (hrightKey : ∀ b, (rightKey b).ComesTo value (g b)) (k : κ) :
    w (.lookup k) = R.under g k := by
  have hindex : w .index =
      (R.items.map fun x => (g x.2, x.2)).foldl (fun t p => Table.push p.1 p.2 t) [] := by
    refine (hrule .index).unique (hright.items.bind ?_)
    refine Program.ComesTo.bind (.mapM (g := fun x => (g x.2, x.2)) fun x _ => ?_) (.done _)
    exact (hrightKey x.2).bind (.done _)
  have hread : w (.lookup k) = (Table.get? k (w .index)).getD [] :=
    (hrule (.lookup k)).unique ((hself .index).bind (.done _))
  rw [hread, hindex, Table.getD_foldl_push, List.filter_map, List.map_map]
  rfl

/-- A joined stream comes to the joined listing. -/
theorem lists_join {L : Listing ι₁ α} {f : α → List κ} (hself : self.Holds value w)
    (hrule : ∀ n, (joinProgram self left right leftKeys rightKey n).ComesTo value (w n))
    (hleft : left.Lists value L) (hright : right.Lists value R)
    (hleftKeys : ∀ a, (leftKeys a).ComesTo value (f a))
    (hrightKey : ∀ b, (rightKey b).ComesTo value (g b)) :
    (self.joinStream left right).Lists value (L.join f g R) := by
  have hitem (i : ι₁) : w (.item i) = (L.join f g R).item i := by
    refine (hrule (.item i)).unique ((hleft.item i).bind ?_)
    simp only [Listing.join]
    cases hi : L.item i with
    | none => exact .done _
    | some a =>
      have hfound : Program.ComesTo value ((f a).eraseDups.mapM fun k => self.get (.lookup k))
          ((f a).eraseDups.map (R.under g)) := .mapM fun k _ => by
          rw [← lookup_join hself hrule hright hrightKey]
          exact hself (.lookup k)
      exact (hleftKeys a).bind (hfound.bind (.done _))
  refine ⟨hleft.keys, fun i => ?_, hleft.diagnostics.bind (hright.diagnostics.bind (.done _))⟩
  rw [← hitem]
  exact hself (.item i)

end

end Family
end SceneCodegen.Graph
