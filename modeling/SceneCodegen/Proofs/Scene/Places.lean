import Mathlib.Data.List.Nodup
import SceneCodegen.Proofs.Scene.Source

/-!
# Places of nodes

The text of a place determines it, since names are not empty and hold no separator. Siblings have
different names, so no two nodes of a tree stand at one place, and the parser's path of a node, put
together from its parent's, is the text of its place.
-/
namespace SceneCodegen.Scene

theorem fields_placeText {names : List NodeName} (hne : names ≠ []) :
    Text.fields '/' (placeText names).toList = names.map (·.text.toList) := by
  obtain ⟨n, rest, rfl⟩ := List.exists_cons_of_ne_nil hne
  rw [placeText, String.toList_ofList]
  · refine Text.fields_intercalate (by simp) fun part hpart => ?_
    obtain ⟨name, -, rfl⟩ := List.mem_map.mp hpart
    exact name.plain
  · simp

/-- A place whose text holds no separator is a single name. -/
theorem exists_name_of_placeText {names : List NodeName} (hne : names ≠ [])
    (h : '/' ∉ (placeText names).toList) : ∃ name : NodeName, name.text = placeText names := by
  have hfields := fields_placeText hne
  rw [Text.fields_of_not_mem h] at hfields
  obtain ⟨name, -, hname⟩ := List.mem_map.mp (hfields ▸ List.mem_singleton_self _)
  exact ⟨name, String.toList_injective hname⟩

theorem placeText_ne_root {names : List NodeName} (hne : names ≠ []) :
    placeText names ≠ rootName := by
  intro h
  obtain ⟨name, hname⟩ := exists_name_of_placeText hne (by rw [h]; decide)
  exact name.notRoot (hname.trans h)

theorem placeText_ne_empty {names : List NodeName} (hne : names ≠ []) : placeText names ≠ "" := by
  intro h
  obtain ⟨name, hname⟩ := exists_name_of_placeText hne (by rw [h]; decide)
  exact name.filled (hname.trans h)

theorem placeText_injective : Function.Injective placeText := by
  intro a b h
  by_cases ha : a = []
  · subst a
    by_contra hb
    exact placeText_ne_root (Ne.symm hb) h.symm
  · have hb : b ≠ [] := by
      rintro rfl
      exact placeText_ne_root ha h
    have hfields := fields_placeText ha
    rw [h, fields_placeText hb] at hfields
    refine (List.map_injective_iff.mpr ?_ hfields).symm
    exact fun x y hxy => NodeName.text_injective (String.toList_injective hxy)

theorem placeText_snoc {names : List NodeName} (hne : names ≠ []) (name : NodeName) :
    placeText (names ++ [name]) = placeText names ++ "/" ++ name.text := by
  obtain ⟨n, rest, rfl⟩ := List.exists_cons_of_ne_nil hne
  apply String.toList_injective
  have hparts : (n :: rest).map (·.text.toList) ≠ [] := by simp
  simpa [placeText] using Text.intercalate_snoc ['/'] hparts name.text.toList

/-- The path that the parser puts together is the text of the node's place. -/
theorem nodePath_placed (n : Placed) :
    nodePath n.entry.name.text (n.parent.map placeText) = placeText n.place := by
  rcases n with ⟨_ | names, entry⟩
  · rfl
  · by_cases hnames : names = []
    · subst hnames
      simp [nodePath, placeText, Placed.place]
    · simp [nodePath, placeText_ne_root hnames, placeText_ne_empty hnames, Placed.place,
        placeText_snoc hnames]

theorem nodesOfAll_eq (place : List NodeName) (trees : List Tree) :
    nodesOfAll place trees = trees.flatMap fun t => t.nodes (some place) := by
  induction trees with
  | nil => rfl
  | cons t rest ih => rw [nodesOfAll, ih, List.flatMap_cons]

/-- All nodes of a tree stand at its root's place or below, each at a place of its own. -/
theorem Tree.Distinct.places {t : Tree} (h : t.Distinct) (parent : Option (List NodeName)) :
    (∀ n ∈ t.nodes parent, (Placed.mk parent t.entry).place <+: n.place) ∧
      ((t.nodes parent).map Placed.place).Nodup := by
  induction h generalizing parent with
  | @node entry children hnames _ ih =>
    simp only [Tree.nodes, nodesOfAll_eq, Tree.entry]
    generalize hplace : (Placed.mk parent entry).place = place
    have hbelow : ∀ t ∈ children, ∀ n ∈ t.nodes (some place), place ++ [t.name] <+: n.place :=
      fun t ht => (ih t ht (some place)).1
    constructor
    · intro n hn
      rcases List.mem_cons.mp hn with rfl | hn
      · exact hplace ▸ List.prefix_rfl
      · obtain ⟨t, ht, hn⟩ := List.mem_flatMap.mp hn
        exact (List.prefix_append place _).trans (hbelow t ht n hn)
    · rw [List.map_cons, List.map_flatMap, List.nodup_cons, hplace]
      refine ⟨fun hmem => ?_, ?_⟩
      · obtain ⟨t, ht, hn⟩ := List.mem_flatMap.mp hmem
        obtain ⟨n, hn, hat⟩ := List.mem_map.mp hn
        have := (hbelow t ht n hn).length_le
        rw [hat, List.length_append, List.length_singleton] at this
        omega
      · rw [List.nodup_flatMap]
        refine ⟨fun t ht => (ih t ht (some place)).2, ?_⟩
        refine (List.pairwise_map.mp hnames).imp_of_mem fun {a b} ha hb hne => ?_
        intro p hpa hpb
        obtain ⟨n, hn, rfl⟩ := List.mem_map.mp hpa
        obtain ⟨m, hm, hsame⟩ := List.mem_map.mp hpb
        have hprefix := List.prefix_of_prefix_length_le (hbelow a ha n hn)
          (hsame ▸ hbelow b hb m hm)
          (by simp)
        exact hne (by simpa using hprefix)

/-- No two nodes of a scene are called by one path. -/
theorem Source.nodup_placeTexts (s : Source) :
    (s.nodes.map fun n => placeText n.place).Nodup := by
  have hplaces := (s.distinctNames.places none).2
  simpa [Function.comp_def, Source.nodes] using hplaces.map placeText_injective

theorem find?_eq_some_of_unique {α : Type} {p : α → Bool} {xs : List α} {x : α} (hx : x ∈ xs)
    (hp : p x = true) (huniq : ∀ y ∈ xs, p y = true → y = x) : xs.find? p = some x := by
  cases hfind : xs.find? p with
  | none => exact absurd hp (List.find?_eq_none.mp hfind x hx)
  | some y => rw [huniq y (List.mem_of_find?_eq_some hfind) (List.find?_some hfind)]

namespace Source
variable (s : Source) (scriptExtension : String)

/-- Since places and identifiers are unique, a connection leads to the one script that is found. -/
theorem scriptAt?_eq_some_iff {w : Wire} {x : Resource} :
    scriptAt? scriptExtension s.resources s.nodes w.target = some x ↔
      s.LeadsTo scriptExtension w x := by
  constructor
  · intro h
    obtain ⟨n, hn, h⟩ := Option.bind_eq_some_iff.mp h
    obtain ⟨id, hid, h⟩ := Option.bind_eq_some_iff.mp h
    have hx := List.find?_some h
    simp only [Bool.and_eq_true, beq_iff_eq] at hx
    refine ⟨List.mem_of_find?_eq_some h, hx.2, n, List.mem_of_find?_eq_some hn, ?_, ?_⟩
    · simpa using List.find?_some hn
    · rw [hid, ResourceId.text_injective hx.1]
  · rintro ⟨hx, hsuffix, n, hn, htarget, hscript⟩
    have hnode : (s.nodes.find? fun n => placeText n.place == w.target) = some n := by
      refine find?_eq_some_of_unique hn (by simpa using htarget) fun m hm hsame => ?_
      exact List.inj_on_of_nodup_map s.nodup_placeTexts hm hn ((eq_of_beq hsame).trans htarget.symm)
    have hresource : (s.resources.find? fun y =>
        y.id.text == x.id.text && Text.hasSuffix scriptExtension y.path) = some x := by
      refine find?_eq_some_of_unique hx (by simpa using hsuffix) fun y hy hsame => ?_
      rw [Bool.and_eq_true, beq_iff_eq] at hsame
      exact List.inj_on_of_nodup_map s.distinctIds hy hx (ResourceId.text_injective hsame.1)
    simp [scriptAt?, hnode, hscript, hresource]

theorem kept?_eq_some_iff {w : Wire} {k : Wire × Resource} :
    kept? scriptExtension s.resources s.nodes w = some k ↔
      k.1 = w ∧ w.method ≠ "" ∧ s.LeadsTo scriptExtension w k.2 := by
  rcases k with ⟨w', x⟩
  unfold kept?
  split
  · next hmethod => simp [hmethod]
  · next hmethod =>
    simp only [Option.map_eq_some_iff, Prod.mk.injEq, s.scriptAt?_eq_some_iff]
    constructor
    · rintro ⟨_, hx, rfl, rfl⟩
      exact ⟨rfl, hmethod, hx⟩
    · rintro ⟨rfl, -, hx⟩
      exact ⟨x, hx, rfl, rfl⟩

theorem wired_iff {w : Wire} :
    s.Wired scriptExtension w ↔ (kept? scriptExtension s.resources s.nodes w).isSome = true := by
  rw [Option.isSome_iff_exists]
  constructor
  · rintro ⟨hmethod, x, hx⟩
    exact ⟨(w, x), (s.kept?_eq_some_iff scriptExtension).mpr ⟨rfl, hmethod, hx⟩⟩
  · rintro ⟨k, hk⟩
    obtain ⟨-, hmethod, hx⟩ := (s.kept?_eq_some_iff scriptExtension).mp hk
    exact ⟨hmethod, k.2, hx⟩

instance (w : Wire) : Decidable (s.Wired scriptExtension w) :=
  decidable_of_iff _ (s.wired_iff scriptExtension).symm

/-- The connections that are kept are those that are wired, each with the script it leads to. -/
theorem filterMap_kept? :
    let kept := s.wires.filterMap (kept? scriptExtension s.resources s.nodes)
    kept.map Prod.fst = s.wires.filter (fun w => s.Wired scriptExtension w) ∧
      ∀ k ∈ kept, s.LeadsTo scriptExtension k.1 k.2 := by
  constructor
  · generalize s.wires = wires
    induction wires with
    | nil => rfl
    | cons w ws ih =>
      cases hkept : kept? scriptExtension s.resources s.nodes w with
      | none =>
        have hwired : ¬ s.Wired scriptExtension w := by simp [wired_iff, hkept]
        simpa [hkept, hwired] using ih
      | some k =>
        have hwired : s.Wired scriptExtension w := by simp [wired_iff, hkept]
        have hsame := ((s.kept?_eq_some_iff scriptExtension).mp hkept).1
        simpa [hkept, hwired, hsame] using ih
  · intro k hk
    obtain ⟨w, -, hkept⟩ := List.mem_filterMap.mp hk
    obtain ⟨rfl, -, hleads⟩ := (s.kept?_eq_some_iff scriptExtension).mp hkept
    exact hleads

end Source

end SceneCodegen.Scene
