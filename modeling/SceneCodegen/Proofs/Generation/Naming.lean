import SceneCodegen.Proofs.Generation.Fillers

/-!
# Names of fragments

The fragments that are made come in groups, whose names end differently. Within a group the class a
fragment is made for tells its name. So a name is given several times only if one slot is filled
several times: if the manifests that register it are several.
-/
namespace SceneCodegen
open SceneCodegen.Graph Generation

namespace Generation

section
variable {α : Type} (name : α → String)

theorem count_map_eq (l : List α) (x : String) :
    (l.map name).count x = (l.filter fun a => name a == x).length := by
  rw [List.count_eq_countP, List.countP_map, List.countP_eq_length_filter]
  rfl

theorem two_le_count_of_ne {l : List α} {a b : α} (ha : a ∈ l) (hb : b ∈ l) (hne : a ≠ b)
    (hname : name a = name b) : 2 ≤ (l.map name).count (name b) := by
  have ha : a ∈ l.filter fun c => name c == name b :=
    List.mem_filter.mpr ⟨ha, beq_iff_eq.mpr hname⟩
  have hb : b ∈ l.filter fun c => name c == name b := List.mem_filter.mpr ⟨hb, beq_self_eq_true _⟩
  rw [count_map_eq]
  match hfilter : l.filter fun c => name c == name b with
  | [] => simp [hfilter] at ha
  | [c] =>
    rw [hfilter, List.mem_singleton] at ha hb
    exact absurd (ha.trans hb.symm) hne
  | c :: d :: rest => simp

/-- A name that is given several times is given under two keys. -/
theorem exists_of_two_le_count {ι : Type} {l : List (ι × α)} (hkeys : (l.map Prod.fst).Nodup)
    {x : String} (h : 2 ≤ ((l.map Prod.snd).map name).count x) :
    ∃ a ∈ l, ∃ b ∈ l, a.1 ≠ b.1 ∧ name a.2 = x ∧ name b.2 = x := by
  rw [List.map_map, count_map_eq] at h
  match hfilter : l.filter fun i => (name ∘ Prod.snd) i == x with
  | [] =>
    rw [hfilter] at h
    cases h
  | [c] =>
    rw [hfilter, List.length_singleton] at h
    exact absurd h (by decide)
  | a :: b :: rest =>
    have hmem (c : ι × α) (hc : c ∈ a :: b :: rest) : c ∈ l ∧ name c.2 = x := by
      rw [← hfilter, List.mem_filter, beq_iff_eq] at hc
      exact hc
    have hnodup : ((a :: b :: rest).map Prod.fst).Nodup :=
      hkeys.sublist (hfilter ▸ List.filter_sublist.map Prod.fst)
    have hne : a.1 ≠ b.1 := by
      simp only [List.map_cons, List.nodup_cons, List.mem_cons, not_or] at hnodup
      exact hnodup.1.1
    obtain ⟨ha, hax⟩ := hmem a (by simp)
    obtain ⟨hb, hbx⟩ := hmem b (by simp)
    exact ⟨a, ha, b, hb, hne, hax, hbx⟩

end

/-- Neither text ends with the other. -/
def EndApart (s t : String) : Prop := ¬ s.toList <:+ t.toList ∧ ¬ t.toList <:+ s.toList

instance (s t : String) : Decidable (EndApart s t) := inferInstanceAs (Decidable (_ ∧ _))

section
variable {groups : List (String × List GeneratedFragment)}

/-- Fragments of one name are in one group. -/
theorem count_flatMap
    (hends : ∀ group ∈ groups, ∀ f ∈ group.2, ∃ base, f.hintName = base ++ group.1)
    (hapart : groups.Pairwise fun group group' => EndApart group.1 group'.1)
    {group : String × List GeneratedFragment} (hgroup : group ∈ groups) {f : GeneratedFragment}
    (hf : f ∈ group.2) : ((groups.flatMap Prod.snd).map (·.hintName)).count f.hintName =
      (group.2.map (·.hintName)).count f.hintName := by
  induction groups with
  | nil => cases hgroup
  | cons first rest ih =>
    obtain ⟨hfirst, hrest⟩ := List.pairwise_cons.mp hapart
    have hne {f g : GeneratedFragment} (hf : f ∈ first.2) {group : String × List GeneratedFragment}
        (hgroup : group ∈ rest) (hg : g ∈ group.2) : f.hintName ≠ g.hintName := by
      obtain ⟨base, hbase⟩ := hends first List.mem_cons_self f hf
      obtain ⟨base', hbase'⟩ := hends group (List.mem_cons_of_mem first hgroup) g hg
      rw [hbase, hbase']
      exact append_ne_append (hfirst group hgroup).1 (hfirst group hgroup).2
    rw [List.flatMap_cons, List.map_append, List.count_append]
    rcases List.mem_cons.mp hgroup with rfl | hgroup
    · rw [Nat.add_eq_left, List.count_eq_zero]
      intro hmem
      obtain ⟨g, hg, he⟩ := List.mem_map.mp hmem
      obtain ⟨group', hgroup', hg⟩ := List.mem_flatMap.mp hg
      exact hne hf hgroup' hg he.symm
    · have hzero : (first.2.map (·.hintName)).count f.hintName = 0 := by
        refine List.count_eq_zero.mpr fun hmem => ?_
        obtain ⟨g, hg, he⟩ := List.mem_map.mp hmem
        exact hne hg hgroup hf he
      rw [hzero, Nat.zero_add]
      exact ih (fun group hgroup => hends group (List.mem_cons_of_mem first hgroup)) hrest hgroup

end

end Generation

namespace Generator.Supplies

/-- Several manifests register a singleton of this name. -/
def RegistersTwice (c : Generation.Config) (given : Supplies) (name : String) : Prop :=
  ∃ path path', path ≠ path' ∧ given.HasEntry c .singleton path name ∧
    given.HasEntry c .singleton path' name

end Generator.Supplies

namespace Project.Holds
variable {c : Generation.Config} {p : Project} {given : Generator.Supplies} (h : p.Holds c given)
  (hkeyed : given.symbols.Keyed)
  (hplain : ∀ name t, (name, t) ∈ given.symbols → t.PlainlyNamed)
include h hkeyed hplain

omit h in
theorem count_name_le_one {L : Listing String GeneratedFragment} (hkeys : L.keys.Nodup)
    (ending : String) (hmade : ∀ key f, (key, f) ∈ L.items →
      ∃ t, given.type key = some t ∧ f.hintName = hintNameOf t.qualifiedName ++ ending)
    (x : String) : ((L.items.map Prod.snd).map (·.hintName)).count x ≤ 1 := by
  by_contra hcount
  obtain ⟨a, ha, b, hb, hne, hax, hbx⟩ := exists_of_two_le_count _
    (hkeys.sublist (Listing.keys_items_sublist L)) (Nat.lt_of_not_le hcount)
  obtain ⟨t, ht, hname⟩ := hmade a.1 a.2 ha
  obtain ⟨t', ht', hname'⟩ := hmade b.1 b.2 hb
  refine hne (Generator.Supplies.key_eq_of_hintName hkeyed hplain ht ht' ?_)
  rw [← hax, hname, hname'] at hbx
  exact ((String.append_left_inj _).mp hbx).symm

omit hplain in
theorem exists_type_of_item {key : String} {cls : ScannedClass}
    (hcls : (key, cls) ∈ p.scannedClasses.items) :
    ∃ t, given.type key = some t ∧ cls = Scan.scannedAmong given.known t := by
  have hitem := (Listing.mem_items.mp hcls).2
  rw [h.scannedClasses_item hkeyed.nodup] at hitem
  exact Generator.Supplies.exists_type_of_scanned hitem

/-- Only names of fragments that fill slots can be given several times. -/
theorem count_group_le_one {group : String × List GeneratedFragment} (hgroup : group ∈ p.groups c)
    (hne : group.1 ≠ fillerEnd) (x : String) : (group.2.map (·.hintName)).count x ≤ 1 := by
  have hone (o : Option GeneratedFragment) : (o.toList.map (·.hintName)).count x ≤ 1 := by
    refine List.count_le_length.trans ?_
    cases o <;> simp
  have hhint (t : TypeSymbol) :
      (Scan.scannedAmong given.known t).hintName = hintNameOf t.qualifiedName := rfl
  have hkeys := h.types.nodup_keys
  simp only [groups, List.mem_cons, List.not_mem_nil, or_false] at hgroup
  rcases hgroup with rfl | rfl | rfl | rfl | rfl | rfl
  · exact hone _
  · exact hone _
  · exact absurd rfl hne
  · refine count_name_le_one hkeyed hplain hkeys "_GodotHelper.g.cs" (fun key f hf => ?_) x
    obtain ⟨cls, hcls, hvalue⟩ := Listing.mem_items_map.mp hf
    obtain ⟨t, ht, rfl⟩ := h.exists_type_of_item hkeyed hcls
    refine ⟨t, ht, ?_⟩
    rw [helper_hintName hvalue, hhint]
  · refine count_name_le_one hkeyed hplain hkeys "_GodotHelperNotify.g.cs" (fun key f hf => ?_) x
    obtain ⟨cls, hcls, hvalue⟩ := Listing.mem_items_map.mp hf
    obtain ⟨t, ht, rfl⟩ := h.exists_type_of_item hkeyed hcls
    refine ⟨t, ht, ?_⟩
    rw [notify_hintName hvalue, hhint]
  · refine count_name_le_one hkeyed hplain hkeys "_GodotHelper_ConnectionTscn.g.cs"
      (fun key f hf => ?_) x
    obtain ⟨pair, hpair, hvalue⟩ := Listing.mem_items_map.mp hf
    obtain ⟨record, hitem, rfl⟩ := Listing.mem_items_join.mp hpair
    obtain ⟨cls, hcls, hmethods⟩ := Listing.mem_items_map.mp hitem
    obtain ⟨t, ht, rfl⟩ := h.exists_type_of_item hkeyed hcls
    obtain ⟨hrecord, -⟩ := Option.filter_eq_some_iff.mp hmethods
    obtain ⟨-, rfl⟩ := (Scan.scannedAmong_classRecord _ t).mp hrecord
    refine ⟨t, ht, ?_⟩
    rw [connection_hintName hvalue]
    rfl

/-- The name of a class that fills a slot is given once for each manifest that registers it. -/
theorem two_le_count_filler_iff {name : String} {r : SingletonRecord}
    (hsole : given.SoleCandidate name r) :
    2 ≤ (((p.singletonFragments c).items.map Prod.snd).map (·.hintName)).count r.hintName ↔
      given.RegistersTwice c name := by
  constructor
  · intro hcount
    have hkeys : (p.singletonFragments c).keys.Nodup := nodup_sortedBy _ _
    obtain ⟨⟨⟨path, k⟩, f⟩, ha, ⟨⟨path', k'⟩, f'⟩, hb, hne, hax, hbx⟩ := exists_of_two_le_count _
      (hkeys.sublist (Listing.keys_items_sublist _)) hcount
    obtain ⟨e, r₁, he, hsole₁, rfl⟩ := (h.mem_singletonFragments_items hkeyed.nodup).mp ha
    obtain ⟨e', r₂, he', hsole₂, rfl⟩ := (h.mem_singletonFragments_items hkeyed.nodup).mp hb
    obtain ⟨rfl, hname⟩ := Generator.Supplies.candidate_unique hkeyed hplain hsole₁.1 hsole.1 hax
    obtain ⟨rfl, hname'⟩ := Generator.Supplies.candidate_unique hkeyed hplain hsole₂.1 hsole.1 hbx
    obtain ⟨rfl, -⟩ := h.mem_entriesOf.mp he
    obtain ⟨rfl, -⟩ := h.mem_entriesOf.mp he'
    rw [hname] at he
    rw [hname'] at he'
    refine ⟨path, path', fun hpath => hne ?_, h.hasEntry_iff.mpr ⟨e, he⟩,
      h.hasEntry_iff.mpr ⟨e', he'⟩⟩
    rw [hpath, hname, hname']
  · rintro ⟨path, path', hne, hin, hin'⟩
    have hitem {path : String} (hin : given.HasEntry c .singleton path name) :
        ((path, (Manifest.EntryKind.singleton, name)), slotFiller r) ∈
          (p.singletonFragments c).items := by
      obtain ⟨e, he⟩ := h.hasEntry_iff.mp hin
      obtain ⟨hk, -⟩ := h.mem_entriesOf.mp he
      obtain rfl : name = e.name := (Prod.mk.inj hk).2
      exact (h.mem_singletonFragments_items hkeyed.nodup).mpr ⟨e, r, he, hsole, rfl⟩
    rw [List.map_map]
    refine two_le_count_of_ne (fun i => i.2.hintName) (hitem hin) (hitem hin')
      (fun he => hne ?_) rfl
    exact congrArg (fun i => i.1.1) he

omit hplain in
theorem count_candidates {group : String × List GeneratedFragment} (hgroup : group ∈ p.groups c)
    {f : GeneratedFragment} (hf : f ∈ group.2) :
    ((p.candidates c).map (·.hintName)).count f.hintName =
      (group.2.map (·.hintName)).count f.hintName := by
  have hapart : ((p.groups c).map Prod.fst).Pairwise EndApart := by
    simp only [groups, List.map_cons, List.map_nil]
    decide
  rw [candidates_eq]
  exact count_flatMap (fun group hgroup f hf => h.exists_groupEnd hkeyed.nodup hgroup hf)
    (List.pairwise_map.mp hapart) hgroup hf

/-- A name is given several times exactly if it is that of a class that fills a slot which several
manifests register. -/
theorem shared_iff {f : GeneratedFragment} (hf : f ∈ p.candidates c) :
    2 ≤ ((p.candidates c).map (·.hintName)).count f.hintName ↔ ∃ name r,
      given.SoleCandidate name r ∧ given.RegistersTwice c name ∧ f = slotFiller r := by
  have hfillers : (fillerEnd, (p.singletonFragments c).items.map Prod.snd) ∈ p.groups c := by
    simp [groups]
  constructor
  · intro hcount
    rw [candidates_eq, List.mem_flatMap] at hf
    obtain ⟨group, hgroup, hf⟩ := hf
    rw [h.count_candidates hkeyed hgroup hf] at hcount
    by_cases hend : group.1 = fillerEnd
    · have hfillers : group.2 = (p.singletonFragments c).items.map Prod.snd := by
        simp only [groups, List.mem_cons, List.not_mem_nil, or_false] at hgroup
        rcases hgroup with rfl | rfl | rfl | rfl | rfl | rfl
        case inr.inr.inl => rfl
        all_goals
          dsimp only at hend
          exact absurd hend (by decide)
      rw [hfillers] at hf hcount
      obtain ⟨name, r, -, hsole, rfl⟩ := (h.mem_singletonFragments hkeyed.nodup).mp hf
      exact ⟨name, r, hsole, (h.two_le_count_filler_iff hkeyed hplain hsole).mp hcount, rfl⟩
    · exact absurd (h.count_group_le_one hkeyed hplain hgroup hend f.hintName) (by omega)
  · rintro ⟨name, r, hsole, htwice, rfl⟩
    have hmem : slotFiller r ∈ (p.singletonFragments c).items.map Prod.snd := by
      obtain ⟨path, -, -, hin, -⟩ := htwice
      exact (h.mem_singletonFragments hkeyed.nodup).mpr ⟨name, r, ⟨path, hin⟩, hsole, rfl⟩
    rw [h.count_candidates hkeyed hfillers hmem]
    exact (h.two_le_count_filler_iff hkeyed hplain hsole).mpr htwice

/-- Fragments of one name do not differ. -/
theorem candidates_unique {f g : GeneratedFragment} (hf : f ∈ p.candidates c)
    (hg : g ∈ p.candidates c) (hname : f.hintName = g.hintName) : f = g := by
  by_contra hne
  have hcount := two_le_count_of_ne (·.hintName) hf hg hne hname
  obtain ⟨_, r, hsole, -, rfl⟩ := (h.shared_iff hkeyed hplain hg).mp hcount
  obtain ⟨_, r', hsole', -, rfl⟩ := (h.shared_iff hkeyed hplain hf).mp (hname ▸ hcount)
  exact hne (congrArg slotFiller
    (Generator.Supplies.candidate_unique hkeyed hplain hsole'.1 hsole.1 hname).1)

end Project.Holds
end SceneCodegen
