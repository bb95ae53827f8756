import SceneCodegen.Proofs.Diagnostic
import SceneCodegen.Proofs.Generation.Feeding

/-!
# Assembling fragments and diagnostics

Of all fragments that are made, one of each name is kept. The kinds of fragments are told apart by
the ends of their names. Diagnostics come from few places: slots, unregistered classes, helpers that
cannot be rendered, and names given twice.
-/
namespace SceneCodegen
open SceneCodegen.Graph Generation

namespace Graph.Listing
variable {ι ι₂ κ α β : Type} {L : Listing ι α} {d : Diagnostic}

theorem mem_diagnostics_map {f : α → Outcome β} : d ∈ (L.map f).diagnostics ↔
    d ∈ L.diagnostics ∨ ∃ i a, (i, a) ∈ L.items ∧ d ∈ (f a).diagnostics := by
  have houtcome (i : ι) :
      d ∈ (L.outcome f i).diagnostics ↔ ∃ a, L.item i = some a ∧ d ∈ (f a).diagnostics := by
    rw [outcome]
    cases L.item i <;> simp
  simp only [map, Diagnostic.mem_sorted, List.mem_append, List.mem_flatMap, houtcome, mem_items,
    and_assoc, exists_and_left]

/-- A stream of values reports what its source does. -/
theorem mem_diagnostics_map_value {f : α → Option β} :
    d ∈ (L.map fun a => { value := f a }).diagnostics ↔ d ∈ L.diagnostics := by
  simp [mem_diagnostics_map]

theorem mem_diagnostics_join [BEq κ] [BEq β] {f : α → List κ} {g : β → κ} {R : Listing ι₂ β} :
    d ∈ (L.join f g R).diagnostics ↔ d ∈ L.diagnostics ∨ d ∈ R.diagnostics := by
  simp only [join, Diagnostic.mem_sorted, List.mem_append]

end Graph.Listing

namespace Generation

section
variable {kept fs : List GeneratedFragment} {reported : List Diagnostic} {f : GeneratedFragment}

theorem mem_of_mem_keepFirst (h : f ∈ (keepFirst kept reported fs).1) : f ∈ kept ∨ f ∈ fs := by
  induction fs generalizing kept reported with
  | nil => exact .inl h
  | cons g fs ih =>
    rw [keepFirst] at h
    split at h
    · exact (ih h).imp_right (List.mem_cons_of_mem g)
    · rcases ih h with hf | hf
      · rcases List.mem_append.mp hf with hf | hf
        · exact .inl hf
        · exact .inr (by simp_all)
      · exact .inr (List.mem_cons_of_mem g hf)

theorem exists_mem_keepFirst (h : f ∈ kept ∨ f ∈ fs) :
    ∃ g ∈ (keepFirst kept reported fs).1, g.hintName = f.hintName := by
  have hkept {f : GeneratedFragment} (fs : List GeneratedFragment) {kept : List GeneratedFragment}
      {reported : List Diagnostic} (h : f ∈ kept) : f ∈ (keepFirst kept reported fs).1 := by
    induction fs generalizing kept reported with
    | nil => exact h
    | cons g fs ih =>
      rw [keepFirst]
      split
      · exact ih h
      · exact ih (List.mem_append_left _ h)
  induction fs generalizing kept reported with
  | nil =>
    rcases h with h | h
    · exact ⟨f, h, rfl⟩
    · cases h
  | cons g fs ih =>
    rcases h with h | h
    · exact ⟨f, hkept _ h, rfl⟩
    · rw [keepFirst]
      rcases List.mem_cons.mp h with rfl | h
      · split
        · rename_i hsome
          obtain ⟨g, hg, he⟩ := List.any_eq_true.mp hsome
          exact ⟨g, hkept _ hg, eq_of_beq he⟩
        · exact ⟨f, hkept _ (by simp), rfl⟩
      · split
        · exact ih (.inr h)
        · exact ih (.inr h)

theorem nodup_keepFirst (h : (kept.map (·.hintName)).Nodup) :
    ((keepFirst kept reported fs).1.map (·.hintName)).Nodup := by
  induction fs generalizing kept reported with
  | nil => exact h
  | cons g fs ih =>
    rw [keepFirst]
    split
    · exact ih h
    · rename_i hnew
      refine ih ?_
      rw [List.map_append, List.nodup_append]
      refine ⟨h, List.nodup_singleton _, fun a ha b hb he => hnew ?_⟩
      obtain ⟨f, hf, rfl⟩ := List.mem_map.mp ha
      obtain rfl : b = g.hintName := by simpa using hb
      exact List.any_eq_true.mpr ⟨f, hf, beq_iff_eq.mpr he⟩

/-- What is reported of a fragment is that of its name. -/
theorem duplicateHintName_congr {g : GeneratedFragment} (h : f.hintName = g.hintName) :
    duplicateHintName f = duplicateHintName g := by
  rw [duplicateHintName, duplicateHintName, h]

/-- The names under which a fragment was kept already, or that are given several times. -/
def IsShared (kept fs : List GeneratedFragment) (name : String) : Prop :=
  (∃ g ∈ kept, g.hintName = name) ∨ 2 ≤ (fs.map (·.hintName)).count name

theorem IsShared.cons {name : String} (h : IsShared kept fs name) (g : GeneratedFragment) :
    IsShared kept (g :: fs) name :=
  h.imp_right fun hcount => Nat.le_trans hcount (by simp [List.count_cons])

theorem IsShared.of_ne {name : String} {g : GeneratedFragment} (h : IsShared kept (g :: fs) name)
    (hne : g.hintName ≠ name) : IsShared kept fs name :=
  h.imp_right fun hcount => by simpa [List.count_cons, hne] using hcount

/-- Of two fragments of one name the later one is shared. -/
theorem isShared_snoc_iff {g : GeneratedFragment} (hf : f ∈ fs) :
    IsShared (kept ++ [g]) fs f.hintName ↔ IsShared kept (g :: fs) f.hintName := by
  by_cases hname : g.hintName = f.hintName
  · have hpos : 0 < (fs.map (·.hintName)).count f.hintName :=
      List.count_pos_iff.mpr (List.mem_map_of_mem hf)
    have hcount : 2 ≤ ((g :: fs).map (·.hintName)).count f.hintName := by
      simpa [List.count_cons, hname] using hpos
    exact ⟨fun _ => .inr hcount, fun _ => .inl ⟨g, by simp, hname⟩⟩
  · simp [IsShared, hname, or_and_right, exists_or]

theorem mem_keepFirst_reported {d : Diagnostic} : d ∈ (keepFirst kept reported fs).2 ↔
    d ∈ reported ∨ ∃ f ∈ fs, IsShared kept fs f.hintName ∧ d = duplicateHintName f := by
  induction fs generalizing kept reported with
  | nil => simp [keepFirst]
  | cons g fs ih =>
    rw [keepFirst]
    split
    · rename_i hany
      obtain ⟨k, hk, hname⟩ := List.any_eq_true.mp hany
      have hg : IsShared kept (g :: fs) g.hintName := .inl ⟨k, hk, eq_of_beq hname⟩
      rw [ih, List.mem_append, List.mem_singleton, or_assoc]
      refine or_congr_right ⟨?_, ?_⟩
      · rintro (rfl | ⟨f, hf, hshared, rfl⟩)
        · exact ⟨g, List.mem_cons_self, hg, rfl⟩
        · exact ⟨f, List.mem_cons_of_mem g hf, hshared.cons g, rfl⟩
      · rintro ⟨f, hf, hshared, rfl⟩
        by_cases hfg : g.hintName = f.hintName
        · exact .inl (duplicateHintName_congr hfg.symm)
        · have hf : f ∈ fs := (List.mem_cons.mp hf).resolve_left fun he => hfg (he ▸ rfl)
          exact .inr ⟨f, hf, hshared.of_ne hfg, rfl⟩
    · rename_i hnew
      rw [ih]
      refine or_congr_right ⟨?_, ?_⟩
      · rintro ⟨f, hf, hshared, rfl⟩
        exact ⟨f, List.mem_cons_of_mem g hf, (isShared_snoc_iff hf).mp hshared, rfl⟩
      · rintro ⟨f, hf, hshared, rfl⟩
        rcases List.mem_cons.mp hf with rfl | hf
        · -- The first of its name is reported as the second one is.
          rcases hshared with ⟨k, hk, hname⟩ | hcount
          · exact (hnew (List.any_eq_true.mpr ⟨k, hk, beq_iff_eq.mpr hname⟩)).elim
          · have hpos : 0 < (fs.map (·.hintName)).count f.hintName := by
              simpa [List.count_cons] using hcount
            obtain ⟨f', hf', hname⟩ := List.mem_map.mp (List.count_pos_iff.mp hpos)
            exact ⟨f', hf', .inl ⟨f, by simp, hname.symm⟩, duplicateHintName_congr hname.symm⟩
        · exact ⟨f, hf, (isShared_snoc_iff hf).mpr hshared, rfl⟩

theorem mem_of_mem_assemble (h : f ∈ (assemble fs).1) : f ∈ fs := by
  obtain h | h := mem_of_mem_keepFirst h
  · cases h
  · exact List.mem_mergeSort.mp h

/-- Every name given to a fragment is kept. -/
theorem exists_mem_assemble (h : f ∈ fs) : ∃ g ∈ (assemble fs).1, g.hintName = f.hintName :=
  exists_mem_keepFirst (.inr (List.mem_mergeSort.mpr h))

theorem nodup_assemble (fs : List GeneratedFragment) :
    ((assemble fs).1.map (·.hintName)).Nodup := nodup_keepFirst List.nodup_nil

/-- Each name that is given several times is reported. -/
theorem mem_assemble_reported {d : Diagnostic} : d ∈ (assemble fs).2 ↔
    ∃ f ∈ fs, 2 ≤ (fs.map (·.hintName)).count f.hintName ∧ d = duplicateHintName f := by
  have hperm : (fs.mergeSort fragmentLe).Perm fs := List.mergeSort_perm fs fragmentLe
  simp only [assemble, mem_keepFirst_reported, IsShared, hperm.mem_iff,
    (hperm.map (·.hintName)).count_eq, List.not_mem_nil, false_and, exists_false, false_or]

/-- A fragment that is made is kept, or another of its name is and the name is reported. -/
theorem mem_assemble_or_reported (h : f ∈ fs) : f ∈ (assemble fs).1 ∨
    (∃ g ∈ (assemble fs).1, g.hintName = f.hintName) ∧ duplicateHintName f ∈ (assemble fs).2 := by
  by_cases hkept : f ∈ (assemble fs).1
  · exact .inl hkept
  obtain ⟨g, hg, hname⟩ := exists_mem_assemble h
  have hne : g ≠ f := fun he => hkept (he ▸ hg)
  refine .inr ⟨⟨g, hg, hname⟩, mem_assemble_reported.mpr ⟨f, h, ?_, rfl⟩⟩
  have hgs := mem_of_mem_assemble hg
  obtain ⟨front, back, rfl⟩ := List.append_of_mem h
  have hother : g ∈ front ++ back := by
    simp only [List.mem_append, List.mem_cons, hne, false_or] at hgs
    exact List.mem_append.mpr hgs
  have hcount : 0 < ((front ++ back).map (·.hintName)).count f.hintName :=
    List.count_pos_iff.mpr (hname ▸ List.mem_map_of_mem hother)
  simp only [List.map_append, List.map_cons, List.count_append, List.count_cons_self] at hcount ⊢
  omega

theorem id_of_mem_assemble {d : Diagnostic} (h : d ∈ (assemble fs).2) :
    d.id = Diagnostic.duplicateHintName := by
  obtain ⟨f, -, -, rfl⟩ := mem_assemble_reported.mp h
  rfl

/-- If no two fragments of a name differ, those of that name are kept or not as they are made. -/
theorem mem_assemble_iff (hf : ∀ g ∈ fs, g.hintName = f.hintName → g = f) :
    f ∈ (assemble fs).1 ↔ f ∈ fs := by
  refine ⟨mem_of_mem_assemble, fun h => ?_⟩
  obtain ⟨g, hg, he⟩ := exists_mem_assemble h
  exact hf g (mem_of_mem_assemble hg) he ▸ hg

end

section
variable {fs gs : List GeneratedFragment}

theorem keepFirst_sublist (kept fs : List GeneratedFragment) (reported : List Diagnostic) :
    (keepFirst kept reported fs).1.Sublist (kept ++ fs) := by
  induction fs generalizing kept reported with
  | nil => simp [keepFirst]
  | cons g fs ih =>
    rw [keepFirst]
    split
    · exact (ih kept _).trans ((List.sublist_cons_self g fs).append_left kept)
    · rw [List.append_cons kept g fs]
      exact ih (kept ++ [g]) _

def fragmentOrder (f g : GeneratedFragment) : Ordering :=
  (compare f.hintName g.hintName).then (compare f.text g.text)

instance : Std.TransCmp fragmentOrder :=
  inferInstanceAs <| Std.TransCmp <|
    compareLex (compareOn fun f : GeneratedFragment => f.hintName) (compareOn fun f => f.text)

/-- Fragments are kept in the order of their names. -/
theorem pairwise_assemble (fs : List GeneratedFragment) :
    (assemble fs).1.Pairwise fun f g => f.hintName < g.hintName := by
  have hkept : (assemble fs).1.Pairwise fun f g => (fragmentOrder f g).isLE :=
    (pairwise_mergeSort_isLE fragmentOrder fs).sublist (keepFirst_sublist [] _ [])
  refine (hkept.and (List.pairwise_map.mp (nodup_assemble fs))).imp fun {f g} h => ?_
  obtain ⟨hle, hne⟩ := h
  have hcompare : compare f.hintName g.hintName = .lt := by
    have heq : compare f.hintName g.hintName ≠ .eq := fun he =>
      hne (Std.LawfulEqCmp.eq_of_compare he)
    revert hle heq
    unfold fragmentOrder
    cases compare f.hintName g.hintName <;> simp
  exact compareOfLessAndEq_eq_lt.mp hcompare

/-- Which fragments are made is all that counts if no two of one name differ. -/
theorem assemble_congr (h : ∀ f, f ∈ fs ↔ f ∈ gs)
    (hunique : ∀ f ∈ fs, ∀ g ∈ fs, f.hintName = g.hintName → f = g) :
    (assemble fs).1 = (assemble gs).1 := by
  have hmem (f : GeneratedFragment) : f ∈ (assemble fs).1 ↔ f ∈ (assemble gs).1 := by
    constructor
    · intro hf
      have hfs := mem_of_mem_assemble hf
      refine (mem_assemble_iff fun g hg hname => ?_).mpr ((h f).mp hfs)
      exact hunique g ((h g).mpr hg) f hfs hname
    · intro hf
      have hfs := (h f).mpr (mem_of_mem_assemble hf)
      exact (mem_assemble_iff fun g hg hname => hunique g hg f hfs hname).mpr hfs
  have hnodup (l : List GeneratedFragment) : (assemble l).1.Nodup := (nodup_assemble l).of_map _
  refine ((List.perm_ext_iff_of_nodup (hnodup fs) (hnodup gs)).mpr hmem).eq_of_pairwise ?_
    (pairwise_assemble fs) (pairwise_assemble gs)
  exact fun f g _ _ hfg hgf => absurd hgf (String.lt_asymm hfg)

end

theorem append_ne_append {a b s t : String} (hst : ¬ s.toList <:+ t.toList)
    (hts : ¬ t.toList <:+ s.toList) : a ++ s ≠ b ++ t := by
  intro h
  have h : a.toList ++ s.toList = b.toList ++ t.toList := by
    rw [← String.toList_append, ← String.toList_append, h]
  have hs : s.toList <:+ a.toList ++ s.toList := List.suffix_append _ _
  have ht : t.toList <:+ a.toList ++ s.toList := h ▸ List.suffix_append _ _
  exact (List.suffix_or_suffix_of_suffix hs ht).elim hst hts

theorem hasSuffix_append {a b ending : String} (h : Text.hasSuffix ending b = true) :
    Text.hasSuffix ending (a ++ b) = true := by
  simp only [Text.hasSuffix, List.isSuffixOf_iff_suffix, String.toList_append] at h ⊢
  exact h.trans (List.suffix_append _ _)

theorem hasSuffix_append_eq_false {a b ending : String} (h : ¬ ending.toList <:+ b.toList)
    (h' : ¬ b.toList <:+ ending.toList) : Text.hasSuffix ending (a ++ b) = false := by
  rw [Text.hasSuffix, Bool.eq_false_iff, Ne, List.isSuffixOf_iff_suffix, String.toList_append]
  intro hends
  exact (List.suffix_or_suffix_of_suffix hends (List.suffix_append _ _)).elim h h'

end Generation

namespace Project
variable {c : Generation.Config} {p : Project} {d : Diagnostic}

section
variable (hmanifests : p.manifests.diagnostics = []) (hscenes : p.scenes.diagnostics = [])
  (htypes : p.types.diagnostics = [])

include hmanifests in
theorem not_mem_singletonEntries_diagnostics : d ∉ p.singletonEntries.diagnostics := by
  rw [singletonEntries, Listing.mem_diagnostics_map_value]
  show d ∉ p.manifestEntries.diagnostics
  rw [manifestEntries, Listing.mem_diagnostics_map_value, hmanifests]
  exact List.not_mem_nil

include htypes in
theorem not_mem_scannedClasses_diagnostics : d ∉ p.scannedClasses.diagnostics := by
  rw [scannedClasses, Listing.mem_diagnostics_map_value, htypes]
  exact List.not_mem_nil

include hscenes in
theorem not_mem_connections_diagnostics : d ∉ (p.connections c).diagnostics := by
  show d ∉ (p.sceneAssets c).diagnostics
  rw [sceneAssets, Listing.mem_diagnostics_map_value, hscenes]
  exact List.not_mem_nil

include hmanifests htypes in
theorem mem_singletonSlots_diagnostics : d ∈ (p.singletonSlots c).diagnostics ↔
    ∃ key pair, (key, pair) ∈ p.singletonPairs.items ∧ d ∈ (slotOf c pair).diagnostics := by
  have hpairs : d ∉ p.singletonPairs.diagnostics := by
    rw [singletonPairs, Listing.mem_diagnostics_join, singletonClasses,
      Listing.mem_diagnostics_map_value]
    exact not_or.mpr ⟨not_mem_singletonEntries_diagnostics hmanifests,
      not_mem_scannedClasses_diagnostics htypes⟩
  rw [singletonSlots, Listing.mem_diagnostics_map]
  simp only [hpairs, false_or]

include hmanifests hscenes htypes in
/-- All that can be reported of a project. -/
theorem mem_diagnostics : d ∈ p.diagnostics c ↔
    (∃ key pair, (key, pair) ∈ p.singletonPairs.items ∧ d ∈ (slotOf c pair).diagnostics) ∨
    (∃ name cls, (name, cls) ∈ p.scannedClasses.items ∧
      d ∈ (checkRegistered c cls p.singletonEntries.items).diagnostics) ∨
    (∃ name cls, (name, cls) ∈ p.scannedClasses.items ∧ Fragment.renderHelpers cls = .error d) ∨
    d ∈ (p.assembled c).2 := by
  have hentries : d ∉ p.manifestEntries.diagnostics := by
    rw [manifestEntries, Listing.mem_diagnostics_map_value, hmanifests]
    exact List.not_mem_nil
  have hassets : d ∉ (p.sceneAssets c).diagnostics := not_mem_connections_diagnostics hscenes
  have hclasses := not_mem_scannedClasses_diagnostics htypes (d := d)
  have hconnections : d ∉ (p.connectionFragments c).diagnostics := by
    rw [connectionFragments, Listing.mem_diagnostics_map_value, classConnections,
      Listing.mem_diagnostics_join, classRecords, Listing.mem_diagnostics_map_value]
    exact not_or.mpr ⟨hclasses, hassets⟩
  have hnotify : d ∉ p.notifyFragments.diagnostics := by
    rwa [notifyFragments, Listing.mem_diagnostics_map_value]
  have hhelpers : d ∈ p.helperFragments.diagnostics ↔ ∃ name cls,
      (name, cls) ∈ p.scannedClasses.items ∧ Fragment.renderHelpers cls = .error d := by
    have houtcome (cls : ScannedClass) :
        d ∈ (helperOutcome cls).diagnostics ↔ Fragment.renderHelpers cls = .error d := by
      unfold helperOutcome
      cases Fragment.renderHelpers cls <;> simp [eq_comm]
    rw [helperFragments, Listing.mem_diagnostics_map]
    simp only [hclasses, false_or, houtcome]
  have hunregistered : d ∈ (p.unregisteredSingletons c).diagnostics ↔ ∃ name cls,
      (name, cls) ∈ p.scannedClasses.items ∧
        d ∈ (checkRegistered c cls p.singletonEntries.items).diagnostics := by
    rw [unregisteredSingletons, Listing.mem_diagnostics_map]
    simp only [hclasses, false_or]
  have hfragments : d ∈ (p.singletonFragments c).diagnostics ↔
      d ∈ (p.singletonSlots c).diagnostics := by
    rw [singletonFragments, Listing.mem_diagnostics_map_value]
  rw [diagnostics, Diagnostic.mem_sorted]
  simp only [List.mem_append, hentries, hassets, hclasses, hconnections, hnotify, hhelpers,
    hunregistered, hfragments, mem_singletonSlots_diagnostics hmanifests htypes, false_or,
    or_false, or_assoc]
  constructor
  · rintro (hslots | hclass | hslots | hhelper | hname)
    · exact .inl hslots
    · exact .inr (.inl hclass)
    · exact .inl hslots
    · exact .inr (.inr (.inl hhelper))
    · exact .inr (.inr (.inr hname))
  · rintro (hslots | hclass | hhelper | hname)
    · exact .inl hslots
    · exact .inr (.inl hclass)
    · exact .inr (.inr (.inr (.inl hhelper)))
    · exact .inr (.inr (.inr (.inr hname)))

end
end Project
end SceneCodegen
