import SceneCodegen.Proofs.Generation.Sharing

/-!
# Canonical results

Of the fragments that are made, those of one name are told apart by their texts, and the least is
kept. What is kept and what is reported of shared names hang on which fragments are made and how
often, and not on the order in which they are.
-/
namespace SceneCodegen
open SceneCodegen.Graph Generation

namespace Generation
section
variable {fs gs : List GeneratedFragment} {f : GeneratedFragment}

/-- The first fragment of a name is found again among those that are kept. -/
theorem find?_keepFirst (kept fs : List GeneratedFragment) (reported : List Diagnostic)
    (name : String) : (keepFirst kept reported fs).1.find? (·.hintName == name) =
      (kept ++ fs).find? (·.hintName == name) := by
  induction fs generalizing kept reported with
  | nil => rw [keepFirst, List.append_nil]
  | cons g fs ih =>
    rw [keepFirst]
    split
    · rename_i hany
      -- A fragment is left out only behind another one of its name.
      rw [ih, List.find?_append, List.find?_append, List.find?_cons]
      cases hname : g.hintName == name with
      | false => rfl
      | true =>
        obtain ⟨k, hk, hsame⟩ := List.any_eq_true.mp hany
        have hfound : (kept.find? (·.hintName == name)).isSome := by
          rw [List.find?_isSome]
          exact ⟨k, hk, by rw [eq_of_beq hsame, hname]⟩
        rw [Option.or_of_isSome hfound, Option.or_of_isSome hfound]
    · rw [ih, ← List.append_cons]

theorem text_le_of_isLE {a b : String} (h : (compare a b).isLE) : a ≤ b := by
  cases hcompare : compare a b with
  | lt => exact String.not_lt.mp (String.lt_asymm (compareOfLessAndEq_eq_lt.mp hcompare))
  | eq => exact Std.LawfulEqCmp.eq_of_compare hcompare ▸ String.le_refl a
  | gt =>
    rw [hcompare] at h
    cases h

/-- A fragment is kept if no other of its name has a lesser text. -/
theorem mem_assemble_iff_least : f ∈ (assemble fs).1 ↔
    f ∈ fs ∧ ∀ g ∈ fs, g.hintName = f.hintName → f.text ≤ g.text := by
  have hleast {f : GeneratedFragment} (hf : f ∈ (assemble fs).1) :
      ∀ g ∈ fs, g.hintName = f.hintName → f.text ≤ g.text := by
    intro g hg hname
    have hfound : (fs.mergeSort fragmentLe).find? (·.hintName == f.hintName) = some f := by
      rw [← List.nil_append (fs.mergeSort fragmentLe), ← find?_keepFirst [] _ [], ← assemble]
      cases hfind : (assemble fs).1.find? (·.hintName == f.hintName) with
      | none => simpa using List.find?_eq_none.mp hfind f hf
      | some f' =>
        have hsame : f'.hintName = f.hintName := by simpa using List.find?_some hfind
        rw [List.inj_on_of_nodup_map (nodup_assemble fs) (List.mem_of_find?_eq_some hfind) hf hsame]
    obtain ⟨-, before, after, hsorted, hbefore⟩ := List.find?_eq_some_iff_append.mp hfound
    have hmem : g ∈ before ++ f :: after := hsorted ▸ List.mem_mergeSort.mpr hg
    have hlater : g = f ∨ g ∈ after := by
      rcases List.mem_append.mp hmem with hg | hg
      · exact absurd hname (by simpa using hbefore g hg)
      · exact List.mem_cons.mp hg
    rcases hlater with rfl | hg
    · exact String.le_refl _
    · have hordered : (before ++ f :: after).Pairwise fun f g => (fragmentOrder f g).isLE :=
        hsorted ▸ pairwise_mergeSort_isLE fragmentOrder fs
      have hle : (fragmentOrder f g).isLE :=
        (List.pairwise_cons.mp (List.pairwise_append.mp hordered).2.1).1 g hg
      have hself : compare f.hintName f.hintName = .eq := Std.ReflCmp.compare_self
      rw [fragmentOrder, hname, hself, Ordering.then] at hle
      exact text_le_of_isLE hle
  refine ⟨fun hf => ⟨mem_of_mem_assemble hf, hleast hf⟩, ?_⟩
  rintro ⟨hf, hmin⟩
  obtain ⟨g, hg, hname⟩ := exists_mem_assemble hf
  have htext : g.text = f.text :=
    String.le_antisymm (hleast hg f hf hname.symm) (hmin g (mem_of_mem_assemble hg) hname)
  have hgf : g = f := by
    cases g
    cases f
    simp_all
  exact hgf ▸ hg

instance : Std.LawfulEqCmp fragmentOrder where
  eq_of_compare {f g} h := by
    rcases f with ⟨name, text⟩
    rcases g with ⟨name', text'⟩
    simp only [fragmentOrder, Ordering.then_eq_eq, Std.compare_eq_iff_eq] at h
    obtain ⟨rfl, rfl⟩ := h
    rfl

/-- What is kept and what is reported is the same in whatever order fragments are made. -/
theorem assemble_perm (h : fs.Perm gs) : assemble fs = assemble gs := by
  have hperm : (fs.mergeSort fragmentLe).Perm (gs.mergeSort fragmentLe) :=
    (List.mergeSort_perm fs _).trans (h.trans (List.mergeSort_perm gs _).symm)
  have hsame : fs.mergeSort fragmentLe = gs.mergeSort fragmentLe := by
    refine hperm.eq_of_pairwise (fun a b _ _ hab hba => ?_)
      (pairwise_mergeSort_isLE fragmentOrder fs) (pairwise_mergeSort_isLE fragmentOrder gs)
    exact Std.LawfulEqCmp.eq_of_compare (Std.OrientedCmp.isLE_antisymm hab hba)
  rw [assemble, assemble, hsame]

/-- Several of the fragments that are made have a name. -/
def IsMadeOften (fs : List GeneratedFragment) (name : String) : Prop :=
  2 ≤ (fs.map (·.hintName)).count name

instance (fs : List GeneratedFragment) (name : String) : Decidable (IsMadeOften fs name) :=
  inferInstanceAs (Decidable (2 ≤ _))

/-- What is reported of the names that several fragments have, in the order of the names. -/
def sharedNames (fs : List GeneratedFragment) : List Diagnostic :=
  ((assemble fs).1.filter fun f => IsMadeOften fs f.hintName).map duplicateHintName

theorem mem_sharedNames {d : Diagnostic} : d ∈ sharedNames fs ↔ d ∈ (assemble fs).2 := by
  rw [sharedNames, mem_assemble_reported, List.mem_map]
  constructor
  · rintro ⟨f, hf, rfl⟩
    obtain ⟨hkept, hoften⟩ := List.mem_filter.mp hf
    exact ⟨f, mem_of_mem_assemble hkept, of_decide_eq_true hoften, rfl⟩
  · rintro ⟨f, hf, hoften, rfl⟩
    obtain ⟨g, hg, hname⟩ := exists_mem_assemble hf
    refine ⟨g, List.mem_filter.mpr ⟨hg, decide_eq_true ?_⟩, duplicateHintName_congr hname⟩
    rw [hname]
    exact hoften

theorem pairwise_sharedNames (fs : List GeneratedFragment) :
    (sharedNames fs).Pairwise fun a b => Diagnostic.compare a b = .lt := by
  rw [sharedNames, List.pairwise_map]
  refine ((pairwise_assemble fs).sublist List.filter_sublist).imp fun {f g} hlt => ?_
  have hcompare : compare f.hintName g.hintName = .lt := compareOfLessAndEq_eq_lt.mpr hlt
  rw [Diagnostic.compare, duplicateHintName, duplicateHintName, hcompare]
  rfl

end
end Generation

namespace Project.Holds
variable {c : Generation.Config} {p : Project} {given : Generator.Supplies}

/-- No other diagnostic has the number of those for shared names. -/
theorem mem_duplicates (h : p.Holds c given) {d : Diagnostic} :
    d ∈ p.diagnostics c ∧ d.id = Diagnostic.duplicateHintName ↔ d ∈ (p.assembled c).2 := by
  rw [Project.mem_diagnostics h.manifests.diagnostics h.scenes.diagnostics h.types.diagnostics]
  constructor
  · rintro ⟨⟨-, ⟨e, rs⟩, -, hslot⟩ | ⟨-, cls, -, hclass⟩ | ⟨-, cls, -, hhelpers⟩ | hname, hid⟩
    · obtain ⟨-, rfl⟩ := mem_slotOf_diagnostics.mp hslot
      exact absurd (show Diagnostic.ambiguousSingleton = _ from hid) (by decide)
    · obtain ⟨r, -, -, rfl⟩ := mem_checkRegistered.mp hclass
      exact absurd (show Diagnostic.unregisteredSingleton = _ from hid) (by decide)
    · obtain ⟨-, front, m, rest, -, -, hrefused⟩ := Fragment.renderHelpers_eq_error hhelpers
      rcases hrefused.id_eq with hid' | hid' <;> exact absurd (hid'.symm.trans hid) (by decide)
    · exact hname
  · exact fun hname => ⟨.inr (.inr (.inr hname)), id_of_mem_assemble hname⟩

theorem filter_duplicates (h : p.Holds c given) :
    (p.diagnostics c).filter (·.id == Diagnostic.duplicateHintName) =
      sharedNames (p.candidates c) := by
  have hordered : (p.diagnostics c).Pairwise fun a b => Diagnostic.compare a b = .lt :=
    Diagnostic.pairwise_sorted fun d hd => Project.isRanked_of_mem h (Diagnostic.mem_sorted.mpr hd)
  refine Diagnostic.eq_of_pairwise (hordered.sublist List.filter_sublist)
    (pairwise_sharedNames _) fun d => ?_
  rw [List.mem_filter, beq_iff_eq, h.mem_duplicates, mem_sharedNames, Project.assembled]

end Project.Holds

namespace Generator

/-- A result shows what the fragments that are made come to, in one way. -/
structure Canonical (candidates : List GeneratedFragment) (result : GenerationResult) : Prop where
  increasing : result.hintNames.Pairwise (· < ·)
  count_hintNames : ∀ f ∈ candidates, result.hintNames.count f.hintName = 1
  mem_fragments : ∀ f, f ∈ result.fragments ↔
    f ∈ candidates ∧ ∀ g ∈ candidates, g.hintName = f.hintName → f.text ≤ g.text
  duplicates : result.diagnostics.filter (·.id == Diagnostic.duplicateHintName) =
    (result.fragments.filter fun f => IsMadeOften candidates f.hintName).map duplicateHintName
  reordered : ∀ candidates', candidates'.Perm candidates →
    (assemble candidates').1 = result.fragments ∧
      Diagnostic.sorted (assemble candidates').2 =
        result.diagnostics.filter (·.id == Diagnostic.duplicateHintName)

/-- The result of a run is canonical. -/
theorem run_canonical (c : Generation.Config) (snapshots : List Snapshot) (symbols : SymbolTable)
    (h : (Table.keys symbols).Nodup) :
    ∃ result candidates, ((fed c snapshots symbols).run none).1 = .ok result ∧
      (((fed c snapshots symbols).run none).2.ask Project.candidatesProgram).1 = .ok candidates ∧
      Canonical candidates result := by
  obtain ⟨p, value, hp, hrun, hshows⟩ := run_fed c snapshots h
  obtain ⟨inputs, hvalue⟩ := hshows.exists_inputs
  refine ⟨p.result c, p.candidates c, hrun, ?_, ?_⟩
  · exact hshows.ask (Project.candidatesProgram_comesTo hvalue hshows.feeds rfl)
      candidatesProgram_safe
  · refine ⟨?_, fun f hf => ?_, fun f => mem_assemble_iff_least, hp.filter_duplicates,
      fun candidates' hperm => ?_⟩
    · exact List.pairwise_map.mpr (pairwise_assemble (p.candidates c))
    · obtain ⟨g, hg, hname⟩ := exists_mem_assemble hf
      rw [← hname]
      exact List.count_eq_one_of_mem (nodup_assemble _) (List.mem_map_of_mem hg)
    · refine ⟨congrArg Prod.fst (assemble_perm hperm), ?_⟩
      show _ = (p.diagnostics c).filter _
      rw [assemble_perm hperm, hp.filter_duplicates]
      have hranked : ∀ d ∈ (assemble (p.candidates c)).2, d.IsRanked := by
        intro d hd
        obtain ⟨f, -, -, rfl⟩ := mem_assemble_reported.mp hd
        exact (by decide : Severity.error.rank < 3)
      refine Diagnostic.eq_of_pairwise (Diagnostic.pairwise_sorted hranked)
        (pairwise_sharedNames _) fun d => ?_
      rw [Diagnostic.mem_sorted, mem_sharedNames]

theorem run_canonical_duet : (Table.keys Duet.symbols).Nodup ∧ ∃ result candidates,
    ((fed Jukebox.config Duet.snapshots Duet.symbols).run none).1 = .ok result ∧
      (((fed Jukebox.config Duet.snapshots Duet.symbols).run none).2.ask
        Project.candidatesProgram).1 = .ok candidates ∧ Canonical candidates result :=
  ⟨Duet.keyed.nodup,
    run_canonical Jukebox.config Duet.snapshots Duet.symbols Duet.keyed.nodup⟩

end Generator
end SceneCodegen
