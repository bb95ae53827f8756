import SceneCodegen.Proofs.Fragment.Lists
import SceneCodegen.Proofs.Generation.Slots

/-!
# Fragments of slots

The registry of slots and the fragments by which classes fill these are told apart from all other
fragments by the ends of their names, and the fragments of two classes by the names of the classes.
-/
namespace SceneCodegen
open SceneCodegen.Graph Generation

/-- The fragment by which a class fills the slot of its name. -/
def slotFiller (r : SingletonRecord) : GeneratedFragment :=
  Fragment.ofLines r.hintName (Fragment.singletonLines r.name r)

namespace Fragment

theorem renderSingleton_eq_some {slot : SingletonSlot} {f : GeneratedFragment} :
    renderSingleton slot = some f ↔
      ∃ r, slot.record = some r ∧ f = ofLines r.hintName (singletonLines slot.name r) := by
  simp only [renderSingleton, Option.map_eq_some_iff, eq_comm (a := f)]

end Fragment

namespace Generation

/-- The end of the name of a fragment that fills a slot. -/
def fillerEnd : String := "_GodotHelper_AutoLoad.g.cs"

/-- The ends of the names of fragments that have nothing to do with slots. -/
def otherEnds : List String :=
  [Fragment.inputActionHintName, "_GodotHelper.g.cs", "_GodotHelperNotify.g.cs",
    "_GodotHelper_ConnectionTscn.g.cs"]

theorem otherEnds_ne {ending : String} (h : ending ∈ otherEnds) (a b : String) :
    a ++ ending ≠ b ++ fillerEnd ∧ a ++ ending ≠ b ++ Fragment.registryHintName := by
  have hall : ∀ ending ∈ otherEnds,
      (¬ ending.toList <:+ fillerEnd.toList ∧ ¬ fillerEnd.toList <:+ ending.toList) ∧
      ¬ ending.toList <:+ Fragment.registryHintName.toList ∧
        ¬ Fragment.registryHintName.toList <:+ ending.toList := by decide
  obtain ⟨hfiller, hregistry⟩ := hall ending h
  exact ⟨append_ne_append hfiller.1 hfiller.2, append_ne_append hregistry.1 hregistry.2⟩

theorem fillerEnd_ne (a b : String) : a ++ fillerEnd ≠ b ++ Fragment.registryHintName :=
  append_ne_append (by decide) (by decide)

theorem helper_hintName {cls : ScannedClass} {f : GeneratedFragment}
    (h : (Project.helperOutcome cls).value = some f) :
    f.hintName = cls.hintName ++ "_GodotHelper.g.cs" := by
  rw [Project.helperOutcome, Fragment.renderHelpers_eq] at h
  cases hderives : cls.derivesFromRoot with
  | false => simp [hderives] at h
  | true =>
    cases hall : ({} : Fragment.HelperState).addAll cls.members with
    | error d => simp [hderives, hall, bind, Except.bind] at h
    | ok s =>
      cases hempty : s.isEmpty with
      | true => simp [hderives, hall, hempty, bind, Except.bind, pure, Except.pure] at h
      | false =>
        simp [hderives, hall, hempty, bind, Except.bind, pure, Except.pure] at h
        rw [← h]
        rfl

theorem notify_hintName {cls : ScannedClass} {f : GeneratedFragment}
    (h : Fragment.renderNotify cls = some f) :
    f.hintName = cls.hintName ++ "_GodotHelperNotify.g.cs" := by
  simp only [Fragment.renderNotify, Option.ite_none_left_eq_some, Option.some.injEq] at h
  rw [← h.2.2]
  rfl

theorem connection_hintName {pair : JoinPair ClassRecord Scene.Connection} {f : GeneratedFragment}
    (h : connectionFragment pair = some f) :
    f.hintName = pair.left.hintName ++ "_GodotHelper_ConnectionTscn.g.cs" := by
  simp only [connectionFragment, Fragment.renderConnectionList, Option.ite_none_left_eq_some,
    Option.some.injEq] at h
  rw [← h.2.2]
  rfl

end Generation

namespace Generator.Supplies
variable {given : Supplies}

theorem exists_fillerEnd {name : String} {r : SingletonRecord} (h : given.Candidate name r) :
    ∃ base, r.hintName = base ++ fillerEnd := by
  obtain ⟨key, cls, hcls, hr, -⟩ := h
  obtain ⟨t, -, rfl⟩ := exists_type_of_scanned hcls
  obtain ⟨-, rfl⟩ := (Scan.scannedAmong_singleton _ t).mp hr
  exact ⟨_, rfl⟩

/-- Plainly named types have no file name in common. -/
theorem key_eq_of_hintName (hkeyed : given.symbols.Keyed)
    (hplain : ∀ name t, (name, t) ∈ given.symbols → t.PlainlyNamed) {key key' : String}
    {t t' : TypeSymbol} (ht : given.type key = some t) (ht' : given.type key' = some t')
    (h : hintNameOf t.qualifiedName = hintNameOf t'.qualifiedName) : key = key' := by
  have hmem := Table.mem_of_get? ht
  have hmem' := Table.mem_of_get? ht'
  rw [← hkeyed.lookupName key t hmem, ← hkeyed.lookupName key' t' hmem']
  exact lookupName_eq_of_hintName (hplain key t hmem) (hplain key' t' hmem') h

/-- The file name of a marked class tells the class. -/
theorem candidate_unique (hkeyed : given.symbols.Keyed)
    (hplain : ∀ name t, (name, t) ∈ given.symbols → t.PlainlyNamed) {name name' : String}
    {r r' : SingletonRecord} (h : given.Candidate name r) (h' : given.Candidate name' r')
    (heq : r.hintName = r'.hintName) : r = r' ∧ name = name' := by
  obtain ⟨key, cls, hcls, hr, rfl⟩ := h
  obtain ⟨key', cls', hcls', hr', rfl⟩ := h'
  obtain ⟨t, ht, rfl⟩ := exists_type_of_scanned hcls
  obtain ⟨t', ht', rfl⟩ := exists_type_of_scanned hcls'
  obtain ⟨-, rfl⟩ := (Scan.scannedAmong_singleton _ t).mp hr
  obtain ⟨-, rfl⟩ := (Scan.scannedAmong_singleton _ t').mp hr'
  obtain rfl := key_eq_of_hintName hkeyed hplain ht ht' ((String.append_left_inj _).mp heq)
  obtain rfl : t = t' := Option.some.inj (ht.symm.trans ht')
  exact ⟨rfl, rfl⟩

end Generator.Supplies

/-- The fragments that are made, in groups whose names end in the same way. -/
def Project.groups (c : Generation.Config) (p : Project) : List (String × List GeneratedFragment) :=
  [(Fragment.registryHintName, (Fragment.renderRegistry (p.registry c)).toList),
    (Fragment.inputActionHintName, p.inputActionFragment.toList),
    (fillerEnd, (p.singletonFragments c).items.map Prod.snd),
    ("_GodotHelper.g.cs", p.helperFragments.items.map Prod.snd),
    ("_GodotHelperNotify.g.cs", p.notifyFragments.items.map Prod.snd),
    ("_GodotHelper_ConnectionTscn.g.cs", (p.connectionFragments c).items.map Prod.snd)]

theorem Project.candidates_eq (c : Generation.Config) (p : Project) :
    p.candidates c = (p.groups c).flatMap Prod.snd := by
  simp only [candidates, groups, List.flatMap_cons, List.flatMap_nil, List.append_nil,
    List.append_assoc]

namespace Project.Holds
variable {c : Generation.Config} {p : Project} {given : Generator.Supplies} (h : p.Holds c given)
  (hnodup : (Table.keys given.symbols).Nodup)
include h hnodup

/-- The class of a typed slot has a fragment that fills it. -/
theorem mem_singletonFragments_items {key : EntryKey} {f : GeneratedFragment} :
    (key, f) ∈ (p.singletonFragments c).items ↔ ∃ e r, (key, e) ∈ p.singletonEntries.items ∧
      given.SoleCandidate e.name r ∧ f = slotFiller r := by
  have hfiller {name : String} {r : SingletonRecord} (hsole : given.SoleCandidate name r) :
      Fragment.ofLines r.hintName (Fragment.singletonLines name r) = slotFiller r := by
    obtain ⟨key, cls, hcls, hr, rfl⟩ := hsole.1
    rw [slotFiller, singleton_name hcls hr]
  rw [singletonFragments, Listing.mem_items_map]
  constructor
  · rintro ⟨slot, hslot, hf⟩
    obtain ⟨e, he, rfl⟩ := mem_singletonSlots.mp hslot
    obtain ⟨r, hr, rfl⟩ := Fragment.renderSingleton_eq_some.mp hf
    have hsole := (h.slot_record hnodup).mp hr
    exact ⟨e, r, he, hsole, hfiller hsole⟩
  · rintro ⟨e, r, he, hsole, rfl⟩
    refine ⟨p.slot e.name, mem_singletonSlots.mpr ⟨e, he, rfl⟩, ?_⟩
    refine Fragment.renderSingleton_eq_some.mpr ⟨r, (h.slot_record hnodup).mpr hsole, ?_⟩
    exact (hfiller hsole).symm

theorem mem_singletonFragments {f : GeneratedFragment} :
    f ∈ (p.singletonFragments c).items.map Prod.snd ↔
      ∃ name r, given.Registers c name ∧ given.SoleCandidate name r ∧ f = slotFiller r := by
  rw [List.mem_map]
  constructor
  · rintro ⟨⟨key, f⟩, hmem, rfl⟩
    obtain ⟨e, r, he, hsole, rfl⟩ := (h.mem_singletonFragments_items hnodup).mp hmem
    exact ⟨e.name, r, h.registers_iff.mpr ⟨key, e, he, rfl⟩, hsole, rfl⟩
  · rintro ⟨name, r, hregisters, hsole, rfl⟩
    obtain ⟨key, e, he, rfl⟩ := h.registers_iff.mp hregisters
    exact ⟨_, (h.mem_singletonFragments_items hnodup).mpr ⟨e, r, he, hsole, rfl⟩, rfl⟩

/-- The sole class of a registered name fills its slot. -/
theorem slotFiller_mem {name : String} {r : SingletonRecord} (hregisters : given.Registers c name)
    (hsole : given.SoleCandidate name r) : slotFiller r ∈ p.candidates c := by
  have hmem : slotFiller r ∈ (p.singletonFragments c).items.map Prod.snd :=
    (h.mem_singletonFragments hnodup).mpr ⟨name, r, hregisters, hsole, rfl⟩
  simp only [candidates, List.mem_append, hmem, true_or, or_true]

/-- The names of each group of fragments end in its own way. -/
theorem exists_groupEnd {group : String × List GeneratedFragment} (hgroup : group ∈ p.groups c)
    {f : GeneratedFragment} (hf : f ∈ group.2) : ∃ base, f.hintName = base ++ group.1 := by
  simp only [groups, List.mem_cons, List.not_mem_nil, or_false] at hgroup
  rcases hgroup with rfl | rfl | rfl | rfl | rfl | rfl
  · refine ⟨"", ?_⟩
    rw [(Fragment.renderRegistry_eq_some.mp (Option.mem_toList.mp hf)).2, String.empty_append]
    rfl
  · refine ⟨"", ?_⟩
    simp only [inputActionFragment, Fragment.renderInputActions, Option.mem_toList,
      Option.ite_none_left_eq_some, Option.some.injEq] at hf
    rw [← hf.2, String.empty_append]
    rfl
  · obtain ⟨name, r, -, hsole, rfl⟩ := (h.mem_singletonFragments hnodup).mp hf
    exact Generator.Supplies.exists_fillerEnd hsole.1
  · obtain ⟨⟨key, f⟩, hmem, rfl⟩ := List.mem_map.mp hf
    obtain ⟨cls, -, hvalue⟩ := Listing.mem_items_map.mp hmem
    exact ⟨_, helper_hintName hvalue⟩
  · obtain ⟨⟨key, f⟩, hmem, rfl⟩ := List.mem_map.mp hf
    obtain ⟨cls, -, hvalue⟩ := Listing.mem_items_map.mp hmem
    exact ⟨_, notify_hintName hvalue⟩
  · obtain ⟨⟨key, f⟩, hmem, rfl⟩ := List.mem_map.mp hf
    obtain ⟨pair, -, hvalue⟩ := Listing.mem_items_map.mp hmem
    exact ⟨_, connection_hintName hvalue⟩

/-- The fragments that have to do with slots are told apart from all others by their names. -/
theorem candidate_cases {f : GeneratedFragment} (hf : f ∈ p.candidates c) :
    Fragment.renderRegistry (p.registry c) = some f ∨
    (∃ name r, given.Registers c name ∧ given.SoleCandidate name r ∧ f = slotFiller r) ∨
    ∃ ending ∈ otherEnds, ∃ base, f.hintName = base ++ ending := by
  rw [candidates_eq, List.mem_flatMap] at hf
  obtain ⟨group, hgroup, hf⟩ := hf
  obtain ⟨base, hbase⟩ := h.exists_groupEnd hnodup hgroup hf
  simp only [groups, List.mem_cons, List.not_mem_nil, or_false] at hgroup
  rcases hgroup with rfl | rfl | rfl | hgroup | hgroup | hgroup
  · exact .inl (Option.mem_toList.mp hf)
  · exact .inr (.inr ⟨_, by simp [otherEnds], base, hbase⟩)
  · exact .inr (.inl ((h.mem_singletonFragments hnodup).mp hf))
  all_goals exact .inr (.inr ⟨group.1, by simp [hgroup, otherEnds], base, hbase⟩)

/-- Only the registry has its name. -/
theorem renderRegistry_of_mem {f : GeneratedFragment} (hf : f ∈ p.candidates c)
    (hname : f.hintName = Fragment.registryHintName) :
    Fragment.renderRegistry (p.registry c) = some f := by
  rcases h.candidate_cases hnodup hf with
    hf | ⟨name, r, -, hsole, rfl⟩ | ⟨ending, hend, base, hbase⟩
  · exact hf
  · obtain ⟨base, hbase⟩ := Generator.Supplies.exists_fillerEnd hsole.1
    refine absurd ?_ (fillerEnd_ne base "")
    rw [String.empty_append, ← hbase, ← hname]
    rfl
  · refine absurd ?_ (otherEnds_ne hend base "").2
    rw [String.empty_append, ← hbase, hname]

/-- Only a fragment that fills a slot has the name of a marked class. -/
theorem slotFiller_of_mem {f : GeneratedFragment} (hf : f ∈ p.candidates c) {name : String}
    {r : SingletonRecord} (hr : given.Candidate name r) (hname : f.hintName = r.hintName) :
    ∃ name' r', given.Registers c name' ∧ given.SoleCandidate name' r' ∧ f = slotFiller r' := by
  obtain ⟨end', hend'⟩ := Generator.Supplies.exists_fillerEnd hr
  rcases h.candidate_cases hnodup hf with hf | hf | ⟨ending, hend, base, hbase⟩
  · refine absurd ?_ (fillerEnd_ne end' "")
    rw [String.empty_append, ← hend', ← hname, (Fragment.renderRegistry_eq_some.mp hf).2]
    rfl
  · exact hf
  · refine absurd ?_ (otherEnds_ne hend base end').1
    rw [← hbase, hname, hend']

end Project.Holds
end SceneCodegen
