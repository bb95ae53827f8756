import SceneCodegen.Proofs.Fragment.Refusal
import SceneCodegen.Proofs.Generation.Fillers

/-!
# Registration of singletons

Each singleton that a manifest registers has one slot, typed if exactly one marked class has its
name, and a class that fills its slot gets a fragment that does so. Every marked class fills a slot,
or is reported as one of several or as registered nowhere.
-/
namespace SceneCodegen
open SceneCodegen.Graph Generation

open Generator in
/-- What becomes of the singletons that manifests register and of the classes that are marked. -/
structure Registration (c : Generation.Config) (given : Supplies) (result : GenerationResult)
    (registry : SingletonRegistry) : Prop where
  ordered : (registry.slots.map (·.name)).Pairwise (· < ·)
  registered : ∀ name, name ∈ registry.slots.map (·.name) ↔ given.Registers c name
  typed : ∀ slot ∈ registry.slots, ∀ r, slot.record = some r ↔ given.SoleCandidate slot.name r
  typeName : ∀ slot ∈ registry.slots, ∀ key cls r, given.scanned key = some cls →
    cls.singleton = some r → slot.record = some r →
      slot.slotType = Symbol.globalPrefix ++ cls.qualifiedName
  generic : ∀ slot ∈ registry.slots, (∀ r, ¬ given.SoleCandidate slot.name r) →
    slot.slotType = "Node"
  registryFragment : ∀ f,
    f ∈ result.fragments ∧ f.hintName = "HelperGenerator_AutoLoad.g.cs" ↔
      (∃ slot ∈ registry.slots, ∃ r, given.SoleCandidate slot.name r) ∧
        f = ⟨"HelperGenerator_AutoLoad.g.cs",
          Fragment.ended (Fragment.registryLines registry.slots)⟩
  listsSlots : ∀ f ∈ result.fragments, f.hintName = "HelperGenerator_AutoLoad.g.cs" →
    Fragment.ListsSlots f.text registry.slots
  ambiguous : ∀ d, d ∈ result.diagnostics ∧ d.id = Diagnostic.ambiguousSingleton ↔
    ∃ name candidates, given.Registers c name ∧ candidates.Nodup ∧
      (∀ r, r ∈ candidates ↔ given.Candidate name r) ∧ 2 ≤ candidates.length ∧
        d = ambiguousSingleton c name candidates
  unregistered : ∀ d, d ∈ result.diagnostics ∧ d.id = Diagnostic.unregisteredSingleton ↔
    ∃ key cls, given.scanned key = some cls ∧ cls.singleton.isSome ∧
      ¬ given.Registers c cls.name ∧ d = Generation.unregistered c cls
  classFragment : ∀ key cls r, given.scanned key = some cls → cls.singleton = some r →
    ∀ f, f ∈ result.fragments ∧ f.hintName = r.hintName ↔
      given.Registers c cls.name ∧ given.SoleCandidate cls.name r ∧
        f = ⟨r.hintName, Fragment.ended (Fragment.fillerLines r)⟩
  accounted : ∀ key cls r, given.scanned key = some cls → cls.singleton = some r →
    (∃ slot ∈ registry.slots, slot.name = cls.name ∧ slot.record = some r) ∨
    (∃ candidates, (∀ r', r' ∈ candidates ↔ given.Candidate cls.name r') ∧
      ambiguousSingleton c cls.name candidates ∈ result.diagnostics) ∨
    Generation.unregistered c cls ∈ result.diagnostics

namespace Generation

/-- The order in which candidates are found plays no part in what is reported of them. -/
theorem ambiguousSingleton_congr (c : Generation.Config) (name : String)
    {rs rs' : List SingletonRecord} (h : rs.Perm rs') :
    ambiguousSingleton c name rs = ambiguousSingleton c name rs' := by
  have hnames : (rs.map (·.fullyQualifiedName)).mergeSort (· ≤ ·) =
      (rs'.map (·.fullyQualifiedName)).mergeSort (· ≤ ·) := mergeSort_names_congr (h.map _)
  simp only [ambiguousSingleton, hnames]

theorem mem_checkRegistered {c : Generation.Config} {cls : ScannedClass}
    {registered : List (EntryKey × Manifest.Entry)} {d : Diagnostic} :
    d ∈ (checkRegistered c cls registered).diagnostics ↔
      ∃ r, cls.singleton = some r ∧ (∀ key e, (key, e) ∈ registered → e.name ≠ r.name) ∧
        d = unregistered c cls := by
  unfold checkRegistered
  cases cls.singleton with
  | none => simp
  | some r =>
    simp only
    split
    · rename_i h
      obtain ⟨⟨key, e⟩, he, hname⟩ := List.any_eq_true.mp h
      simp only [List.not_mem_nil, Option.some.injEq, exists_eq_left', false_iff, not_and]
      exact fun hnone => absurd (eq_of_beq hname) (hnone key e he)
    · rename_i h
      have hnone : ∀ key e, (key, e) ∈ registered → e.name ≠ r.name := fun key e he hname =>
        h (List.any_eq_true.mpr ⟨(key, e), he, beq_iff_eq.mpr hname⟩)
      simp only [List.mem_singleton, Option.some.injEq, exists_eq_left']
      exact (and_iff_right hnone).symm

end Generation

/-- A name that a manifest registers stands on a line, before its equals sign. -/
theorem Generator.Supplies.Registers.plain {c : Generation.Config} {given : Supplies}
    {name : String} (h : given.Registers c name) :
    Fragment.OneLine name ∧ '=' ∉ name.toList := by
  obtain ⟨path, s, -, e, he, -, rfl⟩ := h
  exact ⟨Fragment.oneLine_entryName he, Fragment.equals_not_mem_entryName he⟩

namespace Project.Holds
variable {c : Generation.Config} {p : Project} {given : Generator.Supplies} (h : p.Holds c given)
include h

/-- All that is reported of what was supplied. -/
theorem mem_diagnostics (hnodup : (Table.keys given.symbols).Nodup) {d : Diagnostic} :
    d ∈ p.diagnostics c ↔
      (∃ name, given.Registers c name ∧ 2 ≤ (p.rivals name).length ∧
        d = ambiguousSingleton c name (p.rivals name)) ∨
      (∃ key cls, given.scanned key = some cls ∧ cls.singleton.isSome ∧
        ¬ given.Registers c cls.name ∧ d = unregistered c cls) ∨
      (∃ key cls, given.scanned key = some cls ∧ Fragment.renderHelpers cls = .error d) ∨
      d ∈ (p.assembled c).2 := by
  have hscanned {key : String} {cls : ScannedClass} :
      (key, cls) ∈ p.scannedClasses.items ↔ given.scanned key = some cls := by
    rw [Listing.mem_items, h.scannedClasses_item hnodup]
    exact ⟨And.right, fun hcls => ⟨h.mem_scannedClasses_keys hcls, hcls⟩⟩
  rw [Project.mem_diagnostics h.manifests.diagnostics h.scenes.diagnostics h.types.diagnostics]
  refine or_congr ?_ (or_congr ?_ (or_congr ?_ Iff.rfl))
  · constructor
    · rintro ⟨key, pair, hpair, hd⟩
      obtain ⟨e, he, rfl⟩ := mem_singletonPairs.mp hpair
      obtain ⟨hlength, rfl⟩ := mem_slotOf_diagnostics.mp hd
      exact ⟨e.name, h.registers_iff.mpr ⟨key, e, he, rfl⟩, hlength, rfl⟩
    · rintro ⟨name, hregisters, hlength, rfl⟩
      obtain ⟨key, e, he, rfl⟩ := h.registers_iff.mp hregisters
      exact ⟨key, _, mem_singletonPairs.mpr ⟨e, he, rfl⟩,
        mem_slotOf_diagnostics.mpr ⟨hlength, rfl⟩⟩
  · refine exists_congr fun key => exists_congr fun cls => ?_
    rw [hscanned, mem_checkRegistered]
    refine and_congr_right fun hcls => ?_
    have hregisters {r : SingletonRecord} (hr : cls.singleton = some r) :
        (∀ key e, (key, e) ∈ p.singletonEntries.items → e.name ≠ r.name) ↔
          ¬ given.Registers c cls.name := by
      rw [h.registers_iff, ← singleton_name hcls hr]
      exact ⟨fun hnone ⟨key, e, he, hname⟩ => hnone key e he hname,
        fun hnone key e he hname => hnone ⟨key, e, he, hname⟩⟩
    constructor
    · rintro ⟨r, hr, hnone, rfl⟩
      exact ⟨by rw [hr]; rfl, (hregisters hr).mp hnone, rfl⟩
    · rintro ⟨hsome, hnone, rfl⟩
      obtain ⟨r, hr⟩ := Option.isSome_iff_exists.mp hsome
      exact ⟨r, hr, (hregisters hr).mpr hnone, rfl⟩
  · exact exists_congr fun key => exists_congr fun cls => and_congr_left' hscanned

variable (hkeyed : given.symbols.Keyed)
include hkeyed

theorem ambiguous_iff {d : Diagnostic} :
    d ∈ p.diagnostics c ∧ d.id = Diagnostic.ambiguousSingleton ↔
      ∃ name candidates, given.Registers c name ∧ candidates.Nodup ∧
        (∀ r, r ∈ candidates ↔ given.Candidate name r) ∧ 2 ≤ candidates.length ∧
          d = ambiguousSingleton c name candidates := by
  rw [h.mem_diagnostics hkeyed.nodup]
  constructor
  · rintro ⟨⟨name, hregisters, hlength, rfl⟩ | ⟨key, cls, -, -, -, rfl⟩ | ⟨key, cls, -, herror⟩ |
      hname, hid⟩
    · exact ⟨name, p.rivals name, hregisters, p.nodup_rivals name,
        fun r => h.mem_rivals hkeyed.nodup, hlength, rfl⟩
    · exact absurd (show Diagnostic.unregisteredSingleton = _ from hid) (by decide)
    · obtain ⟨-, front, m, rest, -, -, hrefused⟩ := Fragment.renderHelpers_eq_error herror
      rcases hrefused.id_eq with hid' | hid' <;> exact absurd (hid'.symm.trans hid) (by decide)
    · exact absurd ((id_of_mem_assemble hname).symm.trans hid) (by decide)
  · rintro ⟨name, candidates, hregisters, hnodup, hcandidates, hlength, rfl⟩
    have hperm : candidates.Perm (p.rivals name) :=
      (List.perm_ext_iff_of_nodup hnodup (p.nodup_rivals name)).mpr fun r =>
        (hcandidates r).trans (h.mem_rivals hkeyed.nodup).symm
    refine ⟨.inl ⟨name, hregisters, hperm.length_eq ▸ hlength, ?_⟩, rfl⟩
    exact ambiguousSingleton_congr c name hperm

theorem unregistered_iff {d : Diagnostic} :
    d ∈ p.diagnostics c ∧ d.id = Diagnostic.unregisteredSingleton ↔
      ∃ key cls, given.scanned key = some cls ∧ cls.singleton.isSome ∧
        ¬ given.Registers c cls.name ∧ d = unregistered c cls := by
  rw [h.mem_diagnostics hkeyed.nodup]
  constructor
  · rintro ⟨⟨name, -, -, rfl⟩ | hunregistered | ⟨key, cls, -, herror⟩ | hname, hid⟩
    · exact absurd (show Diagnostic.ambiguousSingleton = _ from hid) (by decide)
    · exact hunregistered
    · obtain ⟨-, front, m, rest, -, -, hrefused⟩ := Fragment.renderHelpers_eq_error herror
      rcases hrefused.id_eq with hid' | hid' <;> exact absurd (hid'.symm.trans hid) (by decide)
    · exact absurd ((id_of_mem_assemble hname).symm.trans hid) (by decide)
  · rintro ⟨key, cls, hcls, hsome, hnone, rfl⟩
    exact ⟨.inr (.inl ⟨key, cls, hcls, hsome, hnone, rfl⟩), rfl⟩

theorem registryFragment_iff {f : GeneratedFragment} :
    f ∈ (p.result c).fragments ∧ f.hintName = Fragment.registryHintName ↔
      Fragment.renderRegistry (p.registry c) = some f := by
  constructor
  · rintro ⟨hf, hname⟩
    exact h.renderRegistry_of_mem hkeyed.nodup (mem_of_mem_assemble hf) hname
  · intro hf
    have hname : f.hintName = Fragment.registryHintName := by
      rw [(Fragment.renderRegistry_eq_some.mp hf).2]
      rfl
    refine ⟨(mem_assemble_iff fun g hg he => ?_).mpr ?_, hname⟩
    · have hregistry := h.renderRegistry_of_mem hkeyed.nodup hg (he.trans hname)
      exact Option.some.inj (hregistry.symm.trans hf)
    · simp [candidates, hf]

/-- A class fills the slot of its name if it is the only one of the name. -/
theorem slotFiller_iff (hplain : ∀ name t, (name, t) ∈ given.symbols → t.PlainlyNamed)
    {name : String} {r : SingletonRecord} (hr : given.Candidate name r) {f : GeneratedFragment} :
    f ∈ (p.result c).fragments ∧ f.hintName = r.hintName ↔
      given.Registers c name ∧ given.SoleCandidate name r ∧ f = slotFiller r := by
  have honly {g : GeneratedFragment} (hg : g ∈ p.candidates c) (hname : g.hintName = r.hintName) :
      given.Registers c name ∧ given.SoleCandidate name r ∧ g = slotFiller r := by
    obtain ⟨name', r', hregisters, hsole, rfl⟩ := h.slotFiller_of_mem hkeyed.nodup hg hr hname
    obtain ⟨rfl, rfl⟩ := Generator.Supplies.candidate_unique hkeyed hplain hsole.1 hr hname
    exact ⟨hregisters, hsole, rfl⟩
  constructor
  · exact fun ⟨hf, hname⟩ => honly (mem_of_mem_assemble hf) hname
  · rintro ⟨hregisters, hsole, rfl⟩
    refine ⟨(mem_assemble_iff fun g hg he => (honly hg he).2.2).mpr ?_, rfl⟩
    exact h.slotFiller_mem hkeyed.nodup hregisters hsole

/-- Every marked class fills a slot or is reported. -/
theorem accounted {key : String} {cls : ScannedClass} {r : SingletonRecord}
    (hcls : given.scanned key = some cls) (hr : cls.singleton = some r) :
    (∃ slot ∈ (p.registry c).slots, slot.name = cls.name ∧ slot.record = some r) ∨
    (∃ candidates, (∀ r', r' ∈ candidates ↔ given.Candidate cls.name r') ∧
      ambiguousSingleton c cls.name candidates ∈ p.diagnostics c) ∨
    unregistered c cls ∈ p.diagnostics c := by
  have hcandidate : given.Candidate cls.name r := ⟨key, cls, hcls, hr, rfl⟩
  have hmem : r ∈ p.rivals cls.name := (h.mem_rivals hkeyed.nodup).mpr hcandidate
  by_cases hregisters : given.Registers c cls.name
  · by_cases hsole : given.SoleCandidate cls.name r
    · refine .inl ⟨p.slot cls.name, slot_mem_registry ?_, rfl, ?_⟩
      rotate_left
      · exact (h.slot_record hkeyed.nodup).mpr hsole
      exact mem_registry_names.mpr (h.registers_iff.mp hregisters)
    · refine .inr (.inl ⟨p.rivals cls.name, fun _ => h.mem_rivals hkeyed.nodup, ?_⟩)
      refine (h.mem_diagnostics hkeyed.nodup).mpr (.inl ⟨cls.name, hregisters, ?_, rfl⟩)
      by_contra hlength
      refine hsole ⟨hcandidate, fun r' hr' => ?_⟩
      have hmem' := (h.mem_rivals hkeyed.nodup).mpr hr'
      match hrivals : p.rivals cls.name with
      | [] => simp [hrivals] at hmem
      | [x] => simp_all
      | x :: y :: rest => simp [hrivals] at hlength
  · have hsome : cls.singleton.isSome := by
      rw [hr]
      rfl
    exact .inr (.inr ((h.mem_diagnostics hkeyed.nodup).mpr
      (.inr (.inl ⟨key, cls, hcls, hsome, hregisters, rfl⟩))))

theorem registration (hplain : ∀ name t, (name, t) ∈ given.symbols → t.PlainlyNamed) :
    Registration c given (p.result c) (p.registry c) where
  ordered := pairwise_registryOf _
  registered name := mem_registry_names.trans h.registers_iff.symm
  typed slot hslot r := by
    rw [eq_slot_of_mem_registry hslot]
    exact h.slot_record hkeyed.nodup
  typeName slot hslot key cls r hcls hr hrecord := by
    obtain ⟨t, -, rfl⟩ := Generator.Supplies.exists_type_of_scanned hcls
    obtain ⟨-, rfl⟩ := (Scan.scannedAmong_singleton _ t).mp hr
    rw [SingletonSlot.slotType, hrecord]
    rfl
  generic slot hslot hnone := by
    have hrecord : slot.record = none := by
      rw [eq_slot_of_mem_registry hslot, Option.eq_none_iff_forall_ne_some]
      exact fun r hr => hnone r ((h.slot_record hkeyed.nodup).mp hr)
    rw [SingletonSlot.slotType, hrecord]
    rfl
  registryFragment f := by
    refine (h.registryFragment_iff hkeyed).trans ?_
    rw [Fragment.renderRegistry_eq_some]
    refine and_congr_left' (exists_congr fun slot => and_congr_right fun hslot => ?_)
    rw [eq_slot_of_mem_registry hslot]
    exact exists_congr fun r => h.slot_record hkeyed.nodup
  listsSlots f hf hname := by
    obtain ⟨-, rfl⟩ := Fragment.renderRegistry_eq_some.mp
      ((h.registryFragment_iff hkeyed).mp ⟨hf, hname⟩)
    refine Fragment.listsSlots fun slot hslot => ?_
    exact Generator.Supplies.Registers.plain
      (h.registers_iff.mpr (mem_registry_names.mp (List.mem_map_of_mem hslot)))
  ambiguous d := h.ambiguous_iff hkeyed
  unregistered d := h.unregistered_iff hkeyed
  classFragment key cls r hcls hr f := by
    rw [h.slotFiller_iff hkeyed hplain ⟨key, cls, hcls, hr, rfl⟩, slotFiller,
      Fragment.ofLines_singletonLines]
  accounted key cls r hcls hr := h.accounted hkeyed hcls hr

end Project.Holds

namespace Generator

/-- Registration is complete and consistent after the run of a generator that was given manifests,
scenes and plainly named types. -/
theorem run_registers (c : Generation.Config) (snapshots : List Snapshot) (symbols : SymbolTable)
    (hkeyed : symbols.Keyed) (hplain : ∀ name t, (name, t) ∈ symbols → t.PlainlyNamed) :
    ∃ result registry, ((fed c snapshots symbols).run none).1 = .ok result ∧
      (((fed c snapshots symbols).run none).2.ask (readNode .singletonRegistry)).1 = .ok registry ∧
      Registration c (.fed c snapshots symbols) result registry := by
  obtain ⟨p, value, hp, hrun, hshows⟩ := run_fed c snapshots hkeyed.nodup
  obtain ⟨inputs, hvalue⟩ := hshows.exists_inputs
  refine ⟨p.result c, p.registry c, hrun, ?_, hp.registration hkeyed hplain⟩
  rw [← p.singletonRegistry_eq hvalue hshows.feeds rfl]
  exact hshows.ask (.get _) (Program.safe_get (by decide))

namespace Jukebox

def config : Generation.Config := { projectRoot := "/game" }

def manifest : Snapshot := .ofText config.directory "/game" "/game/project.godot"
  "[autoload]\nScore=\"*res://Score.cs\"\nMusic=\"*res://Music.tscn\"\nMenu=\"*res://Menu.tscn\""

def markedClass (name nameSpace : String) : TypeSymbol :=
  { name, nameSpace, markers := [⟨Scan.singletonMarker, [], []⟩] }

def symbols : SymbolTable :=
  [("Score", markedClass "Score" ""), ("Title.Music", markedClass "Music" "Title"),
    ("Level.Music", markedClass "Music" "Level"), ("Log", markedClass "Log" "")]

theorem keyed : symbols.Keyed where
  nodup := by decide
  lookupName name t h := by
    simp only [symbols, List.mem_cons, Prod.mk.injEq, List.not_mem_nil, or_false] at h
    rcases h with ⟨rfl, rfl⟩ | ⟨rfl, rfl⟩ | ⟨rfl, rfl⟩ | ⟨rfl, rfl⟩ <;> rfl

def holdsBracket (s : String) : Bool := s.toList.any fun c => c ∈ ['<', '>', '(', ')']

theorem markedClass_plainlyNamed {name nameSpace : String} (hname : holdsBracket name = false)
    (hspace : holdsBracket nameSpace = false) : (markedClass name nameSpace).PlainlyNamed where
  name c hc := by simpa using List.any_eq_false.mp hname c hc
  typeParameters _ hp := (List.not_mem_nil hp).elim
  nameSpace c hc := by
    have hplain := List.any_eq_false.mp hspace c hc
    simp only [List.mem_cons, List.not_mem_nil, or_false, not_or, decide_eq_true_eq] at hplain
    exact hplain.2.2
  containingType _ ho := nomatch ho

theorem plainlyNamed : ∀ name t, (name, t) ∈ symbols → t.PlainlyNamed := by
  intro name t h
  simp only [symbols, List.mem_cons, Prod.mk.injEq, List.not_mem_nil, or_false] at h
  rcases h with ⟨rfl, rfl⟩ | ⟨rfl, rfl⟩ | ⟨rfl, rfl⟩ | ⟨rfl, rfl⟩
  all_goals exact markedClass_plainlyNamed (by decide) (by decide)

end Jukebox

theorem run_registers_jukebox : Jukebox.symbols.Keyed ∧
    (∀ name t, (name, t) ∈ Jukebox.symbols → t.PlainlyNamed) ∧
    ∃ result registry,
      ((fed Jukebox.config [Jukebox.manifest] Jukebox.symbols).run none).1 = .ok result ∧
      (((fed Jukebox.config [Jukebox.manifest] Jukebox.symbols).run none).2.ask
        (readNode .singletonRegistry)).1 = .ok registry ∧
      Registration Jukebox.config (.fed Jukebox.config [Jukebox.manifest] Jukebox.symbols) result
        registry :=
  ⟨Jukebox.keyed, Jukebox.plainlyNamed,
    run_registers Jukebox.config [Jukebox.manifest] Jukebox.symbols Jukebox.keyed
      Jukebox.plainlyNamed⟩

end Generator
end SceneCodegen
