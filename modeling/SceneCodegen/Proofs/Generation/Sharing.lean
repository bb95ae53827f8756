import SceneCodegen.Proofs.Generation.Naming
import SceneCodegen.Proofs.Generation.Reporting

/-!
# Names registered by several manifests

Which names the manifests list is all that the fragments of a run depend on, but not all that its
diagnostics do: a class that fills a slot which several manifests register has its fragment made for
each of them, and the copies are reported.
-/
namespace SceneCodegen
open SceneCodegen.Graph Generation

namespace Fragment

/-- The names of input actions are all that their fragment depends on. -/
theorem renderInputActions_congr {es es' : List Manifest.Entry}
    (h : (es.map (·.name)).Perm (es'.map (·.name))) :
    renderInputActions es = renderInputActions es' := by
  have hlines (es : List Manifest.Entry) :
      (es.mergeSort fun a b => a.name ≤ b.name).map inputActionLine =
        ((es.map (·.name)).mergeSort fun a b => a ≤ b).map
          fun name => inputActionLine ⟨.inputAction, name, ""⟩ := by
    rw [← List.map_mergeSort (r := fun a b : Manifest.Entry => a.name ≤ b.name) (by simp),
      List.map_map]
    rfl
  have hempty : es.isEmpty = es'.isEmpty := by
    have hlength := h.length_eq
    rw [List.length_map, List.length_map] at hlength
    cases es <;> cases es' <;> simp_all
  rw [renderInputActions, renderInputActions, hempty, hlines, hlines, mergeSort_names_congr h]

end Fragment

namespace Generator.Supplies

/-- The same types and scenes are supplied, and the same names are listed in manifests, by whichever
of them. -/
structure SameNames (c : Generation.Config) (given given' : Supplies) : Prop where
  symbols : given.symbols = given'.symbols
  scene : given.scene c = given'.scene c
  entry : ∀ kind name, (∃ path, given.HasEntry c kind path name) ↔
    ∃ path, given'.HasEntry c kind path name

end Generator.Supplies

namespace Project.Holds
variable {c : Generation.Config} {p p' : Project} {given given' : Generator.Supplies}
  (h : p.Holds c given) (h' : p'.Holds c given') (hsame : given.SameNames c given')
include h h' hsame

/-- The same names are read from the manifests. -/
theorem mem_names_of_same {kind : Manifest.EntryKind} {name : String} :
    (∃ key e, (key, e) ∈ (p.entries.map fun e => { value := ofKind kind e }).items ∧
      e.name = name) ↔
    ∃ key e, (key, e) ∈ (p'.entries.map fun e => { value := ofKind kind e }).items ∧
      e.name = name :=
  h.exists_hasEntry_iff.symm.trans ((hsame.entry kind name).trans h'.exists_hasEntry_iff)

theorem inputActionFragment_eq_of_same : p.inputActionFragment = p'.inputActionFragment := by
  have hnames (p : Project) (name : String) :
      name ∈ (p.inputActionEntries.items.map Prod.snd).map (·.name) ↔
        ∃ key e, (key, e) ∈ (p.entries.map fun e => { value := ofKind .inputAction e }).items ∧
          e.name = name := by
    rw [List.map_map, List.mem_map]
    exact ⟨fun ⟨i, hi, hname⟩ => ⟨i.1, i.2, hi, hname⟩, fun ⟨key, e, he, hname⟩ => ⟨_, he, hname⟩⟩
  refine Fragment.renderInputActions_congr ?_
  rw [uniqueEntries_eq, uniqueEntries_eq, names_firsts, names_firsts]
  refine (List.perm_ext_iff_of_nodup (Table.nodup_eraseDups _) (Table.nodup_eraseDups _)).mpr ?_
  intro name
  rw [List.mem_eraseDups, List.mem_eraseDups, hnames, hnames, mem_names_of_same h h' hsame]

theorem types_eq_of_same : p.types = p'.types := by
  have htype : given.type = given'.type := by
    unfold Generator.Supplies.type
    rw [hsame.symbols]
  exact h.types.unique (htype ▸ h'.types)

theorem scenes_eq_of_same : p.scenes = p'.scenes := h.scenes.unique (hsame.scene ▸ h'.scenes)

theorem registry_eq_of_same : p.registry c = p'.registry c := by
  have hslot : p.slot = p'.slot := by
    funext name
    rw [slot, slot, rivals, rivals, singletonClasses, singletonClasses, scannedClasses,
      scannedClasses, known, known, types_eq_of_same h h' hsame]
  have hslots (p : Project) :
      (p.registry c).slots = ((p.registry c).slots.map (·.name)).map p.slot := by
    rw [List.map_map]
    refine (List.map_id _).symm.trans (List.map_congr_left fun slot hmem => ?_)
    exact eq_slot_of_mem_registry hmem
  have hordered (p : Project) : ((p.registry c).slots.map (·.name)).Pairwise (· < ·) :=
    pairwise_registryOf _
  have hnodup (p : Project) : ((p.registry c).slots.map (·.name)).Nodup := by
    refine (hordered p).imp fun {a b} hlt => ?_
    rintro rfl
    exact String.lt_irrefl a hlt
  have hnames : (p.registry c).slots.map (·.name) = (p'.registry c).slots.map (·.name) := by
    refine ((List.perm_ext_iff_of_nodup (hnodup p) (hnodup p')).mpr fun name => ?_).eq_of_pairwise
      (fun a b _ _ hab hba => absurd hba (String.lt_asymm hab)) (hordered p) (hordered p')
    rw [mem_registry_names, mem_registry_names]
    exact mem_names_of_same h h' hsame
  have heq : (p.registry c).slots = (p'.registry c).slots := by
    rw [hslots p, hslots p', hnames, hslot]
  exact congrArg SingletonRegistry.mk heq

theorem mem_candidates_of_same (hnodup : (Table.keys given.symbols).Nodup)
    (f : GeneratedFragment) : f ∈ p.candidates c ↔ f ∈ p'.candidates c := by
  have htypes := types_eq_of_same h h' hsame
  have hclasses : p.scannedClasses = p'.scannedClasses := by
    rw [scannedClasses, scannedClasses, known, known, htypes]
  have hconnections : p.connectionFragments c = p'.connectionFragments c := by
    rw [connectionFragments, connectionFragments, classConnections, classConnections, classRecords,
      classRecords, hclasses, connections, connections, sceneAssets, sceneAssets,
      scenes_eq_of_same h h' hsame]
  have hnodup' : (Table.keys given'.symbols).Nodup := hsame.symbols ▸ hnodup
  have hscanned : given.scanned = given'.scanned := by
    funext name
    simp only [Generator.Supplies.scanned, Generator.Supplies.known, Generator.Supplies.type,
      hsame.symbols]
  have hsole (name : String) (r : SingletonRecord) :
      given.SoleCandidate name r ↔ given'.SoleCandidate name r := by
    simp only [Generator.Supplies.SoleCandidate, Generator.Supplies.Candidate, hscanned]
  have hregisters (name : String) : given.Registers c name ↔ given'.Registers c name :=
    hsame.entry .singleton name
  simp only [candidates, List.mem_append, registry_eq_of_same h h' hsame,
    inputActionFragment_eq_of_same h h' hsame, helperFragments, notifyFragments, hclasses,
    hconnections, h.mem_singletonFragments hnodup, h'.mem_singletonFragments hnodup', hsole,
    hregisters]

end Project.Holds

namespace Project.Holds
variable {c : Generation.Config} {p : Project} {given : Generator.Supplies} (h : p.Holds c given)
  (hkeyed : given.symbols.Keyed)
  (hplain : ∀ name t, (name, t) ∈ given.symbols → t.PlainlyNamed)
include h hkeyed hplain

/-- The names that are reported as given several times. -/
theorem duplicate_iff {d : Diagnostic} :
    d ∈ p.diagnostics c ∧ d.id = Diagnostic.duplicateHintName ↔ ∃ name r,
      given.SoleCandidate name r ∧ given.RegistersTwice c name ∧
        d = duplicateHintName (slotFiller r) := by
  have hreported : d ∈ (p.assembled c).2 ↔ ∃ name r, given.SoleCandidate name r ∧
      given.RegistersTwice c name ∧ d = duplicateHintName (slotFiller r) := by
    rw [assembled, mem_assemble_reported]
    constructor
    · rintro ⟨f, hf, hcount, rfl⟩
      obtain ⟨name, r, hsole, htwice, rfl⟩ := (h.shared_iff hkeyed hplain hf).mp hcount
      exact ⟨name, r, hsole, htwice, rfl⟩
    · rintro ⟨name, r, hsole, htwice, rfl⟩
      obtain ⟨path, -, -, hentry, -⟩ := id htwice
      have hf := h.slotFiller_mem hkeyed.nodup ⟨path, hentry⟩ hsole
      exact ⟨slotFiller r, hf, (h.shared_iff hkeyed hplain hf).mpr ⟨name, r, hsole, htwice, rfl⟩,
        rfl⟩
  rw [← hreported, h.mem_diagnostics hkeyed.nodup]
  constructor
  · rintro ⟨⟨name, hregisters, hlength, rfl⟩ | ⟨key, cls, -, -, -, rfl⟩ | ⟨key, cls, -, herror⟩ |
      hname, hid⟩
    · exact absurd (show Diagnostic.ambiguousSingleton = _ from hid) (by decide)
    · exact absurd (show Diagnostic.unregisteredSingleton = _ from hid) (by decide)
    · obtain ⟨-, front, m, rest, -, -, hrefused⟩ := Fragment.renderHelpers_eq_error herror
      rcases hrefused.id_eq with hid' | hid' <;> exact absurd (hid'.symm.trans hid) (by decide)
    · exact hname
  · exact fun hname => ⟨.inr (.inr (.inr hname)), id_of_mem_assemble hname⟩

end Project.Holds

namespace Generator

/-- Of the fragments that are made, only those that fill a slot registered by several manifests have
names in common, and only these are reported. By which manifests names are listed is nothing that
the fragments of a result depend on. -/
theorem run_names (c : Generation.Config) (snapshots : List Snapshot) (symbols : SymbolTable)
    (hkeyed : symbols.Keyed) (hplain : ∀ name t, (name, t) ∈ symbols → t.PlainlyNamed) :
    let given := Supplies.fed c snapshots symbols
    ∃ result candidates, ((fed c snapshots symbols).run none).1 = .ok result ∧
      (((fed c snapshots symbols).run none).2.ask Project.candidatesProgram).1 = .ok candidates ∧
      (∀ f ∈ candidates, 2 ≤ (candidates.map (·.hintName)).count f.hintName ↔
        ∃ name r, given.SoleCandidate name r ∧ given.RegistersTwice c name ∧ f = slotFiller r) ∧
      (∀ d, d ∈ result.diagnostics ∧ d.id = Diagnostic.duplicateHintName ↔
        ∃ name r, given.SoleCandidate name r ∧ given.RegistersTwice c name ∧
          d = duplicateHintName (slotFiller r)) ∧
      ∀ snapshots', given.SameNames c (.fed c snapshots' symbols) →
        ∃ result', ((fed c snapshots' symbols).run none).1 = .ok result' ∧
          result'.fragments = result.fragments := by
  intro given
  obtain ⟨p, value, hp, hrun, hshows⟩ := run_fed c snapshots hkeyed.nodup
  obtain ⟨inputs, hvalue⟩ := hshows.exists_inputs
  refine ⟨p.result c, p.candidates c, hrun, ?_, fun f hf => hp.shared_iff hkeyed hplain hf,
    fun d => hp.duplicate_iff hkeyed hplain, fun snapshots' hsame => ?_⟩
  · exact hshows.ask (Project.candidatesProgram_comesTo hvalue hshows.feeds rfl)
      candidatesProgram_safe
  · obtain ⟨p', -, hp', hrun', -⟩ := run_fed c snapshots' hkeyed.nodup
    refine ⟨p'.result c, hrun', ?_⟩
    exact (assemble_congr (hp.mem_candidates_of_same hp' hsame hkeyed.nodup)
      fun f hf g hg hname => hp.candidates_unique hkeyed hplain hf hg hname).symm

namespace Duet

def text : String := "[autoload]\nScore=\"*res://Score.cs\""

def manifest (path : String) : Snapshot := .ofText Jukebox.config.directory "/game" path text

def snapshots : List Snapshot :=
  [manifest "/game/project.godot", manifest "/game/addon/project.godot"]

def score : TypeSymbol := Jukebox.markedClass "Score" ""

def symbols : SymbolTable := [("Score", score)]

def given : Supplies := .fed Jukebox.config snapshots symbols

def record : SingletonRecord := Scan.singletonRecord score none

theorem keyed : symbols.Keyed where
  nodup := List.nodup_singleton _
  lookupName name t h := by
    obtain ⟨rfl, rfl⟩ := Prod.mk.inj (List.mem_singleton.mp h)
    rfl

theorem plainlyNamed : ∀ name t, (name, t) ∈ symbols → t.PlainlyNamed := by
  intro name t h
  obtain ⟨rfl, rfl⟩ := Prod.mk.inj (List.mem_singleton.mp h)
  exact Jukebox.markedClass_plainlyNamed (by decide) (by decide)

theorem soleCandidate : given.SoleCandidate "Score" record := by
  have hscanned : given.scanned "Score" = some (Scan.scannedAmong given.known score) := by
    have hinterest : Scan.isOfInterest given.known score = true := by decide
    show (Scan.scanClass given.known score).run = _
    rw [Scan.scanClass_run, if_pos hinterest]
  refine ⟨⟨"Score", _, hscanned, rfl, rfl⟩, ?_⟩
  rintro r ⟨key, cls, hcls, hr, -⟩
  obtain ⟨t, ht, rfl⟩ := Supplies.exists_type_of_scanned hcls
  obtain ⟨-, rfl⟩ := (Scan.scannedAmong_singleton _ t).mp hr
  have hmem : (key, t) ∈ symbols := Table.mem_of_get? ht
  obtain ⟨-, rfl⟩ := Prod.mk.inj (List.mem_singleton.mp hmem)
  rfl

theorem parse_lines (path : String) : Manifest.parse (manifest path).lines =
    [⟨.singleton, "Score", "*res://Score.cs"⟩] := by
  have hlines : (manifest path).lines = (manifest "").lines := rfl
  rw [hlines]
  decide

theorem manifests :
    given.manifest Jukebox.config "/game/project.godot" = some (manifest "/game/project.godot") ∧
    given.manifest Jukebox.config "/game/addon/project.godot" =
      some (manifest "/game/addon/project.godot") ∧
    (Supplies.fed Jukebox.config [manifest "/game/project.godot"] symbols).manifest Jukebox.config
      "/game/project.godot" = some (manifest "/game/project.godot") := by
  decide +kernel

theorem registersTwice : given.RegistersTwice Jukebox.config "Score" := by
  have hentry {path : String}
      (hmanifest : given.manifest Jukebox.config path = some (manifest path)) :
      given.HasEntry Jukebox.config .singleton path "Score" :=
    ⟨_, hmanifest, _, by rw [parse_lines]; exact List.mem_singleton_self _, rfl, rfl⟩
  exact ⟨_, _, by decide, hentry manifests.1, hentry manifests.2.1⟩

/-- Without the second manifest the same names are listed. -/
theorem sameNames :
    given.SameNames Jukebox.config
      (.fed Jukebox.config [manifest "/game/project.godot"] symbols) := by
  have hpaths : ∀ s ∈ snapshots, Snapshot.isManifest Jukebox.config.manifestName s.path = true := by
    decide
  have hmanifest {l : List Snapshot} (hall : ∀ s ∈ l, s ∈ snapshots) {path : String} {s : Snapshot}
      (hs : lastUnder l path = some s) : Snapshot.isManifest Jukebox.config.manifestName path := by
    obtain rfl : s.path = path := by simpa using List.find?_some hs
    exact hpaths s (hall s (mem_of_lastUnder hs))
  have hscene {l : List Snapshot} (hall : ∀ s ∈ l, s ∈ snapshots) :
      (Supplies.fed Jukebox.config l symbols).scene Jukebox.config = fun _ => none := by
    funext path
    rw [Supplies.fed_scene]
    cases hs : lastUnder l path with
    | none => simp
    | some s => simp [hmanifest hall hs]
  have hentry {l : List Snapshot} (hall : ∀ s ∈ l, s ∈ snapshots)
      (hmain : (Supplies.fed Jukebox.config l symbols).manifest Jukebox.config
        "/game/project.godot" = some (manifest "/game/project.godot"))
      (kind : Manifest.EntryKind) (name : String) :
      (∃ path, (Supplies.fed Jukebox.config l symbols).HasEntry Jukebox.config kind path name) ↔
        kind = .singleton ∧ name = "Score" := by
    constructor
    · rintro ⟨path, s, hs, e, he, rfl, rfl⟩
      rw [Supplies.fed_manifest] at hs
      split at hs
      · have hmem := hall s (mem_of_lastUnder hs)
        obtain ⟨path, rfl⟩ : ∃ path, s = manifest path := by
          simp only [snapshots, List.mem_cons, List.not_mem_nil, or_false] at hmem
          exact hmem.elim (fun h => ⟨_, h⟩) fun h => ⟨_, h⟩
        rw [parse_lines, List.mem_singleton] at he
        exact ⟨congrArg Manifest.Entry.kind he, congrArg Manifest.Entry.name he⟩
      · cases hs
    · rintro ⟨rfl, rfl⟩
      exact ⟨_, _, hmain, _, by rw [parse_lines]; exact List.mem_singleton_self _, rfl, rfl⟩
  have hself : ∀ s ∈ snapshots, s ∈ snapshots := fun _ h => h
  have hone : ∀ s ∈ [manifest "/game/project.godot"], s ∈ snapshots := by simp [snapshots]
  have hboth := manifests.1
  unfold given at hboth ⊢
  have hsymbols (l : List Snapshot) : (Supplies.fed Jukebox.config l symbols).symbols =
    symbols := rfl
  refine ⟨?_, ?_, fun kind name => ?_⟩
  · rw [hsymbols, hsymbols]
  · rw [hscene hself, hscene hone]
  · rw [hentry hself hboth, hentry hone manifests.2.2]

end Duet

/-- With and without the second manifest the fragments are the same. -/
theorem run_names_duet : Duet.symbols.Keyed ∧
    (∀ name t, (name, t) ∈ Duet.symbols → t.PlainlyNamed) ∧
    ∃ result result',
      ((fed Jukebox.config Duet.snapshots Duet.symbols).run none).1 = .ok result ∧
      ((fed Jukebox.config [Duet.manifest "/game/project.godot"] Duet.symbols).run none).1 =
        .ok result' ∧
      result'.fragments = result.fragments := by
  obtain ⟨result, candidates, hrun, -, -, -, hsame⟩ :=
    run_names Jukebox.config Duet.snapshots Duet.symbols Duet.keyed Duet.plainlyNamed
  obtain ⟨result', hrun', hfragments⟩ := hsame _ Duet.sameNames
  exact ⟨Duet.keyed, Duet.plainlyNamed, result, result', hrun, hrun', hfragments⟩

/-- A class that two manifests register is reported although nothing is wrong. -/
theorem duet_reported :
    ∃ result, ((fed Jukebox.config Duet.snapshots Duet.symbols).run none).1 = .ok result ∧
      duplicateHintName (slotFiller Duet.record) ∈ result.diagnostics := by
  obtain ⟨p, -, hp, hrun, -⟩ := run_fed Jukebox.config Duet.snapshots Duet.keyed.nodup
  exact ⟨_, hrun, ((hp.duplicate_iff Duet.keyed Duet.plainlyNamed).mpr
    ⟨"Score", Duet.record, Duet.soleCandidate, Duet.registersTwice, rfl⟩).1⟩

end Generator
end SceneCodegen
