import SceneCodegen.Proofs.Generation.Assembling
import SceneCodegen.Proofs.Generation.Classes
import SceneCodegen.Proofs.Scan.Unmarking

/-!
# Broken classes

A class whose helpers cannot be rendered leaves no trace in the fragments of a generation, and one
finding among the diagnostics. All else is as if its helpers had not been marked.
-/
namespace SceneCodegen
open SceneCodegen.Graph Generation

namespace Graph.Listing
variable {ι α β : Type} {L L' : Listing ι α}

/-- Items that make the same make the same listing. -/
theorem map_congr {f : α → Outcome β} (hkeys : L.keys = L'.keys)
    (hdiagnostics : L.diagnostics = L'.diagnostics) (h : ∀ i, L.outcome f i = L'.outcome f i) :
    L.map f = L'.map f := by
  unfold map
  simp only [hkeys, hdiagnostics, h]

theorem items_congr {L L' : Listing ι β} (hkeys : L.keys = L'.keys)
    (hitem : ∀ i, L.item i = L'.item i) : L.items = L'.items := by
  unfold items
  simp only [hkeys, hitem]

end Graph.Listing

/-- A class and what is scanned in its place, which is the same but for helpers. -/
structure ScannedClass.Helpless (cls cls' : ScannedClass) (d : Diagnostic) : Prop where
  singleton : cls.singleton = cls'.singleton
  classRecord : cls.classRecord = cls'.classRecord
  notify : Fragment.renderNotify cls = Fragment.renderNotify cls'
  unregistered : ∀ c, unregistered c cls = unregistered c cls'
  helpers : Fragment.renderHelpers cls = .error d
  noHelpers : Fragment.renderHelpers cls' = .ok none

theorem ScannedClass.helpless_withoutHelpers {cls : ScannedClass} {d : Diagnostic}
    (h : Fragment.renderHelpers cls = .error d) : cls.Helpless cls.withoutHelpers d where
  singleton := rfl
  classRecord := rfl
  notify := cls.renderNotify_withoutHelpers.symm
  unregistered c := by
    have hmembers :
        cls.withoutHelpers.membersOf .singletonClass = cls.membersOf .singletonClass :=
      cls.membersOf_withoutHelpers (.inl rfl)
    unfold Generation.unregistered
    rw [hmembers]
    rfl
  helpers := h
  noHelpers := cls.renderHelpers_withoutHelpers

namespace Project

/-- Projects that differ in what is scanned of one type, and there only in helpers. -/
structure Spares (p p' : Project) (key : String) (d : Diagnostic) : Prop where
  manifests : p.manifests = p'.manifests
  scenes : p.scenes = p'.scenes
  keys : p.types.keys = p'.types.keys
  noManifestDiagnostics : p.manifests.diagnostics = []
  noSceneDiagnostics : p.scenes.diagnostics = []
  noDiagnostics : p.types.diagnostics = []
  noDiagnostics' : p'.types.diagnostics = []
  mem_keys : key ∈ p.types.keys
  other : ∀ name, name ≠ key → p.scannedClasses.item name = p'.scannedClasses.item name
  scanned : ∃ cls cls', p.scannedClasses.item key = some cls ∧
    p'.scannedClasses.item key = some cls' ∧ cls.Helpless cls' d

namespace Spares
variable {p p' : Project} {key : String} {d : Diagnostic} (h : p.Spares p' key d)
include h

/-- What is made of classes without regard to their helpers is the same. -/
theorem map_eq {β : Type} {f : ScannedClass → Outcome β}
    (hf : ∀ cls cls', cls.Helpless cls' d → f cls = f cls') :
    p.scannedClasses.map f = p'.scannedClasses.map f := by
  have hnone {p : Project} (htypes : p.types.diagnostics = []) :
      p.scannedClasses.diagnostics = [] :=
    List.eq_nil_iff_forall_not_mem.mpr fun _ => not_mem_scannedClasses_diagnostics htypes
  refine Listing.map_congr h.keys ?_ fun name => ?_
  · rw [hnone h.noDiagnostics, hnone h.noDiagnostics']
  · unfold Listing.outcome
    by_cases hname : name = key
    · obtain ⟨cls, cls', hcls, hcls', hhelpless⟩ := h.scanned
      rw [hname, hcls, hcls']
      exact hf cls cls' hhelpless
    · rw [h.other name hname]

theorem singletonClasses : p.singletonClasses = p'.singletonClasses :=
  h.map_eq fun _ _ hcls => by rw [hcls.singleton]

theorem classRecords : p.classRecords = p'.classRecords :=
  h.map_eq fun _ _ hcls => by rw [methodfulRecord, methodfulRecord, hcls.classRecord]

theorem notifyFragments : p.notifyFragments = p'.notifyFragments :=
  h.map_eq fun _ _ hcls => by rw [hcls.notify]

theorem entries : p.entries = p'.entries := by
  rw [Project.entries, manifestEntries, h.manifests]
  rfl

theorem unregisteredSingletons (c : Generation.Config) :
    p.unregisteredSingletons c = p'.unregisteredSingletons c := by
  have hentries : p.singletonEntries = p'.singletonEntries := by
    rw [singletonEntries, singletonEntries, h.entries]
  rw [Project.unregisteredSingletons, Project.unregisteredSingletons, hentries]
  refine h.map_eq fun cls cls' hcls => ?_
  unfold checkRegistered
  rw [hcls.singleton, hcls.unregistered]

theorem singletonPairs : p.singletonPairs = p'.singletonPairs := by
  rw [Project.singletonPairs, Project.singletonPairs, h.singletonClasses, singletonEntries,
    singletonEntries, h.entries]

theorem singletonSlots (c : Generation.Config) : p.singletonSlots c = p'.singletonSlots c := by
  rw [Project.singletonSlots, Project.singletonSlots, h.singletonPairs]

theorem singletonFragments (c : Generation.Config) :
    p.singletonFragments c = p'.singletonFragments c := by
  rw [Project.singletonFragments, Project.singletonFragments, h.singletonSlots]

theorem connectionFragments (c : Generation.Config) :
    p.connectionFragments c = p'.connectionFragments c := by
  rw [Project.connectionFragments, Project.connectionFragments, classConnections, classConnections,
    h.classRecords, connections, connections, sceneAssets, sceneAssets, h.scenes]

/-- The broken class has no helper fragment, as if it had no helpers. -/
theorem helperFragments_items : p.helperFragments.items = p'.helperFragments.items := by
  refine Listing.items_congr h.keys fun name => ?_
  rw [helperFragments, helperFragments, Listing.item_map, Listing.item_map]
  by_cases hname : name = key
  · obtain ⟨cls, cls', hcls, hcls', hhelpless⟩ := h.scanned
    rw [hname, hcls, hcls']
    show (helperOutcome cls).value = (helperOutcome cls').value
    unfold helperOutcome
    rw [hhelpless.helpers, hhelpless.noHelpers]
  · rw [h.other name hname]

/-- The same fragments are made. -/
theorem candidates (c : Generation.Config) : p.candidates c = p'.candidates c := by
  rw [Project.candidates, Project.candidates, registry, registry, h.singletonSlots,
    h.singletonFragments, h.helperFragments_items, h.notifyFragments, h.connectionFragments,
    inputActionFragment, inputActionFragment, inputActionEntries, inputActionEntries, h.entries]

theorem assembled (c : Generation.Config) : p.assembled c = p'.assembled c := by
  rw [Project.assembled, Project.assembled, h.candidates]

/-- The broken class adds one diagnostic. -/
theorem diagnostics (c : Generation.Config) {d' : Diagnostic} :
    d' ∈ p.diagnostics c ↔ d' ∈ p'.diagnostics c ∨ d' = d := by
  have hunregistered : (∃ name cls, (name, cls) ∈ p.scannedClasses.items ∧
        d' ∈ (checkRegistered c cls p.singletonEntries.items).diagnostics) ↔
      ∃ name cls, (name, cls) ∈ p'.scannedClasses.items ∧
        d' ∈ (checkRegistered c cls p'.singletonEntries.items).diagnostics := by
    have hsame := congrArg (d' ∈ Listing.diagnostics ·) (h.unregisteredSingletons c)
    simp only [Project.unregisteredSingletons, Listing.mem_diagnostics_map, eq_iff_iff,
      not_mem_scannedClasses_diagnostics h.noDiagnostics, false_or,
      not_mem_scannedClasses_diagnostics h.noDiagnostics'] at hsame
    exact hsame
  have hhelpers : (∃ name cls, (name, cls) ∈ p.scannedClasses.items ∧
        Fragment.renderHelpers cls = .error d') ↔
      (∃ name cls, (name, cls) ∈ p'.scannedClasses.items ∧
        Fragment.renderHelpers cls = .error d') ∨ d' = d := by
    obtain ⟨cls, cls', hcls, hcls', hhelpless⟩ := h.scanned
    have hkeys : p.scannedClasses.keys = p'.scannedClasses.keys := h.keys
    simp only [Listing.mem_items, hkeys]
    constructor
    · rintro ⟨name, x, ⟨hmem, hx⟩, herror⟩
      by_cases hname : name = key
      · subst hname
        obtain rfl : cls = x := Option.some.inj (hcls.symm.trans hx)
        exact .inr (Except.error.inj (herror.symm.trans hhelpless.helpers))
      · exact .inl ⟨name, x, ⟨hmem, h.other name hname ▸ hx⟩, herror⟩
    · rintro (⟨name, x, ⟨hmem, hx⟩, herror⟩ | rfl)
      · by_cases hname : name = key
        · subst hname
          obtain rfl : cls' = x := Option.some.inj (hcls'.symm.trans hx)
          rw [hhelpless.noHelpers] at herror
          cases herror
        · exact ⟨name, x, ⟨hmem, (h.other name hname).symm ▸ hx⟩, herror⟩
      · exact ⟨key, cls, ⟨h.keys ▸ h.mem_keys, hcls⟩, hhelpless.helpers⟩
  rw [mem_diagnostics h.noManifestDiagnostics h.noSceneDiagnostics h.noDiagnostics,
    mem_diagnostics (h.manifests ▸ h.noManifestDiagnostics) (h.scenes ▸ h.noSceneDiagnostics)
      h.noDiagnostics', hunregistered, hhelpers, h.singletonPairs, h.assembled]
  simp only [or_assoc, or_comm (a := d' = d)]

end Spares
end Project

namespace Generator.Supplies

/-- The same supplies, but for the markers of helpers in one type. -/
def unmarking (given : Supplies) (key : String) (t : TypeSymbol) : Supplies :=
  { given with symbols := Table.set key (Scan.unmarked t) given.symbols }

variable {given : Supplies} {key : String} {t : TypeSymbol} (ht : given.type key = some t)

theorem type_unmarking (name : String) : (given.unmarking key t).type name =
    if name = key then some (Scan.unmarked t) else given.type name := by
  unfold type unmarking
  split
  · rename_i hname
    rw [hname, Table.get?_set_self]
  · rename_i hname
    exact Table.get?_set_of_ne (Ne.symm hname) _ _

include ht

theorem sameOutside_unmarking : given.known.SameOutside (given.unmarking key t).known where
  find name := by
    show Option.map _ (given.type _) = Option.map _ ((given.unmarking key t).type _)
    rw [type_unmarking]
    split
    · rename_i hname
      rw [hname, ht]
      rfl
    · rfl
  size := by
    have hmem : key ∈ Table.keys given.symbols :=
      List.mem_map_of_mem (f := Prod.fst) (Table.mem_of_get? ht)
    have hkeys := congrArg List.length (Table.keys_set key (Scan.unmarked t) given.symbols)
    rw [if_pos hmem, Table.keys, Table.keys, List.length_map, List.length_map] at hkeys
    exact hkeys.symm

theorem scanned_unmarking_of_ne {name : String} (hname : name ≠ key) :
    (given.unmarking key t).scanned name = given.scanned name := by
  unfold scanned
  rw [type_unmarking, if_neg hname]
  congr 1
  funext s
  exact (Scan.scanClass_outside (sameOutside_unmarking ht) s).symm

/-- A class that derives from the root type is still scanned, without its helpers. -/
theorem scanned_unmarking {cls : ScannedClass} (hcls : given.scanned key = some cls)
    (hroot : cls.derivesFromRoot) :
    (given.unmarking key t).scanned key = some cls.withoutHelpers := by
  have hscan : (Scan.scanClass given.known t).run = some cls := by
    rw [scanned, ht] at hcls
    exact hcls
  rw [Scan.scanClass_run, Option.ite_none_right_eq_some] at hscan
  obtain ⟨hinterest, hscan⟩ := hscan
  obtain rfl := Option.some.inj hscan
  have hscanned : Scan.isScanned (Scan.unmarked t) = true :=
    ((Bool.and_eq_true _ _).mp hinterest).1
  have hderives : Scan.derivesFromRoot given.known (Scan.unmarked t) = true := hroot
  have hinterest' : Scan.isOfInterest given.known (Scan.unmarked t) = true := by
    rw [Scan.isOfInterest, hscanned, hderives]
    rfl
  have hrun : (given.unmarking key t).scanned key =
      (Scan.scanClass (given.unmarking key t).known (Scan.unmarked t)).run := by
    rw [scanned, type_unmarking, if_pos rfl]
    rfl
  rw [hrun, ← Scan.scanClass_outside (sameOutside_unmarking ht), Scan.scanClass_run,
    if_pos hinterest', Scan.scannedAmong_unmarked]

end Generator.Supplies

namespace Project.Holds
variable {c : Generation.Config} {p p' : Project} {given : Generator.Supplies} (h : p.Holds c given)
  (hnodup : (Table.keys given.symbols).Nodup) {key : String} {t : TypeSymbol} {cls : ScannedClass}
  {d : Diagnostic} (ht : given.type key = some t) (h' : p'.Holds c (given.unmarking key t))
include h hnodup ht h'

/-- Marking the helpers of a class that cannot be rendered leaves all other classes alone. -/
theorem spares (hcls : given.scanned key = some cls) (hd : Fragment.renderHelpers cls = .error d) :
    p.Spares p' key d := by
  have hnodup' : (Table.keys (given.unmarking key t).symbols).Nodup := Table.nodup_set _ _ hnodup
  have hroot := (Fragment.renderHelpers_eq_error hd).1
  have hmem := h.mem_scannedClasses_keys hcls
  exact {
    manifests := h.manifests.unique h'.manifests
    scenes := h.scenes.unique h'.scenes
    keys := h.types.same_keys h'.types fun name => by
      rw [Generator.Supplies.type_unmarking]
      split
      · rename_i hname
        rw [hname, ht]
        rfl
      · rfl
    noManifestDiagnostics := h.manifests.diagnostics
    noSceneDiagnostics := h.scenes.diagnostics
    noDiagnostics := h.types.diagnostics
    noDiagnostics' := h'.types.diagnostics
    mem_keys := hmem
    other := fun name hname => by
      rw [h.scannedClasses_item hnodup, h'.scannedClasses_item hnodup',
        Generator.Supplies.scanned_unmarking_of_ne ht hname]
    scanned := ⟨cls, cls.withoutHelpers, by rw [h.scannedClasses_item hnodup, hcls], by
      rw [h'.scannedClasses_item hnodup', Generator.Supplies.scanned_unmarking ht hcls hroot],
      ScannedClass.helpless_withoutHelpers hd⟩ }

end Project.Holds

namespace Generator

/-- The run of a generator that was given assets and types comes to a result. A class whose helpers
cannot be rendered changes neither the fragments nor the diagnostics there would be if its helpers
were not marked, but for what is reported of the first of its members that is refused. -/
theorem run_tolerates (c : Generation.Config) (snapshots : List Snapshot) (symbols : SymbolTable)
    (hkeyed : symbols.Keyed) : ∃ result, ((fed c snapshots symbols).run none).1 = .ok result ∧
      ∀ key t cls d, (Supplies.fed c snapshots symbols).type key = some t →
        (Supplies.fed c snapshots symbols).scanned key = some cls →
        Fragment.renderHelpers cls = .error d → Fragment.FirstRefused cls.members d ∧
          ∃ result', ((fed c snapshots (Table.set key (Scan.unmarked t) symbols)).run none).1 =
              .ok result' ∧
            result.fragments = result'.fragments ∧
            ∀ d', d' ∈ result.diagnostics ↔ d' ∈ result'.diagnostics ∨ d' = d := by
  obtain ⟨p, -, hp, hrun, -⟩ := run_fed c snapshots hkeyed.nodup
  refine ⟨p.result c, hrun, fun key t cls d ht hcls hd => ?_⟩
  obtain ⟨p', -, hp', hrun', -⟩ := run_fed c snapshots
    (Table.nodup_set key (Scan.unmarked t) hkeyed.nodup)
  have hspares := hp.spares hkeyed.nodup ht hp' hcls hd
  refine ⟨(Fragment.renderHelpers_eq_error hd).2, p'.result c, hrun', ?_, fun d' => ?_⟩
  · exact congrArg Prod.fst (hspares.assembled c)
  · exact hspares.diagnostics c

namespace Hud

def config : Generation.Config := { projectRoot := "/game" }

def accessor (name : String) : Symbol.Member :=
  { kind := .field, name, type := "Label", markers := [⟨Scan.accessorMarker, [.text "Score"], []⟩] }

def hud : TypeSymbol :=
  { name := "Hud", baseType := some "Godot.GodotObject"
    members := [accessor "score", accessor "label"] }

def symbols : SymbolTable :=
  [("Godot.GodotObject", { name := "GodotObject", nameSpace := "Godot", assembly := "GodotSharp" }),
    ("Hud", hud)]

def given : Supplies := .fed config [] symbols

def duplicate : Diagnostic :=
  { id := Diagnostic.duplicateAccessorPath, severity := .error
    message := "Members 'score' and 'label' of Hud both resolve to node path 'Score'." }

theorem keyed : symbols.Keyed where
  nodup := by decide
  lookupName name t h := by
    simp only [symbols, List.mem_cons, Prod.mk.injEq, List.not_mem_nil, or_false] at h
    rcases h with ⟨rfl, rfl⟩ | ⟨rfl, rfl⟩ <;> rfl

theorem scanned_hud : given.scanned "Hud" = some (Scan.scannedAmong given.known hud) := by
  have hinterest : Scan.isOfInterest given.known hud = true := by decide
  show (Scan.scanClass given.known hud).run = _
  rw [Scan.scanClass_run, if_pos hinterest]

theorem renderHelpers_hud :
    Fragment.renderHelpers (Scan.scannedAmong given.known hud) = .error duplicate := by
  decide

end Hud

theorem run_tolerates_hud : Hud.symbols.Keyed ∧
    ∃ result, ((fed Hud.config [] Hud.symbols).run none).1 = .ok result ∧
      Fragment.FirstRefused (Scan.scannedAmong Hud.given.known Hud.hud).members Hud.duplicate ∧
      ∃ result', ((fed Hud.config []
          (Table.set "Hud" (Scan.unmarked Hud.hud) Hud.symbols)).run none).1 = .ok result' ∧
        result.fragments = result'.fragments ∧
        ∀ d, d ∈ result.diagnostics ↔ d ∈ result'.diagnostics ∨ d = Hud.duplicate := by
  obtain ⟨result, hrun, hbroken⟩ := run_tolerates Hud.config [] Hud.symbols Hud.keyed
  exact ⟨Hud.keyed, result, hrun,
    hbroken "Hud" Hud.hud _ _ rfl Hud.scanned_hud Hud.renderHelpers_hud⟩

end Generator
end SceneCodegen
