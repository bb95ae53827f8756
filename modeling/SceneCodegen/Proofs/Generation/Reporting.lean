import SceneCodegen.Proofs.Generation.Registration

/-!
# What a run reports

The diagnostics of a run are in strict order, so that none is doubled, and none is lost: they are
those of the outcomes of all items of all mapped streams, and one for each name that several
fragments were made under. Each mapped stream hands on what its source reports; the streams that
nobody collects from report nothing themselves.
-/
namespace SceneCodegen
open SceneCodegen.Graph Generation

/-- The outcome of an item of a mapped stream reports a diagnostic. -/
def Graph.MapNode.Tells {ι β : Type} (w : (n : MapNode ι) → n.Value ι β) (d : Diagnostic) : Prop :=
  ∃ i, d ∈ (w (.outcome i)).diagnostics

/-- A mapped stream reports what its source does and what the outcomes of its items report. -/
theorem Graph.Family.mem_diagnostics {K : Type} [Graph.Node K] {V : K → Type}
    {value : (k : K) → V k} {ι α β : Type} [ItemKey ι] (self : Family K V (MapNode.Value ι β))
    {w : (n : MapNode ι) → n.Value ι β} {source : Stream K V ι α} {S : Listing ι α}
    {L : Listing ι β} {handler : α → Program K V (Outcome β)} {d : Diagnostic}
    (hself : self.Holds value w)
    (hrule : ∀ n, (mapProgram self source handler n).ComesTo value (w n))
    (hsource : source.Lists value S) (hclosed : S.Closed)
    (hlists : (self.mapStream source).Lists value L) :
    d ∈ L.diagnostics ↔ d ∈ S.diagnostics ∨ MapNode.Tells w d := by
  have hown : (S.keys.mapM fun i => do return (← self.get (.outcome i)).diagnostics :
      Program K V (List (List Diagnostic))).ComesTo value
        (S.keys.map fun i => (w (.outcome i)).diagnostics) :=
    .mapM fun i _ => (hself (.outcome i)).bind (.done _)
  have hcollected : w .diagnostics = Diagnostic.sorted
      (S.diagnostics ++ (S.keys.map fun i => (w (.outcome i)).diagnostics).flatten) :=
    (hrule .diagnostics).unique
      (hsource.diagnostics.bind (hsource.keys.bind (hown.bind (.done _))))
  rw [hlists.diagnostics.unique (hself .diagnostics), hcollected, Diagnostic.mem_sorted,
    List.mem_append, ← List.flatMap_def, List.mem_flatMap]
  refine or_congr_right ⟨fun ⟨i, _, hd⟩ => ⟨i, hd⟩, fun ⟨i, hd⟩ => ⟨i, ?_, hd⟩⟩
  refine hclosed i (Option.isSome_iff_ne_none.mpr fun hnone => ?_)
  have hempty : w (.outcome i) = {} := by
    refine (hrule (.outcome i)).unique ((hsource.item i).bind ?_)
    rw [hnone]
    exact .done _
  rw [hempty] at hd
  cases hd

namespace Generation

/-- What the outcome of an item of a mapped stream reports; other nodes are no outcomes. -/
def Node.reports : (n : Generation.Node) → Option (Value n → List Diagnostic)
  | .manifestEntries (.outcome _) => some fun o => o.diagnostics
  | .singletonEntries (.outcome _) => some fun o => o.diagnostics
  | .inputActionEntries (.outcome _) => some fun o => o.diagnostics
  | .sceneAssets (.outcome _) => some fun o => o.diagnostics
  | .scannedClasses (.outcome _) => some fun o => o.diagnostics
  | .singletonClasses (.outcome _) => some fun o => o.diagnostics
  | .classRecords (.outcome _) => some fun o => o.diagnostics
  | .singletonSlots (.outcome _) => some fun o => o.diagnostics
  | .singletonFragments (.outcome _) => some fun o => o.diagnostics
  | .helperFragments (.outcome _) => some fun o => o.diagnostics
  | .notifyFragments (.outcome _) => some fun o => o.diagnostics
  | .connectionFragments (.outcome _) => some fun o => o.diagnostics
  | .unregisteredSingletons (.outcome _) => some fun o => o.diagnostics
  | _ => none

/-- No mapped stream was left out. -/
theorem Node.isSome_reports (n : Generation.Node) :
    n.reports.isSome = Text.hasSuffix ".outcome" n.name := by
  have houtcome (base : String) : Text.hasSuffix ".outcome" (base ++ ".outcome") = true :=
    hasSuffix_append (by decide)
  have hother (base : String) : ∀ ending ∈ [".item", ".keys", ".diagnostics", ".parts", ".index",
      ".lookup", ".list"], Text.hasSuffix ".outcome" (base ++ ending) = false := by
    have hends : ∀ ending ∈ [".item", ".keys", ".diagnostics", ".parts", ".index", ".lookup",
        ".list"], ¬ ".outcome".toList <:+ ending.toList ∧
          ¬ ending.toList <:+ ".outcome".toList := by
      decide
    exact fun ending h => hasSuffix_append_eq_false (hends ending h).1 (hends ending h).2
  cases n with
  | singletonEntryList | singletonSlotList | singletonRegistry | inputActionList | registryFragment
  | inputActionFragment | generatedFragments | pipelineDiagnostics => rfl
  | fragmentList kind => exact (hother _ ".list" (by simp)).symm
  | manifestFiles n | sceneFiles n | typeSymbols n | manifestEntry n | sceneConnections n
  | singletonPairs n | classConnections n => cases n <;> exact (hother _ _ (by simp)).symm
  | _ n =>
    cases n with
    | outcome i => exact (houtcome _).symm
    | _ => exact (hother _ _ (by simp)).symm

/-- A diagnostic of the outcome of an item. -/
def Told (value : (n : Generation.Node) → Value n) (d : Diagnostic) : Prop :=
  ∃ n report, Node.reports n = some report ∧ d ∈ report (value n)

/-- The mapped streams. -/
inductive Mapped
  | manifestEntries
  | singletonEntries
  | inputActionEntries
  | sceneAssets
  | scannedClasses
  | singletonClasses
  | classRecords
  | singletonSlots
  | singletonFragments
  | helperFragments
  | notifyFragments
  | connectionFragments
  | unregisteredSingletons

namespace Mapped

def reported (c : Config) (p : Project) : Mapped → List Diagnostic
  | manifestEntries => p.manifestEntries.diagnostics
  | singletonEntries => p.singletonEntries.diagnostics
  | inputActionEntries => p.inputActionEntries.diagnostics
  | sceneAssets => (p.sceneAssets c).diagnostics
  | scannedClasses => p.scannedClasses.diagnostics
  | singletonClasses => p.singletonClasses.diagnostics
  | classRecords => p.classRecords.diagnostics
  | singletonSlots => (p.singletonSlots c).diagnostics
  | singletonFragments => (p.singletonFragments c).diagnostics
  | helperFragments => p.helperFragments.diagnostics
  | notifyFragments => p.notifyFragments.diagnostics
  | connectionFragments => (p.connectionFragments c).diagnostics
  | unregisteredSingletons => (p.unregisteredSingletons c).diagnostics

/-- What the source of a stream reports of a project. -/
def handed (c : Config) (p : Project) : Mapped → List Diagnostic
  | manifestEntries => p.manifests.diagnostics
  | singletonEntries | inputActionEntries => p.manifestEntries.diagnostics
  | sceneAssets => p.scenes.diagnostics
  | scannedClasses => p.types.diagnostics
  | singletonClasses | classRecords | helperFragments | notifyFragments
  | unregisteredSingletons => p.scannedClasses.diagnostics
  | singletonSlots => p.singletonPairs.diagnostics
  | singletonFragments => (p.singletonSlots c).diagnostics
  | connectionFragments => (p.classConnections c).diagnostics

/-- The outcome of an item of a stream reports a diagnostic. -/
def Tells (value : (n : Generation.Node) → Value n) (d : Diagnostic) : Mapped → Prop
  | manifestEntries => MapNode.Tells (fun n => value (.manifestEntries n)) d
  | singletonEntries => MapNode.Tells (fun n => value (.singletonEntries n)) d
  | inputActionEntries => MapNode.Tells (fun n => value (.inputActionEntries n)) d
  | sceneAssets => MapNode.Tells (fun n => value (.sceneAssets n)) d
  | scannedClasses => MapNode.Tells (fun n => value (.scannedClasses n)) d
  | singletonClasses => MapNode.Tells (fun n => value (.singletonClasses n)) d
  | classRecords => MapNode.Tells (fun n => value (.classRecords n)) d
  | singletonSlots => MapNode.Tells (fun n => value (.singletonSlots n)) d
  | singletonFragments => MapNode.Tells (fun n => value (.singletonFragments n)) d
  | helperFragments => MapNode.Tells (fun n => value (.helperFragments n)) d
  | notifyFragments => MapNode.Tells (fun n => value (.notifyFragments n)) d
  | connectionFragments => MapNode.Tells (fun n => value (.connectionFragments n)) d
  | unregisteredSingletons => MapNode.Tells (fun n => value (.unregisteredSingletons n)) d

/-- The streams one by one. -/
theorem forall_iff {P : Mapped → Prop} : (∀ m, P m) ↔
    P .manifestEntries ∧ P .singletonEntries ∧ P .inputActionEntries ∧ P .sceneAssets ∧
    P .scannedClasses ∧ P .singletonClasses ∧ P .classRecords ∧ P .singletonSlots ∧
    P .singletonFragments ∧ P .helperFragments ∧ P .notifyFragments ∧ P .connectionFragments ∧
    P .unregisteredSingletons := by
  refine ⟨fun h => ?_, fun h m => ?_⟩
  · exact ⟨h _, h _, h _, h _, h _, h _, h _, h _, h _, h _, h _, h _, h _⟩
  · cases m <;> tauto

end Mapped

/-- The mapped streams tell what is told. -/
theorem told_iff_tells {value : (n : Generation.Node) → Value n} {d : Diagnostic} :
    Told value d ↔ ∃ m : Mapped, m.Tells value d := by
  constructor
  · rintro ⟨n, report, hn, hd⟩
    by_contra hnone
    have hsilent (m : Mapped) : ¬m.Tells value d := fun h => hnone ⟨m, h⟩
    have hsome : n.reports.isSome = true := by
      rw [hn]
      rfl
    simp only [Mapped.forall_iff, Mapped.Tells, MapNode.Tells, not_exists] at hsilent
    cases n with
    | manifestEntries n | singletonEntries n | inputActionEntries n | sceneAssets n
    | scannedClasses n | singletonClasses n | classRecords n | singletonSlots n
    | singletonFragments n | helperFragments n | notifyFragments n | connectionFragments n
    | unregisteredSingletons n =>
      cases n with
      | outcome i =>
        cases hn
        grind
      | _ => cases hsome
    | _ => cases hsome
  · rintro ⟨m, hm⟩
    cases m <;> obtain ⟨i, hd⟩ := hm <;> exact ⟨_, _, rfl, hd⟩

theorem level_lt_depth (n : Generation.Node) : level n < Generator.depth := by
  have hmap {ι : Type} (base : Nat) (n : MapNode ι) : mapLevel base n ≤ base + 1 := by
    cases n <;> simp [mapLevel]
  have hflat {ι τ : Type} (base : Nat) (n : FlatNode ι τ) : flatLevel base n ≤ base + 1 := by
    cases n <;> simp [flatLevel]
  have hjoin {ι κ : Type} (base : Nat) (n : JoinNode ι κ) : joinLevel base n ≤ base + 2 := by
    cases n <;> simp [joinLevel]
  cases n with
  | manifestFiles | sceneFiles | typeSymbols | singletonEntryList | singletonSlotList
  | singletonRegistry | inputActionList | registryFragment | inputActionFragment | fragmentList
  | generatedFragments | pipelineDiagnostics => simp [level, Generator.depth]
  | manifestEntry n | sceneConnections n => exact Nat.lt_of_le_of_lt (hflat _ n) (by decide)
  | singletonPairs n | classConnections n => exact Nat.lt_of_le_of_lt (hjoin _ n) (by decide)
  | _ n => exact Nat.lt_of_le_of_lt (hmap _ n) (by decide)

theorem candidatesProgram_safe :
    Project.candidatesProgram.Safe (level · < Generator.depth) (Unfailing Generation.Node) := by
  have hread (n : Generation.Node) :
      (readNode n).Safe (level · < Generator.depth) (Unfailing Generation.Node) :=
    Program.safe_get (level_lt_depth n)
  have hlist (kind : FragmentKind) :
      (fragmentsOf kind).Safe (level · < Generator.depth) (Unfailing Generation.Node) :=
    (hread (.fragmentList kind)).bind fun _ => .done _
  exact (hread .registryFragment).bind fun _ => (hread .inputActionFragment).bind fun _ =>
    (hlist .singleton).bind fun _ => (hlist .helper).bind fun _ => (hlist .notify).bind fun _ =>
    (hlist .connection).bind fun _ => .done _

end Generation

namespace Project
variable {c : Generation.Config} {p : Project} {given : Generator.Supplies} {size : Nat}
  {inputs : Inputs Generation.Node Value} {value : (n : Generation.Node) → Value n}
  (hvalue : Valuation (rules c size) inputs value) (hp : p.Feeds value)
  (hsize : size = p.types.keys.length) (hholds : p.Holds c given) {d : Diagnostic}

section
include hholds

theorem closed_entries : p.entries.Closed :=
  (hholds.manifests.closed.map _).flat (fun _ _ => mem_sortedBy) _

theorem closed_scannedClasses : p.scannedClasses.Closed := hholds.types.closed.map _

theorem closed_singletonPairs : p.singletonPairs.Closed :=
  ((closed_entries hholds).map _).join _ _ _

theorem closed_classConnections : (p.classConnections c).Closed :=
  ((closed_scannedClasses hholds).map _).join _ _ _

include hvalue hp

include hsize

/-- A mapped stream of a project reports what its source does and what the outcomes of its items
report. -/
theorem mem_reported (m : Mapped) :
    d ∈ m.reported c p ↔ d ∈ m.handed c p ∨ m.Tells value d := by
  have hscanned := scannedClasses_lists hvalue hp hsize
  have hclosed := closed_scannedClasses hholds
  cases m with
  | manifestEntries =>
    exact manifestEntriesFamily.mem_diagnostics (fun _ => rfl)
      (fun n => hvalue.query (.manifestEntries n) _ rfl) hp.manifests hholds.manifests.closed
      (manifestEntries_lists hvalue hp)
  | singletonEntries =>
    exact singletonEntriesFamily.mem_diagnostics (fun _ => rfl)
      (fun n => hvalue.query (.singletonEntries n) _ rfl) (entries_lists hvalue hp)
      (closed_entries hholds) (singletonEntries_lists hvalue hp)
  | inputActionEntries =>
    exact inputActionEntriesFamily.mem_diagnostics (fun _ => rfl)
      (fun n => hvalue.query (.inputActionEntries n) _ rfl) (entries_lists hvalue hp)
      (closed_entries hholds) (inputActionEntries_lists hvalue hp)
  | sceneAssets =>
    exact sceneAssetsFamily.mem_diagnostics (fun _ => rfl)
      (fun n => hvalue.query (.sceneAssets n) _ rfl) hp.scenes hholds.scenes.closed
      (sceneAssets_lists hvalue hp)
  | scannedClasses =>
    exact scannedClassesFamily.mem_diagnostics (fun _ => rfl)
      (fun n => hvalue.query (.scannedClasses n) _ rfl) hp.types hholds.types.closed hscanned
  | singletonClasses =>
    exact singletonClassesFamily.mem_diagnostics (fun _ => rfl)
      (fun n => hvalue.query (.singletonClasses n) _ rfl) hscanned hclosed
      (singletonClasses_lists hvalue hp hsize)
  | classRecords =>
    exact classRecordsFamily.mem_diagnostics (fun _ => rfl)
      (fun n => hvalue.query (.classRecords n) _ rfl) hscanned hclosed
      (classRecords_lists hvalue hp hsize)
  | singletonSlots =>
    exact singletonSlotsFamily.mem_diagnostics (fun _ => rfl)
      (fun n => hvalue.query (.singletonSlots n) _ rfl) (singletonPairs_lists hvalue hp hsize)
      (closed_singletonPairs hholds) (singletonSlots_lists hvalue hp hsize)
  | singletonFragments =>
    exact singletonFragmentsFamily.mem_diagnostics (fun _ => rfl)
      (fun n => hvalue.query (.singletonFragments n) _ rfl) (singletonSlots_lists hvalue hp hsize)
      ((closed_singletonPairs hholds).map _) (singletonFragments_lists hvalue hp hsize)
  | helperFragments =>
    exact helperFragmentsFamily.mem_diagnostics (fun _ => rfl)
      (fun n => hvalue.query (.helperFragments n) _ rfl) hscanned hclosed
      (helperFragments_lists hvalue hp hsize)
  | notifyFragments =>
    exact notifyFragmentsFamily.mem_diagnostics (fun _ => rfl)
      (fun n => hvalue.query (.notifyFragments n) _ rfl) hscanned hclosed
      (notifyFragments_lists hvalue hp hsize)
  | connectionFragments =>
    exact connectionFragmentsFamily.mem_diagnostics (fun _ => rfl)
      (fun n => hvalue.query (.connectionFragments n) _ rfl)
      (classConnections_lists hvalue hp hsize) (closed_classConnections hholds)
      (connectionFragments_lists hvalue hp hsize)
  | unregisteredSingletons =>
    exact unregisteredSingletonsFamily.mem_diagnostics (fun _ => rfl)
      (fun n => hvalue.query (.unregisteredSingletons n) _ rfl) hscanned hclosed
      (unregisteredSingletons_lists hvalue hp hsize)

/-- What is reported of a project is told by the outcomes of items, but for names given twice. -/
theorem mem_diagnostics_iff_told :
    d ∈ p.diagnostics c ↔ Told value d ∨ d ∈ (p.assembled c).2 := by
  have hmapped (m : Mapped) : d ∈ m.reported c p ↔ d ∈ m.handed c p ∨ m.Tells value d :=
    mem_reported hvalue hp hsize hholds m
  -- Nobody collects what the input actions report, which is what their manifests do.
  have hactions : d ∈ p.inputActionEntries.diagnostics ↔ d ∈ p.manifestEntries.diagnostics :=
    Listing.mem_diagnostics_map_value
  have hpairs : d ∈ p.singletonPairs.diagnostics ↔
      d ∈ p.singletonEntries.diagnostics ∨ d ∈ p.singletonClasses.diagnostics :=
    Listing.mem_diagnostics_join
  have hconnections : d ∈ (p.classConnections c).diagnostics ↔
      d ∈ p.classRecords.diagnostics ∨ d ∈ (p.sceneAssets c).diagnostics :=
    Listing.mem_diagnostics_join
  rw [diagnostics, Diagnostic.mem_sorted, told_iff_tells, ← not_forall_not, Mapped.forall_iff]
  simp only [Mapped.forall_iff, Mapped.reported, Mapped.handed, hholds.manifests.diagnostics,
    hholds.scenes.diagnostics, hholds.types.diagnostics, List.not_mem_nil, false_or] at hmapped
  simp only [List.mem_append]
  grind

end

theorem isRanked_of_mem (hholds : p.Holds c given) (h : d ∈ p.diagnostics c) : d.IsRanked := by
  rcases (mem_diagnostics hholds.manifests.diagnostics hholds.scenes.diagnostics
    hholds.types.diagnostics).mp h with
    ⟨-, ⟨e, rs⟩, -, hslot⟩ | ⟨-, cls, -, hclass⟩ | ⟨-, cls, -, hhelpers⟩ | hname
  · obtain ⟨-, rfl⟩ := mem_slotOf_diagnostics.mp hslot
    exact (by decide : Severity.warning.rank < 3)
  · obtain ⟨r, -, -, rfl⟩ := mem_checkRegistered.mp hclass
    exact (by decide : Severity.info.rank < 3)
  · obtain ⟨-, front, m, rest, -, -, hrefused⟩ := Fragment.renderHelpers_eq_error hhelpers
    cases hrefused <;> exact (by decide : Severity.error.rank < 3)
  · obtain ⟨f, -, -, rfl⟩ := mem_assemble_reported.mp hname
    exact (by decide : Severity.error.rank < 3)

end Project

namespace Generator

/-- The diagnostics of a result are in strict order. They are what the outcomes of items report that
are read after the run, and one diagnostic for each name shared by several of the fragments that are
made. -/
structure Reports (g : Generator) (result : GenerationResult)
    (candidates : List GeneratedFragment) : Prop where
  made : (g.ask Project.candidatesProgram).1 = .ok candidates
  kept : result.fragments = (assemble candidates).1
  read : ∀ n, ∃ v, (g.ask (readNode n)).1 = .ok v
  ordered : result.diagnostics.Pairwise fun a b => Diagnostic.compare a b = .lt
  mem_iff : ∀ d, d ∈ result.diagnostics ↔
    (∃ n report v, Generation.Node.reports n = some report ∧ (g.ask (readNode n)).1 = .ok v ∧
      d ∈ report v) ∨
    ∃ f ∈ candidates, 2 ≤ (candidates.map (·.hintName)).count f.hintName ∧ d = duplicateHintName f

/-- No diagnostic is lost or doubled by the run of a generator. -/
theorem run_reports (c : Generation.Config) (snapshots : List Snapshot) (symbols : SymbolTable)
    (h : (Table.keys symbols).Nodup) :
    ∃ result candidates, ((fed c snapshots symbols).run none).1 = .ok result ∧
      Reports ((fed c snapshots symbols).run none).2 result candidates := by
  obtain ⟨p, value, hp, hrun, hshows⟩ := run_fed c snapshots h
  obtain ⟨inputs, hvalue⟩ := hshows.exists_inputs
  have hread (n : Generation.Node) :
      ((((fed c snapshots symbols).run none).2).ask (readNode n)).1 = .ok (value n) :=
    hshows.ask (.get _) (Program.safe_get (level_lt_depth n))
  refine ⟨p.result c, p.candidates c, hrun, ?_, rfl, fun n => ⟨_, hread n⟩, ?_, fun d => ?_⟩
  · exact hshows.ask (Project.candidatesProgram_comesTo hvalue hshows.feeds rfl)
      candidatesProgram_safe
  · exact Diagnostic.pairwise_sorted fun d hd =>
      Project.isRanked_of_mem hp (Diagnostic.mem_sorted.mpr hd)
  · have hmem : d ∈ (p.result c).diagnostics ↔ Told value d ∨ d ∈ (p.assembled c).2 :=
      Project.mem_diagnostics_iff_told hvalue hshows.feeds rfl hp
    rw [hmem, Project.assembled, mem_assemble_reported]
    refine or_congr_left (exists_congr fun n => exists_congr fun report => ⟨?_, ?_⟩)
    · exact fun ⟨hreports, hd⟩ => ⟨value n, hreports, hread n, hd⟩
    · rintro ⟨v, hreports, hv, hd⟩
      obtain rfl : value n = v := Except.ok.inj ((hread n).symm.trans hv)
      exact ⟨hreports, hd⟩

theorem run_reports_jukebox : (Table.keys Jukebox.symbols).Nodup ∧ ∃ result candidates,
    ((fed Jukebox.config [Jukebox.manifest] Jukebox.symbols).run none).1 = .ok result ∧
      Reports ((fed Jukebox.config [Jukebox.manifest] Jukebox.symbols).run none).2 result
        candidates :=
  ⟨Jukebox.keyed.nodup,
    run_reports Jukebox.config [Jukebox.manifest] Jukebox.symbols Jukebox.keyed.nodup⟩

end Generator
end SceneCodegen
