import SceneCodegen.Proofs.CommandLine.Rechecking
import SceneCodegen.Proofs.Watch.Filtering
import SceneCodegen.Proofs.Watch.Following

/-!
# Sessions catch up

However changes and passes interleave, a session whose changes report whatever is new catches up:
the pass that is running in the end comes to what a new generator comes to that is fed with the
files as they are and the last types that could be read, and writes just that.
-/
namespace SceneCodegen
open Graph Generation Generator OutputDirectory

namespace WatchSession

/-- Publishing a result that can be written brings the output directory in line. -/
theorem complete_synced {s : WatchSession} {w : Workplace} {result : GenerationResult}
    (h : s.compute.outcome? = some (.ok result))
    (hready : Ready result.fragments s.outputDirectory w.files)
    (hreadable : Readable result.fragments s.outputDirectory w.files) :
    (s.complete w).1 = s.compute.commit.finish (.ok (some result)) ∧
      ∃ changes directory, Synced result.fragments s.outputDirectory directory w.files changes
        (s.complete w).2.files := by
  obtain ⟨changes, t, directory, hsync, hsynced⟩ := hready.exists_synced hreadable
  have hfiles := (Workplace.sameFiles_reportAll result.diagnostics w).files
  have hwrite : (w.reportAll result.diagnostics).writeFragments result.fragments
      s.compute.commit.outputDirectory =
        (.ok (), { w.reportAll result.diagnostics with files := t }.sayAll
          (Workplace.summary result.fragments.length changes)) := by
    rw [Workplace.writeFragments, (commit_same s.compute).outputDirectory,
      (compute_same s).outputDirectory, hfiles, hsync]
  have hcomplete : s.complete w = s.compute.commit.publish result w := by
    rw [complete, commit_pass h]
  rw [hcomplete, publish, hwrite]
  refine ⟨rfl, changes, directory, ?_⟩
  rw [(Workplace.sameFiles_sayAll _ _).files]
  exact hsynced

end WatchSession

/-- A session, the place where it works, and the trees of files it has looked at so far, the latest
first. -/
structure Course where
  session : WatchSession
  place : Workplace
  looks : List FileTree := []

namespace Course
open WatchSession Workplace

def seen (x : Course) : FileTree := x.looks.headD {}

/-- The files that an event looks at. Changes are looked into once the pass that they cancel has
ended, which may have written files meanwhile. -/
def look? : Event → Instant → Option FileTree
  | .start, (_, w) => some w.files
  | .changes starts changes, (s, w) =>
    match s.cancel starts w with
    | (.ok (), s, w) => (changes.foldlM (s.addChange w) {}).toOption.map fun _ => w.files
    | _ => none
  | _, _ => none

def after (x : Course) (e : Event) : Course :=
  let y := (e.instants (x.session, x.place)).getLastD (x.session, x.place)
  { session := y.1, place := y.2
    looks := (look? e (x.session, x.place)).toList ++ x.looks }

def begin (s : Settings) (output : Option Path) (w : Workplace) : Course :=
  { session := .new s output w, place := w }

def afterAll (x : Course) (events : List Event) : Course := events.foldl after x

/-- The project is loaded only while no pass is running, and changes report what is new by the time
when they are looked into. -/
def Admits (x : Course) : Event → Prop
  | .start => x.session.isRunning = false
  | .changes starts changes =>
    x.session.Reports (x.session.cancel starts x.place).2.2 x.seen changes
  | _ => True

/-- Each event is admitted after those before it. -/
def AdmitsAll : Course → List Event → Prop
  | _, [] => True
  | x, e :: events => x.Admits e ∧ (x.after e).AdmitsAll events

/-- What a new generator comes to that is fed with the files as they are and the last types that
could be read. -/
def fresh (x : Course) : Except (Halt Node) GenerationResult :=
  ((fed x.session.generator.config (x.session.sources x.place x.place.files)
    (lastSymbols x.place.libraries x.session.symbolsPath x.looks)).run none).1

/-- Nothing that is new since the files were last looked at is left to report. -/
def IsSeen (x : Course) : Prop := x.session.Reports x.place x.seen []

variable {x : Course} {c : Config} {orders : List Order}

theorem looks_after (x : Course) (e : Event) : x.looks ⊆ (x.after e).looks :=
  List.subset_append_right _ _

theorem looks_afterAll (x : Course) (events : List Event) :
    x.looks ⊆ (x.afterAll events).looks := by
  induction events generalizing x with
  | nil => exact fun _ ht => ht
  | cons e events ih => exact fun _ ht => ih (x.after e) (x.looks_after e ht)

theorem isClosed_after (x : Course) (e : Event) :
    (x.after e).session.isClosed = x.session.isClosed := by
  obtain ⟨s, w, looks⟩ := x
  cases e with
  | edit files => rfl
  | start =>
    show (s.start w).2.1.isClosed = _
    obtain ⟨generation, pass, hsubmit⟩ := thenSubmit_spec loadIn s w
    rw [start_eq, hsubmit]
    rfl
  | changes starts changes =>
    show (s.applyChanges starts changes w).2.1.isClosed = _
    obtain ⟨generation, pass, hsubmit⟩ := thenSubmit_spec (takeOver starts changes) s w
    rw [applyChanges_eq, hsubmit]
    exact (takeOver_same starts changes s w).isClosed
  | compute => exact (compute_same s).isClosed
  | commit => exact (commit_same s).isClosed
  | wait => exact (complete_same s w).isClosed

theorem isClosed_afterAll (x : Course) (events : List Event) :
    (x.afterAll events).session.isClosed = x.session.isClosed := by
  induction events generalizing x with
  | nil => rfl
  | cons e events ih => exact (ih (x.after e)).trans (x.isClosed_after e)

/-- Files that are as they were looked at last leave nothing to report. -/
theorem isSeen_of_files_eq (h : x.place.files = x.seen) : x.IsSeen where
  there rest bytes _ hat hnew := by
    rw [h] at hat
    rcases hnew with hnew | ⟨c, hc, -⟩
    · exact absurd hat hnew
    · cases hc
  gone rest bytes _ hat hgone := by
    rw [h] at hgone
    exact absurd hat (hgone bytes)
  symbols hnew := absurd (by rw [h]) hnew
  nothingElse := nofun

/-- Each event leads from orders behind the session to more of them. -/
theorem driven_after (h : Driven c orders x.session x.place x.looks) {e : Event}
    (hadmits : x.Admits e) (hsound : ∀ t ∈ (x.after e).looks, t.Sound) :
    ∃ orders', Driven c orders' (x.after e).session (x.after e).place (x.after e).looks := by
  have hseen : x.seen.Sound := by
    rw [seen]
    cases hlooks : x.looks with
    | nil => exact FileTree.sound_empty
    | cons t looks => exact hsound t (x.looks_after e (hlooks ▸ List.mem_cons_self))
  obtain ⟨s, w, looks⟩ := x
  cases e with
  | edit files => exact ⟨orders, h.edited files⟩
  | start => exact h.starts hadmits (hsound w.files List.mem_cons_self)
  | changes starts changes =>
    by_cases htaken : ∃ s' w' e, s.cancel starts w = (.ok (), s', w') ∧
        changes.foldlM (s'.addChange w') {} = .ok e
    · obtain ⟨s', w', e, hcancel, hfold⟩ := htaken
      have hlook : look? (.changes starts changes) (s, w) = some w'.files := by
        simp only [look?, hcancel, hfold]
        rfl
      have hpaths := (cancel_same starts s w).1
      simp only [after, hlook] at hsound ⊢
      simp only [Admits, hcancel] at hadmits hpaths
      exact h.changes hcancel hfold (hsound w'.files List.mem_cons_self) hseen
        (hadmits.congr hpaths (.refl w'))
    · have hlook : look? (.changes starts changes) (s, w) = none := by
        simp only [look?]
        split
        · next s' w' hcancel =>
          cases hfold : changes.foldlM (s'.addChange w') {} with
          | ok e => exact absurd ⟨s', w', e, hcancel, hfold⟩ htaken
          | error fault => rfl
        · rfl
      simp only [after, hlook]
      exact h.keeps fun s' w' hcancel e hfold => htaken ⟨s', w', e, hcancel, hfold⟩
  | compute => exact h.computes
  | commit => exact ⟨orders, h.commits⟩
  | wait => exact h.completes

theorem driven_afterAll (h : Driven c orders x.session x.place x.looks) {events : List Event}
    (hadmits : x.AdmitsAll events) (hsound : ∀ t ∈ (x.afterAll events).looks, t.Sound) :
    ∃ orders', Driven c orders' (x.afterAll events).session (x.afterAll events).place
      (x.afterAll events).looks := by
  -- Trees are only added to those looked at, so all of them are sound if the last ones are.
  induction events generalizing x orders with
  | nil => exact ⟨orders, h⟩
  | cons e events ih =>
    obtain ⟨orders', h'⟩ := driven_after h hadmits.1 fun t ht =>
      hsound t ((x.after e).looks_afterAll events ht)
    exact ih h' hadmits.2 hsound

theorem driven_begin {s : Settings} {output : Option Path} {w : Workplace}
    (h : (WatchSession.new s output w).SetUp) : Driven (w.newGenerator s).config []
      (begin s output w).session (begin s output w).place (begin s output w).looks := by
  refine Follows.driven ⟨⟨fun path => ?_, rfl, nofun, nofun⟩, h, rfl, rfl, rfl⟩ rfl
  refine (Option.eq_none_iff_forall_ne_some.mpr fun a ha => ?_).symm
  exact h.not_mem_sources_empty w a ((h.lastUnder_sources FileTree.sound_empty).mp ha).1

/-- Paths that were read from texts set a session up, if its symbol document is no asset by name. -/
theorem setUp_new {s : Settings} (output : Option Path) {w : Workplace}
    (hroot : s.projectRoot.IsPlain) (hdirectory : w.directory.IsPlain)
    (hsymbols : AssetFiles.isAsset s.manifestName s.sceneExtension
      (s.resolvedSymbolsPath w.origin).text = false) :
    (WatchSession.new s output w).SetUp where
  plain := Settings.isPlain_resolvedProjectRoot hdirectory hroot
  anchor := rfl
  straight := Path.parent_notMem_collapse _
  root := rfl
  symbols rest hsource hsame := by
    have hasset := hsource.input.asset
    rw [← sourcePath, hsame] at hasset
    exact absurd hasset (by rw [Bool.not_eq_true]; exact hsymbols)

/-- A pass that runs while everything new was seen comes to the result of a new generator. -/
theorem exists_fresh (h : Driven c orders x.session x.place x.looks)
    (htell : Tellable x.session x.place x.looks) (hsound : x.place.files.Sound)
    (hseen : x.IsSeen) (hrunning : x.session.isRunning = true) :
    ∃ result, x.fresh = .ok result ∧ x.session.compute.outcome? = some (.ok result) := by
  obtain ⟨orders', h'⟩ := h.computes
  have hpaths := compute_same x.session
  obtain ⟨r, hr⟩ := exists_outcome hrunning
  obtain ⟨result, rfl, hresult⟩ := h'.result_eq (htell.congr hpaths (.refl x.place)) hsound
    (hseen.congr hpaths (.refl x.place)) hr
  refine ⟨result, ?_, hr⟩
  rw [fresh, h.config, ← hpaths.symbolsPath, ← sources_congr hpaths.config (.refl x.place)]
  exact hresult

/-- What a new generator comes to has well-named fragments. -/
theorem wellNamed_fresh {result : GenerationResult} (h : x.fresh = .ok result) :
    WellNamed result.fragments :=
  CommandLine.wellNamed_of_run_fed
    (nodup_lastSymbols x.place.libraries x.session.symbolsPath x.looks) h

/-- No generated file of a directory is a source. -/
def Apart (x : Course) (directory : Place) : Prop :=
  ∀ name rest, Text.hasSuffix generatedSuffix name = true → x.session.IsSource rest →
    (x.session.sourcePath rest).parts ≠ directory ++ [name]

/-- The end of a pass leaves what a new generator comes to as it is, if it writes no source. -/
theorem fresh_after_wait (hs : x.session.SetUp) {result : GenerationResult} {changes : Changes}
    {directory : Place} (hsound : x.place.files.Sound)
    (hsynced : Synced result.fragments x.session.outputDirectory directory x.place.files changes
      (x.after .wait).place.files) (hapart : x.Apart directory) :
    (x.after .wait).fresh = x.fresh := by
  have hplace : SamePlace x.place (x.after .wait).place := (complete_spec x.session x.place).2.2
  have hpaths : SamePaths x.session (x.after .wait).session := complete_same x.session x.place
  rw [fresh, fresh, hpaths.config, hpaths.symbolsPath, hplace.libraries,
    sources_congr hpaths.config hplace]
  refine run_fed_congr _ (nodup_lastSymbols _ _ _) fun path => ?_
  refine hs.lastUnder_congr hsynced.sound hsound fun rest bytes hsource _ => ?_
  refine hsynced.others _ bytes fun name hname => ?_
  exact hapart name rest (hsynced.suffixed name hname) hsource

/-- However things happen to a session, its inputs change only while no pass is running, passes come
one after another, and each writes all of what it computed or nothing; changes that arrive lead to a
new pass exactly if the pass before ends without a fault, their files can be read and the symbol
document is read or to blame; a pass that is cancelled ends with a fault only if it was writing by
then and met the fault in doing so; and a pass that runs in the end, after changes that reported
whatever was new, comes to the result of a new generator on the files as they are and brings the
output directory in line with it. -/
theorem catches_up (s : Settings) (output : Option Path) (w : Workplace) (events : List Event) :
    let x := (begin s output w).afterAll events
    (∀ e : Event, (∀ files, e ≠ .edit files) → (e = .start → x.session.isRunning = false) →
      ((x.session, x.place) :: e.instants (x.session, x.place)).IsChain Guarded) ∧
    (∀ starts changes, (x.after (.changes starts changes)).session.isRunning = true ↔
      ∃ paused place, x.session.cancel starts x.place = (.ok (), paused, place) ∧
        ∃ effects, changes.foldlM (paused.addChange place) {} = .ok effects ∧
          (changes.any paused.changesSymbols = true →
            SymbolsReadable paused.symbolsPath place)) ∧
    (s.projectRoot.IsPlain → w.directory.IsPlain → AssetFiles.isAsset s.manifestName
        s.sceneExtension (s.resolvedSymbolsPath w.origin).text = false →
      (begin s output w).AdmitsAll events → Tellable x.session x.place x.looks →
      (∀ starts fault, (x.session.cancel starts x.place).1 = .error fault ↔
        ∃ result f, x.session.pass = some (.writing result) ∧ fault = .file f ∧
          f.isSystemFault = false ∧ (sync result.fragments x.session.outputDirectory
            x.place.files).1 = .error f) ∧
      (x.place.files.Sound → x.IsSeen → x.session.isRunning = true →
        ∃ result, x.fresh = .ok result ∧
          (Writable result.fragments x.session.outputDirectory x.place.files →
            Readable result.fragments x.session.outputDirectory x.place.files →
            (x.after .wait).session.result = .ok (some result) ∧
            ∃ changes directory, Synced result.fragments x.session.outputDirectory directory
                x.place.files changes (x.after .wait).place.files ∧
              (x.Apart directory → (x.after .wait).fresh = .ok result)))) := by
  intro x
  refine ⟨fun e hedit hstart => e.guarded _ hedit hstart, fun starts changes => ?_,
    fun hroot hdirectory hsymbols hadmits htell => ?_⟩
  · exact applyChanges_isRunning_iff ((begin s output w).isClosed_afterAll events)
  · have hs := setUp_new output hroot hdirectory hsymbols
    obtain ⟨orders, h⟩ := driven_afterAll (driven_begin hs) hadmits htell.sound
    refine ⟨fun starts fault => h.cancel_fault_iff htell, fun hsound hseen hrunning => ?_⟩
    obtain ⟨result, hfresh, hcomputed⟩ := exists_fresh h htell hsound hseen hrunning
    refine ⟨result, hfresh, fun hwritable hreadable => ?_⟩
    obtain ⟨hfinish, changes, directory, hsynced⟩ :=
      complete_synced hcomputed ⟨hwritable, wellNamed_fresh hfresh⟩ hreadable
    refine ⟨?_, changes, directory, hsynced, fun hapart => ?_⟩
    · show (x.session.complete x.place).1.result = _
      rw [hfinish]
      rfl
    · rw [fresh_after_wait h.setUp hsound hsynced hapart, hfresh]

end Course

namespace CommandLine.Arcade
open WatchSession AssetFiles

def manifestOf (action : String) : List UInt8 := Text.Utf8.encode ("[input]\n" ++ action ++ "=\n")

def treeOf (action : String) (symbols : List UInt8) : FileTree := ⟨[(["game"], .directory),
  (["game", "project.godot"], .file (manifestOf action)),
    (["game", "symbols.json"], .file symbols)]⟩

/-- The tree before its action got another name. -/
def oldTree : FileTree := treeOf "leap" (Text.Utf8.encode "\x7b\x7d")

/-- The tree with a symbol document that is no text. -/
def spoiltTree : FileTree := treeOf "jump" [0xff]

def opening : Course := .begin settings none { place with files := oldTree }

def manifestChange : Change := ⟨.modified, "/game/project.godot"⟩

def symbolsChange : Change := ⟨.modified, "/game/symbols.json"⟩

structure Watches (s : WatchSession) : Prop where
  root : s.projectRoot = .ofText "/game"
  symbolsPath : s.symbolsPath = .ofText "/game/symbols.json"
  output : s.outputDirectory = output
  config : s.generator.config = (place.newGenerator settings).config
  isClosed : s.isClosed = false

theorem watches_opening : Watches opening.session where
  root := by decide
  symbolsPath := by decide
  output := by decide
  config := by
    have hplace : place.SamePlace { place with files := oldTree } := ⟨rfl, rfl, rfl⟩
    exact congrArg Generator.config (hplace.newGenerator_eq settings)
  isClosed := rfl

/-- A tree with no other places than the game. -/
def Within (t : FileTree) : Prop := t.entries.keys ⊆ tree.entries.keys

theorem within_tree : Within tree := fun _ h => h

theorem within_treeOf (action : String) (symbols : List UInt8) : Within (treeOf action symbols) :=
  (by decide : [["game"], ["game", "project.godot"], ["game", "symbols.json"]] ⊆ tree.entries.keys)

theorem ofText_manifest :
    Path.ofText manifestChange.path = ⟨.root, ["game", "project.godot"]⟩ := by decide

theorem ofText_symbols : Path.ofText "/game/symbols.json" = ⟨.root, ["game", "symbols.json"]⟩ := by
  decide

namespace Watches
variable {s s' : WatchSession} {w : Workplace} {t : FileTree} (h : Watches s)
include h

theorem of_same (hpaths : SamePaths s s') : Watches s' :=
  ⟨hpaths.projectRoot.trans h.root, hpaths.symbolsPath.trans h.symbolsPath,
    hpaths.outputDirectory.trans h.output, hpaths.config.trans h.config,
    hpaths.isClosed.trans h.isClosed⟩

theorem setUp : s.SetUp where
  plain := by
    rw [h.root]
    exact Path.isPlain_ofText _
  anchor := by
    rw [h.root]
    rfl
  straight := by
    rw [h.root]
    decide
  root := by
    rw [h.root, h.config]
    decide
  symbols rest hsource hsame := by
    have hasset := hsource.input.asset
    rw [← sourcePath, hsame, h.symbolsPath, h.config] at hasset
    exact absurd hasset (by decide)

theorem isSource : s.IsSource ["project.godot"] := by
  refine ⟨⟨by simp, rfl, ?_⟩, by decide⟩
  rw [h.config, h.root]
  decide

theorem sourcePath_parts (rest : Place) : (s.sourcePath rest).parts = "game" :: rest := by
  rw [WatchSession.sourcePath_parts, h.root]
  rfl

theorem sourcePath_eq : s.sourcePath ["project.godot"] = Path.ofText manifestChange.path := by
  rw [ofText_manifest, sourcePath, h.root]
  rfl

/-- The manifest is the one source. -/
theorem eq_of_isSource (ht : Within t) {rest : Place} {bytes : List UInt8}
    (hsource : s.IsSource rest) (hat : t.at? (s.sourcePath rest).parts = some (.file bytes)) :
    rest = ["project.godot"] := by
  rw [h.sourcePath_parts] at hat
  have hasset := hsource.input.asset
  rw [h.config, h.root] at hasset
  have hmem := ht (FileTree.Sound.mem_keys_of_at? (List.cons_ne_nil _ _) hat)
  simp only [tree, Table.keys, List.map_cons, List.map_nil, List.mem_cons, List.cons.injEq,
    true_and, List.not_mem_nil, or_false] at hmem
  rcases hmem with rfl | rfl | rfl | rfl | rfl | rfl
  · exact absurd rfl hsource.input.below
  · rfl
  · exact absurd hasset (by decide)
  · exact absurd hasset (by decide)
  · exact absurd hsource.input.searched (by decide)
  · exact absurd hsource.input.searched (by decide)

theorem changes_symbols : s.changesSymbols symbolsChange = true := by
  rw [changesSymbols, h.symbolsPath]
  decide

theorem manifest_notSymbols : s.changesSymbols manifestChange = false := by
  rw [changesSymbols, h.symbolsPath]
  decide

/-- A change of the manifest, with one of the symbol document if that is new, reports
what is new. -/
theorem reports {seen : FileTree} {changes : List Change} (hfiles : Within w.files)
    (hseen : Within seen) (hmanifest : manifestChange ∈ changes)
    (hsymbols : w.files.entry (.ofText "/game/symbols.json") ≠
      seen.entry (.ofText "/game/symbols.json") → symbolsChange ∈ changes)
    (hothers : ∀ c ∈ changes, c = manifestChange ∨ c = symbolsChange) :
    s.Reports w seen changes where
  there rest bytes hsource hat _ := by
    obtain rfl := h.eq_of_isSource hfiles hsource hat
    exact ⟨manifestChange, hmanifest, by decide, h.sourcePath_eq.symm⟩
  gone rest bytes hsource hat _ := by
    obtain rfl := h.eq_of_isSource hseen hsource hat
    exact ⟨manifestChange, hmanifest, h.sourcePath_eq.symm⟩
  symbols hnew := by
    rw [h.symbolsPath] at hnew
    exact ⟨symbolsChange, hsymbols hnew, h.changes_symbols⟩
  nothingElse c hc bytes hin _ := by
    rcases hothers c hc with rfl | rfl
    · exact ⟨_, h.isSource, h.sourcePath_eq.symm⟩
    · exact absurd hin.notSymbols (by simp [h.changes_symbols])

theorem foldlM_change (hfiles : w.files = tree) : [manifestChange].foldlM (s.addChange w) {} =
    .ok { snapshots := [s.snapshotOf w manifestChange (manifestOf "jump")] } := by
  have hentry : w.files.entry (.ofText manifestChange.path) w.directory =
      .ok (.file (manifestOf "jump")) := by
    rw [hfiles, FileTree.entry_of_isAbsolute (by decide)]
    refine FileTree.entry_eq_file_iff.mpr ⟨["game", "project.godot"], ?_, by decide⟩
    refine FileTree.locate_of_walk ?_ (by decide) rfl
    simp [Path.hasNull, ofText_manifest]
  have hsymbols : ((Path.ofText manifestChange.path).text == s.symbolsPath.text) = false :=
    h.manifest_notSymbols
  have hkind : (manifestChange.kind == .deleted) = false := rfl
  simp only [List.foldlM_cons, List.foldlM_nil, addChange, hsymbols, hkind, FileTree.isFile,
    FileTree.probe, FileTree.readBytes, hentry]
  rfl

end Watches

theorem Watches.submitted {step : WatchSession.Step} {s : WatchSession} {w : Workplace}
    (h : Watches (step s w).2.1) : Watches (thenSubmit step s w).2.1 := by
  obtain ⟨generation, pass, hsubmit⟩ := thenSubmit_spec step s w
  rw [hsubmit]
  exact ⟨h.root, h.symbolsPath, h.output, h.config, h.isClosed⟩

theorem entry_symbols {t : FileTree} (ht : t.Sound) {bytes : List UInt8}
    (hat : t.at? ["game", "symbols.json"] = some (.file bytes)) :
    t.entry (.ofText "/game/symbols.json") = .ok (.file bytes) := by
  refine FileTree.entry_eq_file_iff.mpr ⟨["game", "symbols.json"], ?_, hat⟩
  refine FileTree.locate_of_walk ?_ (by decide) ?_
  · simp [Path.hasNull, ofText_symbols]
  · rw [ofText_symbols]
    exact ht.walk_eq hat

theorem sound_oldTree : oldTree.Sound := by decide

theorem sound_spoiltTree : spoiltTree.Sound := by decide

theorem entry_symbols_tree :
    tree.entry (.ofText "/game/symbols.json") = .ok (.file (Text.Utf8.encode "\x7b\x7d")) :=
  entry_symbols sound_tree rfl

theorem entry_symbols_oldTree :
    oldTree.entry (.ofText "/game/symbols.json") = .ok (.file (Text.Utf8.encode "\x7b\x7d")) :=
  entry_symbols sound_oldTree rfl

theorem symbolsIn_eq {t : FileTree} (h : t.entry (.ofText "/game/symbols.json") =
    .ok (.file (Text.Utf8.encode "\x7b\x7d"))) :
    Workplace.symbolsIn .standard (.ofText "/game/symbols.json") t = .ok [] := by
  have hentry : ({ files := t } : Workplace).files.entry (.ofText "/game/symbols.json") =
      .ok (.file (Text.Utf8.encode "\x7b\x7d")) := h
  rw [Workplace.symbolsIn, Workplace.loadSymbols_of_entry hentry, Workplace.symbolsOf,
    textOf_encode]
  rfl

theorem Watches.text_of_mem {s : WatchSession} {w : Workplace} (h : Watches s) {t : FileTree}
    (ht : t.Sound) (hwithin : Within t) {bytes : List UInt8}
    (hmanifest : t.at? ["game", "project.godot"] = some (.file bytes)) {a : Snapshot}
    (ha : a ∈ s.sources w t) :
    a.text = String.ofList (Text.plainLineEnds (Text.Utf8.decodeReplacing bytes).toList) := by
  obtain ⟨rest, bytes', hsource, hat, rfl⟩ := (h.setUp.mem_sources_iff ht).mp ha
  obtain rfl := h.eq_of_isSource hwithin hsource hat
  rw [h.sourcePath_parts, hmanifest] at hat
  cases hat
  rfl

theorem Watches.tellable {s : WatchSession} (h : Watches s) {w : Workplace}
    (hlibraries : w.libraries = .standard) : Tellable s w [tree, oldTree] where
  sound := by simp [sound_tree, sound_oldTree]
  texts t ht a ha t' ht' a' ha' hsame := by
    have hjump {a : Snapshot} (ha : a ∈ s.sources w tree) : a.text = "[input]\njump=\n" :=
      (h.text_of_mem sound_tree within_tree rfl ha).trans (by decide +kernel)
    have hleap {a : Snapshot} (ha : a ∈ s.sources w oldTree) : a.text = "[input]\nleap=\n" :=
      (h.text_of_mem sound_oldTree (within_treeOf _ _) rfl ha).trans (by decide +kernel)
    have hapart : Text.sha256 "[input]\njump=\n" ≠ Text.sha256 "[input]\nleap=\n" := by
      decide +kernel
    obtain rfl | rfl : t = tree ∨ t = oldTree := by simpa using ht
    · obtain rfl | rfl : t' = tree ∨ t' = oldTree := by simpa using ht'
      · rw [hjump ha, hjump ha']
      · rw [hjump ha, hleap ha'] at hsame
        exact absurd hsame hapart
    · obtain rfl | rfl : t' = tree ∨ t' = oldTree := by simpa using ht'
      · rw [hleap ha, hjump ha'] at hsame
        exact absurd hsame.symm hapart
      · rw [hleap ha, hleap ha']
  symbols t ht table htable := by
    have hnone : Workplace.symbolsIn w.libraries s.symbolsPath t = .ok [] := by
      rw [h.symbolsPath, hlibraries]
      obtain rfl | rfl : t = tree ∨ t = oldTree := by simpa using ht
      · exact symbolsIn_eq entry_symbols_tree
      · exact symbolsIn_eq entry_symbols_oldTree
    cases hnone.symm.trans htable
    exact nofun

/-- The project was loaded, and then other programs changed its files. -/
def edited (t : FileTree) : Course := (opening.after .start).after (.edit t)

theorem watches_edited (t : FileTree) : Watches (edited t).session ∧
    (edited t).place = { place with files := t } ∧ (edited t).looks = [oldTree] := by
  have hloaded := loadIn_eq opening.session opening.place
  refine ⟨?_, ?_, rfl⟩
  · show Watches (opening.session.start opening.place).2.1
    rw [start_eq]
    refine Watches.submitted ?_
    rw [hloaded]
    have h := watches_opening
    exact ⟨h.root, h.symbolsPath, h.output, (Generator.config_follow _ _).trans h.config,
      h.isClosed⟩
  · show { (opening.session.start opening.place).2.2 with files := t } = _
    rw [start_eq, thenSubmit_place, hloaded]
    rfl

theorem isRunning_edited (t : FileTree) : (edited t).session.isRunning = true := by
  show (opening.session.start opening.place).2.1.isRunning = true
  rw [start_eq]
  refine (thenSubmit_isRunning_iff rfl rfl).mpr ?_
  have hload : opening.place.loadSymbols opening.session.symbolsPath = .ok [] := by
    rw [watches_opening.symbolsPath]
    exact symbolsIn_eq entry_symbols_oldTree
  rw [loadIn, Workplace.load, hload]

/-- The pass that begins as the project is loaded ends without a result when it is cancelled. -/
theorem cancel_edited (t : FileTree) (starts : Nat) : ∃ s' w',
    (edited t).session.cancel starts (edited t).place = (.ok (), s', w') ∧
      SamePaths (edited t).session s' ∧ Workplace.SameFiles (edited t).place w' ∧
      s'.pass = some (.finished (.ok none)) := by
  obtain ⟨hwatches, hplace, hlooks⟩ := watches_edited t
  obtain ⟨orders, hdriven⟩ : ∃ orders, Driven (opening.place.newGenerator settings).config orders
      (edited t).session (edited t).place (edited t).looks := by
    have hadmits : opening.AdmitsAll [.start, .edit t] := ⟨rfl, trivial, trivial⟩
    refine Course.driven_afterAll (Course.driven_begin watches_opening.setUp) hadmits ?_
    show ∀ u ∈ (edited t).looks, u.Sound
    simp [hlooks, sound_oldTree]
  have htell : Tellable (edited t).session (edited t).place (edited t).looks := by
    rw [hlooks]
    exact (hwatches.tellable (hplace ▸ rfl)).subset (by simp)
  have hwriting : ∀ result, (edited t).session.pass ≠ some (.writing result) := by
    refine not_writing_of_outcome? ?_
    show (opening.session.start opening.place).2.1.outcome? = none
    rw [start_eq]
    exact outcome?_thenSubmit rfl
  obtain ⟨hok, hpass⟩ := hdriven.cancel_pass htell starts (isRunning_edited t) hwriting
  obtain ⟨hpaths, hsame⟩ := cancel_same starts (edited t).session (edited t).place
  have hfiles := cancel_files starts (edited t).place hwriting
  exact ⟨_, _, Prod.ext hok rfl, hpaths, ⟨hsame, hfiles⟩, hpass⟩

theorem admits_edited {t : FileTree} {changes : List Change} (starts : Nat) (ht : Within t)
    (hmanifest : manifestChange ∈ changes)
    (hsymbols : t.entry (.ofText "/game/symbols.json") ≠
      oldTree.entry (.ofText "/game/symbols.json") → symbolsChange ∈ changes)
    (hothers : ∀ c ∈ changes, c = manifestChange ∨ c = symbolsChange) :
    opening.AdmitsAll [.start, .edit t, .changes starts changes] := by
  obtain ⟨hwatches, hplace, hlooks⟩ := watches_edited t
  obtain ⟨s', w', hcancel, -, hsame, -⟩ := cancel_edited t starts
  refine ⟨rfl, trivial, ?_, trivial⟩
  show (edited t).session.Reports ((edited t).session.cancel starts (edited t).place).2.2
    (edited t).seen changes
  rw [Course.seen, hlooks, hcancel]
  have hfiles : w'.files = t := by rw [hsame.files, hplace]
  exact hwatches.reports (hfiles ▸ ht) (within_treeOf _ _) hmanifest (hfiles ▸ hsymbols) hothers

/-- The action gets another name, and the session is told so while a pass is running. -/
def events : List Event := [.start, .edit tree, .changes 2 [manifestChange]]

def watched : Course := opening.afterAll events

theorem admits_events : opening.AdmitsAll events := by
  refine admits_edited 2 within_tree List.mem_cons_self (fun hnew => ?_) (by simp)
  rw [entry_symbols_tree, entry_symbols_oldTree] at hnew
  exact absurd rfl hnew

theorem watches_watched : Watches watched.session ∧ Workplace.SameFiles place watched.place ∧
    watched.looks = [tree, oldTree] ∧ watched.session.isRunning = true := by
  obtain ⟨hwatches, hplace, hlooks⟩ := watches_edited tree
  obtain ⟨s', w', hcancel, hpaths, hfiles, -⟩ := cancel_edited tree 2
  have hwatches' := hwatches.of_same hpaths
  have htaken := takeIn_takesIn [manifestChange] s' w'
  have htook : takeOver 2 [manifestChange] (edited tree).session (edited tree).place =
      s'.takeIn [manifestChange] w' := by
    rw [takeOver, andThen, hcancel]
  have htree : w'.files = tree := by rw [hfiles.files, hplace]
  have hfold := hwatches'.foldlM_change htree
  refine ⟨?_, ?_, ?_, ?_⟩
  · show Watches ((edited tree).session.applyChanges 2 [manifestChange] (edited tree).place).2.1
    rw [applyChanges_eq]
    refine Watches.submitted ?_
    rw [htook]
    exact hwatches'.of_same htaken.paths
  · show Workplace.SameFiles { place with files := tree }
      ((edited tree).session.applyChanges 2 [manifestChange] (edited tree).place).2.2
    rw [applyChanges_eq, thenSubmit_place, htook, ← hplace]
    exact hfiles.trans htaken.files
  · show (Course.look? (.changes 2 [manifestChange])
      ((edited tree).session, (edited tree).place)).toList ++ (edited tree).looks = _
    rw [Course.look?, hcancel]
    dsimp only
    rw [hfold, htree, hlooks]
    rfl
  · refine (applyChanges_isRunning_iff hwatches.isClosed).mpr
      ⟨s', w', hcancel, _, hfold, fun hsymbols => ?_⟩
    rw [List.any_cons, hwatches'.manifest_notSymbols] at hsymbols
    cases hsymbols

theorem fresh_eq : watched.fresh = ((Generator.fed (place.newGenerator settings).config
    (watched.session.sources watched.place watched.place.files) []).run none).1 := by
  obtain ⟨hwatches, hsame, hlooks, -⟩ := watches_watched
  have hsymbols : Workplace.lastSymbols watched.place.libraries watched.session.symbolsPath
      watched.looks = [] := by
    have hlibraries : watched.place.libraries = .standard := hsame.libraries
    rw [hlooks, hwatches.symbolsPath, hlibraries, Workplace.lastSymbols,
      symbolsIn_eq entry_symbols_tree]
  rw [Course.fresh, hsymbols, hwatches.config]

theorem hintName_of_fresh {result : GenerationResult} (h : watched.fresh = .ok result)
    {f : GeneratedFragment} (hf : f ∈ result.fragments) :
    f.hintName = Fragment.inputActionHintName := by
  have hkeys : (Table.keys ([] : SymbolTable)).Nodup := List.nodup_nil
  obtain ⟨p, value, hp, hrun, -⟩ := Generator.run_fed (place.newGenerator settings).config
    (watched.session.sources watched.place watched.place.files) hkeys
  rw [fresh_eq] at h
  obtain rfl := Except.ok.inj (hrun.symm.trans h)
  exact hintName_of_mem hp (Generation.mem_of_mem_assemble hf)

/-- The session of the game catches up with the new name of its action. -/
theorem catches_up_arcade : ∃ result, watched.fresh = .ok result ∧
    (watched.after .wait).session.result = .ok (some result) ∧
    (watched.after .wait).fresh = .ok result := by
  obtain ⟨hwatches, hsame, hlooks, hrunning⟩ := watches_watched
  have hsound : watched.place.files.Sound := hsame.files ▸ sound_tree
  have hseen : watched.IsSeen := by
    refine Course.isSeen_of_files_eq ?_
    rw [hsame.files, Course.seen, hlooks]
    rfl
  obtain ⟨result, hfresh, hwrites⟩ := ((Course.catches_up settings none opening.place events).2.2
    (Path.isPlain_ofText _) (Path.isPlain_ofText _) (by decide) admits_events
    (hlooks ▸ hwatches.tellable hsame.libraries)).2 hsound hseen hrunning
  have hreach : ∀ f ∈ result.fragments, FileTree.Reaches output f.hintName := by
    intro f hf
    rw [hintName_of_fresh hfresh hf]
    decide
  have hnone : ∀ f ∈ result.fragments, tree.at? (outputPlace ++ [f.hintName]) = none := by
    intro f hf
    rw [hintName_of_fresh hfresh hf]
    decide
  have hwritable : OutputDirectory.Writable result.fragments watched.session.outputDirectory
      watched.place.files := by
    rw [hwatches.output, hsame.files]
    exact writable hreach fun f hf => by simp [hnone f hf]
  have hreadable : OutputDirectory.Readable result.fragments watched.session.outputDirectory
      watched.place.files := by
    rw [hwatches.output, hsame.files]
    exact readable hreach hnone
  obtain ⟨hresult, changes, directory, hsynced, hagain⟩ := hwrites hwritable hreadable
  refine ⟨result, hfresh, hresult, hagain fun name rest _ hsource hparts => ?_⟩
  have hopens : FileTree.Opens watched.session.outputDirectory _ directory := hsynced.opens
  have hkeeps : FileTree.Keeps watched.place.files _ := hsynced.keeps
  rw [hwatches.output] at hopens
  rw [hsame.files] at hkeeps
  obtain rfl : directory = outputPlace := Except.ok.inj
    (hopens.locate.symm.trans (hkeeps.locate opens_output.locate))
  have hparts : "game" :: rest = outputPlace ++ [name] :=
    (hwatches.sourcePath_parts rest).symm.trans hparts
  obtain rfl : rest = [".godot", "godot_helper", name] := by simpa [outputPlace] using hparts
  have hignored : isIgnored [".godot", "godot_helper", name] = true := rfl
  exact absurd hsource.input.searched (by simp [hignored])

/-- With the manifest the symbol document is replaced, by one that is no text. -/
def spoiled : List Event := [.start, .edit spoiltTree, .changes 0 [manifestChange, symbolsChange]]

/-- The session does not catch up, all changes being reported. -/
theorem spoiled_left_behind : opening.AdmitsAll spoiled ∧
    (∃ result, (opening.afterAll spoiled).fresh = .ok result) ∧
    ((opening.afterAll spoiled).after .wait).session.result = .ok none := by
  obtain ⟨hwatches, hplace, hlooks⟩ := watches_edited spoiltTree
  refine ⟨?_, ?_, ?_⟩
  · exact admits_edited 0 (within_treeOf _ _) (by simp) (fun _ => by simp) (by simp)
  · obtain ⟨p, -, -, hrun, -⟩ := Generator.run_fed
      (opening.afterAll spoiled).session.generator.config
      ((opening.afterAll spoiled).session.sources (opening.afterAll spoiled).place
        (opening.afterAll spoiled).place.files)
      (Workplace.nodup_lastSymbols (opening.afterAll spoiled).place.libraries
        (opening.afterAll spoiled).session.symbolsPath (opening.afterAll spoiled).looks)
    exact ⟨_, hrun⟩
  · obtain ⟨s', w', hcancel, -, hfiles, hcancelled⟩ := cancel_edited spoiltTree 0
    have hentry : w'.files.entry (edited spoiltTree).session.symbolsPath =
        .ok (.file [0xff]) := by
      rw [hfiles.files, hplace, hwatches.symbolsPath]
      exact entry_symbols sound_spoiltTree rfl
    obtain ⟨fault, hfault⟩ : ∃ fault, FileTree.textOf [0xff] = .error fault := by
      have hbad : (FileTree.textOf [0xff]).isOk = false := by decide +kernel
      cases htext : FileTree.textOf [0xff] with
      | error fault => exact ⟨fault, rfl⟩
      | ok text =>
        rw [htext] at hbad
        cases hbad
    have hpass : (opening.afterAll spoiled).session.pass = some (.finished (.ok none)) := by
      refine (applyChanges_pass_of_undecodable ?_ (hcancel ▸ hentry) hfault).trans
        (hcancel ▸ hcancelled)
      exact List.any_eq_true.mpr ⟨symbolsChange, by simp, hwatches.changes_symbols⟩
    have hidle : (opening.afterAll spoiled).session.isRunning = false := isRunning_of_pass hpass
    show ((opening.afterAll spoiled).session.complete (opening.afterAll spoiled).place).1.result = _
    rw [complete_of_idle _ hidle, result, hpass]

end CommandLine.Arcade
end SceneCodegen
