import SceneCodegen.Proofs.Workplace
import SceneCodegen.Watch.Session

/-!
# What the steps of a session leave alone

Cancelling a pass keeps the paths of the session, and changes no file unless the pass is writing by
then. The symbol document is read again whenever a change of its path is among those taken in.
-/
namespace SceneCodegen

namespace Workplace

/-- The libraries and the environment are the same, and so is the working directory. -/
structure SamePlace (w w' : Workplace) : Prop where
  libraries : w'.libraries = w.libraries
  directory : w'.directory = w.directory
  environment : w'.environment = w.environment

theorem SamePlace.refl (w : Workplace) : SamePlace w w := ⟨rfl, rfl, rfl⟩

theorem SamePlace.trans {w w' w'' : Workplace} (h : SamePlace w w') (h' : SamePlace w' w'') :
    SamePlace w w'' :=
  ⟨h'.libraries.trans h.libraries, h'.directory.trans h.directory,
    h'.environment.trans h.environment⟩

/-- Paths start where they did. -/
theorem SamePlace.origin_eq {w w' : Workplace} (h : SamePlace w w') : w'.origin = w.origin := by
  have hhome : w'.homeOf = w.homeOf := by
    funext user
    rw [homeOf, homeOf, h.environment, h.libraries]
  rw [origin, origin, h.directory, hhome]

theorem SamePlace.newGenerator_eq {w w' : Workplace} (h : SamePlace w w') (s : Settings) :
    w'.newGenerator s = w.newGenerator s := by
  rw [newGenerator, newGenerator, h.origin_eq, h.directory]

/-- The files are the same as well. -/
structure SameFiles (w w' : Workplace) : Prop extends SamePlace w w' where
  files : w'.files = w.files

theorem SameFiles.refl (w : Workplace) : SameFiles w w := ⟨.refl w, rfl⟩

theorem SameFiles.trans {w w' w'' : Workplace} (h : SameFiles w w') (h' : SameFiles w' w'') :
    SameFiles w w'' := ⟨h.toSamePlace.trans h'.toSamePlace, h'.files.trans h.files⟩

theorem sameFiles_say (line : String) (w : Workplace) : SameFiles w (w.say line) :=
  ⟨⟨rfl, rfl, rfl⟩, rfl⟩

theorem sameFiles_complain (line : String) (w : Workplace) : SameFiles w (w.complain line) :=
  ⟨⟨rfl, rfl, rfl⟩, rfl⟩

theorem sameFiles_foldl {α : Type} {step : Workplace → α → Workplace}
    (h : ∀ w a, SameFiles w (step w a)) (l : List α) (w : Workplace) :
    SameFiles w (l.foldl step w) := by
  induction l generalizing w with
  | nil => exact .refl w
  | cons a l ih => exact (h w a).trans (ih (step w a))

theorem sameFiles_sayAll (lines : List String) (w : Workplace) : SameFiles w (w.sayAll lines) :=
  sameFiles_foldl (fun w line => sameFiles_say line w) lines w

theorem sameFiles_complainAll (lines : List String) (w : Workplace) :
    SameFiles w (w.complainAll lines) :=
  sameFiles_foldl (fun w line => sameFiles_complain line w) lines w

theorem sameFiles_report (w : Workplace) (d : Diagnostic) : SameFiles w (w.report d) := by
  unfold report
  split
  · exact sameFiles_say _ w
  · exact sameFiles_complain _ w

theorem sameFiles_reportAll (ds : List Diagnostic) (w : Workplace) :
    SameFiles w (w.reportAll ds) := sameFiles_foldl sameFiles_report ds w

end Workplace

namespace WatchSession
open Workplace

/-- The paths of the session are the same, and so is what is known of its passes. -/
structure SamePaths (s s' : WatchSession) : Prop where
  projectRoot : s'.projectRoot = s.projectRoot
  symbolsPath : s'.symbolsPath = s.symbolsPath
  outputDirectory : s'.outputDirectory = s.outputDirectory
  config : s'.generator.config = s.generator.config
  generation : s'.generation = s.generation
  isClosed : s'.isClosed = s.isClosed

theorem SamePaths.refl (s : WatchSession) : SamePaths s s := ⟨rfl, rfl, rfl, rfl, rfl, rfl⟩

theorem SamePaths.trans {s s' s'' : WatchSession} (h : SamePaths s s') (h' : SamePaths s' s'') :
    SamePaths s s'' :=
  ⟨h'.projectRoot.trans h.projectRoot, h'.symbolsPath.trans h.symbolsPath,
    h'.outputDirectory.trans h.outputDirectory, h'.config.trans h.config,
    h'.generation.trans h.generation, h'.isClosed.trans h.isClosed⟩

theorem samePaths_finish (r : Except Fault (Option GenerationResult)) (s : WatchSession) :
    SamePaths s (s.finish r) := ⟨rfl, rfl, rfl, rfl, rfl, rfl⟩

theorem samePaths_run (token : Graph.Token) (s : WatchSession) : SamePaths s (s.run token).2 :=
  ⟨rfl, rfl, rfl, rfl, rfl, rfl⟩

theorem abandon_spec (halt : Graph.Halt Generation.Node) (s : WatchSession) (w : Workplace) :
    (∃ r, (s.abandon halt w).1 = s.finish r) ∧ SameFiles w (s.abandon halt w).2 := by
  unfold abandon
  split
  · exact ⟨⟨_, rfl⟩, .refl w⟩
  · refine ⟨⟨_, rfl⟩, ?_⟩
    dsimp only
    split
    · exact sameFiles_say _ w
    · exact sameFiles_complain _ w

/-- Publishing ends the pass and writes its result. -/
theorem publish_spec (result : GenerationResult) (s : WatchSession) (w : Workplace) :
    (∃ r, (s.publish result w).1 = s.finish r) ∧
      SamePlace w (s.publish result w).2 ∧
      (s.publish result w).2.files =
        (OutputDirectory.sync result.fragments s.outputDirectory w.files).2 := by
  obtain ⟨hplace, hfiles⟩ := sameFiles_reportAll result.diagnostics w
  unfold publish writeFragments
  rw [hfiles]
  generalize OutputDirectory.sync result.fragments s.outputDirectory w.files = out
  obtain ⟨written, files⟩ := out
  cases written with
  | ok changes =>
    obtain ⟨hkept, hsaid⟩ := sameFiles_sayAll (summary result.fragments.length changes)
      { w.reportAll result.diagnostics with files }
    exact ⟨⟨_, rfl⟩, hplace.trans ⟨hkept.libraries, hkept.directory, hkept.environment⟩, hsaid⟩
  | error fault =>
    dsimp only
    split <;> exact ⟨⟨_, rfl⟩, ⟨hplace.libraries, hplace.directory, hplace.environment⟩, rfl⟩

/-- What comes of writing a result, which ends with a fault if the fault is not of the system. -/
theorem publish_result (result : GenerationResult) (s : WatchSession) (w : Workplace) :
    (s.publish result w).1.result =
      match (OutputDirectory.sync result.fragments s.outputDirectory w.files).1 with
      | .ok _ => .ok (some result)
      | .error fault => if fault.isSystemFault then .ok none else .error (.file fault) := by
  unfold publish writeFragments
  rw [(sameFiles_reportAll result.diagnostics w).files]
  generalize OutputDirectory.sync result.fragments s.outputDirectory w.files = out
  obtain ⟨written, files⟩ := out
  cases written with
  | ok changes => rfl
  | error fault =>
    dsimp only
    split <;> rfl

theorem isRunning_of_pass {s : WatchSession} {pass : Pass} (h : s.pass = some pass) :
    s.isRunning = pass.isRunning := by
  rw [isRunning, h]
  rfl

theorem isRunning_finish (r : Except Fault (Option GenerationResult)) (s : WatchSession) :
    (s.finish r).isRunning = false := rfl

/-- A pass that is running is waiting, has a result, has none, or is writing. -/
theorem isRunning_cases {s : WatchSession} (h : s.isRunning = true) : s.pass = some .waiting ∨
    (∃ result, s.pass = some (.computed (.ok result))) ∨
    (∃ halt, s.pass = some (.computed (.error halt))) ∨
    ∃ result, s.pass = some (.writing result) := by
  cases hpass : s.pass with
  | none => simp [isRunning, hpass] at h
  | some pass =>
    match pass with
    | .waiting => exact .inl rfl
    | .computed (.ok result) => exact .inr (.inl ⟨result, rfl⟩)
    | .computed (.error halt) => exact .inr (.inr (.inl ⟨halt, rfl⟩))
    | .writing result => exact .inr (.inr (.inr ⟨result, rfl⟩))
    | .finished r => simp [isRunning, hpass, Pass.isRunning] at h

/-- A pass that is cancelled ends without having written anything, unless it writes all it has. -/
theorem unwind_cases (starts : Nat) {s : WatchSession} (w : Workplace) (h : s.isRunning = true) :
    (∃ token r, (s.unwind starts w).1 = (s.run token).2.finish r ∧
        SameFiles w (s.unwind starts w).2) ∨
      (∃ r, (s.unwind starts w).1 = s.finish r ∧ SameFiles w (s.unwind starts w).2) ∨
      ∃ result, s.pass = some (.writing result) ∧ s.unwind starts w = s.publish result w := by
  rcases isRunning_cases h with hpass | ⟨result, hpass⟩ | ⟨halt, hpass⟩ | ⟨result, hpass⟩
  · refine .inl ⟨{ generation := s.generation, startsLeft := some starts }, ?_⟩
    rw [unwind, hpass]
    dsimp only
    generalize s.run { generation := s.generation, startsLeft := some starts } = out
    obtain ⟨result, s'⟩ := out
    cases result with
    | ok result => exact ⟨_, rfl, .refl w⟩
    | error halt =>
      obtain ⟨⟨r, hfinish⟩, hfiles⟩ := abandon_spec halt s' w
      exact ⟨r, hfinish, hfiles⟩
  · rw [unwind, hpass]
    exact .inr (.inl ⟨_, rfl, .refl w⟩)
  · obtain ⟨⟨r, hfinish⟩, hfiles⟩ := abandon_spec halt s w
    rw [unwind, hpass]
    exact .inr (.inl ⟨r, hfinish, hfiles⟩)
  · rw [unwind, hpass]
    exact .inr (.inr ⟨result, rfl, rfl⟩)

/-- A pass that is not running is not cancelled. -/
theorem cancel_of_idle {s : WatchSession} (starts : Nat) (w : Workplace)
    (h : s.isRunning = false) : s.cancel starts w = (.ok (), s, w) := by
  rw [cancel, if_neg (Bool.eq_false_iff.mp h)]

/-- Cancelling a pass keeps the paths. -/
theorem cancel_same (starts : Nat) (s : WatchSession) (w : Workplace) :
    SamePaths s (s.cancel starts w).2.1 ∧ SamePlace w (s.cancel starts w).2.2 := by
  unfold cancel
  split
  · next hrunning =>
    dsimp only
    rcases unwind_cases starts w hrunning with ⟨token, r, hfinish, hfiles⟩ | ⟨r, hfinish, hfiles⟩ |
      ⟨result, -, hpublish⟩
    · rw [hfinish]
      exact ⟨(samePaths_run token s).trans (samePaths_finish r _), hfiles.toSamePlace⟩
    · rw [hfinish]
      exact ⟨samePaths_finish r s, hfiles.toSamePlace⟩
    · obtain ⟨⟨r, hfinish⟩, hplace, -⟩ := publish_spec result s w
      rw [hpublish, hfinish]
      exact ⟨samePaths_finish r s, hplace⟩
  · exact ⟨.refl s, .refl w⟩

/-- Cancelling a pass that is not yet writing changes no file. -/
theorem cancel_files (starts : Nat) {s : WatchSession} (w : Workplace)
    (h : ∀ result, s.pass ≠ some (.writing result)) :
    (s.cancel starts w).2.2.files = w.files := by
  unfold cancel
  split
  · next hrunning =>
    rcases unwind_cases starts w hrunning with ⟨-, -, -, hfiles⟩ | ⟨-, -, hfiles⟩
      | ⟨result, hpass, -⟩
    · exact hfiles.files
    · exact hfiles.files
    · exact absurd hpass (h result)
  · rfl

/-- Cancelling a pass that is writing raises what its writing fails with. -/
theorem cancel_writing {s : WatchSession} {w : Workplace} {result : GenerationResult}
    {starts : Nat} {fault : Fault} (h : s.pass = some (.writing result)) :
    (s.cancel starts w).1 = .error fault ↔ ∃ f, fault = .file f ∧ f.isSystemFault = false ∧
      (OutputDirectory.sync result.fragments s.outputDirectory w.files).1 = .error f := by
  have hrunning : s.isRunning = true := isRunning_of_pass h
  rw [cancel, if_pos hrunning, unwind, h]
  dsimp only
  rw [publish_result]
  cases (OutputDirectory.sync result.fragments s.outputDirectory w.files).1 with
  | ok changes => simp [Except.map]
  | error f =>
    constructor
    · intro hfault
      cases hsystem : f.isSystemFault with
      | true => simp [Except.map, hsystem] at hfault
      | false =>
        simp only [Except.map, hsystem, Bool.false_eq_true, if_false, Except.error.injEq] at hfault
        exact ⟨f, hfault.symm, hsystem, rfl⟩
    · rintro ⟨f', rfl, hsystem, hf⟩
      cases hf
      simp [Except.map, hsystem]

def changesSymbols (s : WatchSession) (c : Change) : Bool :=
  (Path.ofText c.path).text == s.symbolsPath.text

theorem SamePaths.changesSymbols_eq {s s' : WatchSession} (h : SamePaths s s') :
    s'.changesSymbols = s.changesSymbols := by
  funext c
  rw [changesSymbols, changesSymbols, h.symbolsPath]

theorem reloadsSymbols_addChange {s : WatchSession} {w : Workplace} {e e' : Effects} {c : Change}
    (h : s.addChange w e c = .ok e') :
    e'.reloadsSymbols = (e.reloadsSymbols || s.changesSymbols c) := by
  unfold addChange at h
  rw [changesSymbols]
  dsimp only at h
  split at h
  · next hsymbols =>
    obtain rfl := Except.ok.inj h
    simp [hsymbols]
  · next hsymbols =>
    have hkeep : e'.reloadsSymbols = e.reloadsSymbols := by
      split at h
      · obtain rfl := Except.ok.inj h
        rfl
      · cases hfile : w.files.isFile (Path.ofText c.path) w.directory with
        | error fault => simp [hfile, Except.mapError, bind, Except.bind] at h
        | ok found =>
          cases found with
          | false =>
            simp [hfile, Except.mapError, bind, Except.bind, pure, Except.pure] at h
            rw [← h]
          | true =>
            cases hbytes : w.files.readBytes (Path.ofText c.path) w.directory with
            | error fault =>
              simp [hfile, hbytes, Except.mapError, bind, Except.bind] at h
            | ok bytes =>
              simp [hfile, hbytes, Except.mapError, bind, Except.bind, pure, Except.pure] at h
              rw [← h]
    rw [hkeep, Bool.eq_false_iff.mpr hsymbols, Bool.or_false]

/-- The document is read again if one of the changes is its own. -/
theorem reloadsSymbols_foldlM {s : WatchSession} {w : Workplace} {e e' : Effects}
    {changes : List Change} (h : changes.foldlM (s.addChange w) e = .ok e') :
    e'.reloadsSymbols = (e.reloadsSymbols || changes.any s.changesSymbols) := by
  induction changes generalizing e with
  | nil =>
    obtain rfl := Except.ok.inj h
    simp
  | cons c changes ih =>
    rw [List.foldlM_cons] at h
    cases hfirst : s.addChange w e c with
    | error fault =>
      rw [hfirst] at h
      cases h
    | ok e₁ =>
      rw [hfirst] at h
      rw [ih h, reloadsSymbols_addChange hfirst, List.any_cons, Bool.or_assoc]

/-- Once the changes are taken in, the types of a document that is read without a fault are those of
the generator. -/
theorem applyChanges_reloads {s paused : WatchSession} {w w' : Workplace} {starts : Nat}
    {changes : List Change} {e : Effects} {symbols : SymbolTable}
    (hcancel : s.cancel starts w = (.ok (), paused, w'))
    (hfold : changes.foldlM (paused.addChange w') {} = .ok e)
    (hchange : changes.any s.changesSymbols = true)
    (hload : w'.loadSymbols s.symbolsPath = .ok symbols) :
    (s.applyChanges starts changes w).2.1.generator =
      ((paused.generator.updateAssets e.snapshots e.removed).2.replaceSymbols symbols).2 := by
  have hpaths : SamePaths s paused := by
    have hsame := (cancel_same starts s w).1
    rwa [hcancel] at hsame
  have hreloads : e.reloadsSymbols = true := by
    rw [reloadsSymbols_foldlM hfold, hpaths.changesSymbols_eq, hchange]
    rfl
  rw [applyChanges, hcancel]
  dsimp only
  rw [resume, hfold]
  dsimp only
  rw [applyEffects]
  dsimp only
  rw [if_pos hreloads, reloadSymbols]
  dsimp only
  rw [hpaths.symbolsPath, hload]
  dsimp only [submit]
  split <;> rfl

end WatchSession
end SceneCodegen
