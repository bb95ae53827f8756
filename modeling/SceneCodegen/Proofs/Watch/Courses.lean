import SceneCodegen.Proofs.Generation.Completion
import SceneCodegen.Proofs.Watch.Steps

/-!
# What happens to a session

Other programs change files, the project is loaded, changes arrive, passes are computed and end. In
all this the inputs of the generator change only while no pass is running, a pass is submitted only
when the one before has ended, and files are written only from the whole result of a pass that was
computed and then found not to be cancelled. Changes that arrive lead to a new pass unless the pass
before ends with a fault, their files cannot be read, or the symbol document cannot, for a reason
that does not lie in what it says.
-/
namespace SceneCodegen
open Graph

namespace WatchSession
open Workplace

/-- A step, and another one if it has come through. -/
def andThen (first second : Step) : Step := fun s w =>
  match first s w with
  | (.ok (), s, w) => second s w
  | failed => failed

/-- Submits a pass once a step has come through. -/
def thenSubmit (step : Step) : Step := andThen step submit

def loadIn : Step := fun s w =>
  let (r, generator) := w.load s.symbolsPath s.generator
  (r, { s with generator }, w)

def takeIn (changes : List Change) : Step := fun s w =>
  match changes.foldlM (s.addChange w) {} with
  | .error fault => (.error fault, s, w)
  | .ok e =>
    let (_, generator) := s.generator.updateAssets e.snapshots e.removed
    let s := { s with generator }
    if e.reloadsSymbols then s.reloadSymbols w else (.ok (), s, w)

/-- Cancels the pass that is running, and takes changes in if it has ended without a fault. -/
def takeOver (starts : Nat) (changes : List Change) : Step :=
  andThen (cancel starts) (takeIn changes)

variable {s : WatchSession} {w : Workplace} {starts : Nat} {changes : List Change}

theorem start_eq (s : WatchSession) (w : Workplace) : s.start w = thenSubmit loadIn s w := by
  simp only [start, thenSubmit, andThen, loadIn]
  cases (w.load s.symbolsPath s.generator).1 <;> rfl

theorem resume_eq (changes : List Change) (s : WatchSession) (w : Workplace) :
    s.resume changes w = thenSubmit (takeIn changes) s w := by
  simp only [resume, thenSubmit, andThen, takeIn]
  cases changes.foldlM (s.addChange w) {} with
  | error fault => rfl
  | ok e =>
    simp only [applyEffects]
    split <;> rfl

theorem applyChanges_eq (starts : Nat) (changes : List Change) (s : WatchSession) (w : Workplace) :
    s.applyChanges starts changes w = thenSubmit (takeOver starts changes) s w := by
  simp only [applyChanges, thenSubmit, takeOver, andThen]
  generalize s.cancel starts w = out
  obtain ⟨r, s', w'⟩ := out
  cases r with
  | error fault => rfl
  | ok _ => exact resume_eq changes s' w'

/-- A step that begins with another one changes no more than that if it comes to nothing. -/
theorem andThen_cases (first second : Step) (s : WatchSession) (w : Workplace) :
    ((first s w).1 = .ok () ∧
        andThen first second s w = second (first s w).2.1 (first s w).2.2) ∨
      (first s w).1 ≠ .ok () ∧ andThen first second s w = first s w := by
  unfold andThen
  generalize first s w = out
  obtain ⟨r, s', w'⟩ := out
  cases r with
  | ok _ => exact .inl ⟨rfl, rfl⟩
  | error fault => exact .inr ⟨nofun, rfl⟩

/-- What happens to a session or to the files around it. -/
inductive Event
  /-- Other programs change the files. -/
  | edit (files : FileTree)
  | start
  /-- Changes arrive. A pass that is waiting may start as many queries as said before it notices
  that it was cancelled. -/
  | changes (starts : Nat) (changes : List Change)
  /-- The pass that is waiting is computed. -/
  | compute
  /-- The pass that was computed finds that it was not cancelled, and begins to write. -/
  | commit
  /-- The pass that is running comes to its end. -/
  | wait

/-- A session at some instant, and the place where it works. -/
abbrev Instant := WatchSession × Workplace

def Event.instants : Event → Instant → List Instant
  | .edit files, (s, w) => [(s, { w with files })]
  | .start, (s, w) => [(s.loadIn w).2, (s.start w).2]
  | .changes starts changes, (s, w) =>
    [(s.cancel starts w).2, (s.takeOver starts changes w).2, (s.applyChanges starts changes w).2]
  | .compute, (s, w) => [(s.compute, w)]
  | .commit, (s, w) => [(s.commit, w)]
  | .wait, (s, w) => [(s.compute, w), (s.compute.commit, w), s.complete w]

/-- What the program itself does from one instant to the next. -/
structure Guarded (x y : Instant) : Prop where
  /-- Inputs change only while no pass is running. -/
  inputs : y.1.generator.store.inputs ≠ x.1.generator.store.inputs →
    x.1.isRunning = false ∧ y.1.isRunning = false
  /-- A pass that is running was running before, or is a new one and none was running. -/
  passes : y.1.isRunning = true → x.1.isRunning = true ∧ y.1.generation = x.1.generation ∨
    x.1.isRunning = false ∧ y.1.generation = x.1.generation + 1
  /-- A pass is computed by a run that nobody cancels. -/
  results : ∀ r, y.1.pass = some (.computed r) → x.1.pass = some (.computed r) ∨
    x.1.pass = some .waiting ∧ r = (x.1.generator.run (some { generation := x.1.generation })).1
  /-- A pass that writes has computed what it writes. -/
  writes : ∀ result, y.1.pass = some (.writing result) → x.1.pass = some (.writing result) ∨
    x.1.pass = some (.computed (.ok result))
  /-- Files change only as a pass writes all of its result, which ends the pass. -/
  files : y.2.files ≠ x.2.files → y.1.isRunning = false ∧
    ∃ result, x.1.pass = some (.writing result) ∧
      y.2.files = (OutputDirectory.sync result.fragments x.1.outputDirectory x.2.files).2

section
variable {x y : Instant}

/-- A pass that is not running has no result that is yet to be written. -/
theorem not_running_elim {P : Prop} {pass : Pass} (hended : s.isRunning = false)
    (h : s.pass = some pass) (hrunning : pass.isRunning = true) : P := by
  rw [isRunning_of_pass h, hrunning] at hended
  cases hended

/-- Nothing happens but that the pass ends. -/
theorem guarded_of_ended (hinputs : y.1.generator.store.inputs = x.1.generator.store.inputs)
    (hfiles : y.2.files = x.2.files) (hended : y.1.isRunning = false) : Guarded x y where
  inputs h := absurd hinputs h
  passes h := by
    rw [hended] at h
    cases h
  results r h := not_running_elim hended h rfl
  writes result h := not_running_elim hended h rfl
  files h := absurd hfiles h

/-- Inputs change, no pass running. -/
theorem guarded_of_idle (hfiles : y.2.files = x.2.files) (hbefore : x.1.isRunning = false)
    (hafter : y.1.isRunning = false) : Guarded x y where
  inputs _ := ⟨hbefore, hafter⟩
  passes h := by
    rw [hafter] at h
    cases h
  results r h := not_running_elim hafter h rfl
  writes result h := not_running_elim hafter h rfl
  files h := absurd hfiles h

theorem guarded_refl (x : Instant) : Guarded x x where
  inputs h := absurd rfl h
  passes h := .inl ⟨h, rfl⟩
  results _ h := .inl h
  writes _ h := .inl h
  files h := absurd rfl h

end

theorem publish_guarded {result : GenerationResult} (h : s.pass = some (.writing result)) :
    Guarded (s, w) (s.publish result w) := by
  obtain ⟨⟨r, hfinish⟩, -, hfiles⟩ := publish_spec result s w
  have hended : (s.publish result w).1.isRunning = false := by
    rw [hfinish, isRunning_finish]
  refine ⟨fun hinputs => absurd (by rw [hfinish]; rfl) hinputs, fun hrunning => ?_,
    fun r hr => not_running_elim hended hr rfl, fun r hr => not_running_elim hended hr rfl,
    fun _ => ⟨hended, result, h, hfiles⟩⟩
  rw [hended] at hrunning
  cases hrunning

theorem cancel_guarded (starts : Nat) (s : WatchSession) (w : Workplace) :
    Guarded (s, w) (s.cancel starts w).2 := by
  unfold cancel
  split
  · next hrunning =>
    show Guarded (s, w) (s.unwind starts w)
    rcases unwind_cases starts w hrunning with ⟨token, r, hfinish, hfiles⟩ | ⟨r, hfinish, hfiles⟩ |
      ⟨result, hpass, hpublish⟩
    · refine guarded_of_ended ?_ hfiles.files (by rw [hfinish, isRunning_finish])
      rw [hfinish]
      exact Generator.inputs_run _ s.generator
    · refine guarded_of_ended ?_ hfiles.files (by rw [hfinish, isRunning_finish])
      rw [hfinish]
      rfl
    · rw [hpublish]
      exact publish_guarded hpass
  · exact guarded_refl (s, w)

/-- A pass that was cancelled has ended. -/
theorem cancel_ended (starts : Nat) (s : WatchSession) (w : Workplace) :
    (s.cancel starts w).2.1.isRunning = false := by
  unfold cancel
  split
  · next hrunning =>
    show (s.unwind starts w).1.isRunning = false
    rcases unwind_cases starts w hrunning with ⟨token, r, hfinish, -⟩ | ⟨r, hfinish, -⟩ |
      ⟨result, -, hpublish⟩
    · rw [hfinish, isRunning_finish]
    · rw [hfinish, isRunning_finish]
    · obtain ⟨⟨r, hfinish⟩, -⟩ := publish_spec result s w
      rw [hpublish, hfinish, isRunning_finish]
  · next hidle => exact Bool.eq_false_iff.mpr hidle

theorem compute_of_waiting (h : s.pass = some .waiting) : s.compute =
    { s with
      generator := (s.generator.run (some { generation := s.generation })).2
      pass := some (.computed (s.generator.run (some { generation := s.generation })).1) } := by
  rw [compute, h]
  rfl

theorem compute_of_not_waiting (h : s.pass ≠ some .waiting) : s.compute = s := by
  unfold compute
  split
  · next hwaiting => exact absurd hwaiting h
  · rfl

theorem compute_same (s : WatchSession) : SamePaths s s.compute := by
  by_cases h : s.pass = some .waiting
  · rw [compute_of_waiting h]
    exact ⟨rfl, rfl, rfl, rfl, rfl, rfl⟩
  · rw [compute_of_not_waiting h]
    exact .refl s

theorem compute_guarded (s : WatchSession) (w : Workplace) : Guarded (s, w) (s.compute, w) := by
  by_cases h : s.pass = some .waiting
  · rw [compute_of_waiting h]
    refine ⟨fun hinputs => absurd (Generator.inputs_run _ s.generator) hinputs,
      fun _ => .inl ⟨isRunning_of_pass h, rfl⟩, fun r hr => .inr ⟨h, ?_⟩, nofun,
      fun hfiles => absurd rfl hfiles⟩
    cases hr
    rfl
  · rw [compute_of_not_waiting h]
    exact guarded_refl (s, w)

/-- A pass that commits itself has a result, which it writes from then on. -/
theorem commit_cases (s : WatchSession) :
    (∃ result, s.pass = some (.computed (.ok result)) ∧
        s.commit = { s with pass := some (.writing result) }) ∨
      (∀ result, s.pass ≠ some (.computed (.ok result))) ∧ s.commit = s := by
  unfold commit
  split
  · next result hpass => exact .inl ⟨result, hpass, rfl⟩
  · next hnone => exact .inr ⟨hnone, rfl⟩

theorem commit_same (s : WatchSession) : SamePaths s s.commit := by
  rcases commit_cases s with ⟨result, -, hcommit⟩ | ⟨-, hcommit⟩
  · rw [hcommit]
    exact ⟨rfl, rfl, rfl, rfl, rfl, rfl⟩
  · rw [hcommit]
    exact .refl s

theorem generator_commit (s : WatchSession) : s.commit.generator = s.generator := by
  rcases commit_cases s with ⟨result, -, hcommit⟩ | ⟨-, hcommit⟩ <;> rw [hcommit]

theorem commit_guarded (s : WatchSession) (w : Workplace) : Guarded (s, w) (s.commit, w) := by
  rcases commit_cases s with ⟨result, hpass, hcommit⟩ | ⟨-, hcommit⟩
  · rw [hcommit]
    refine ⟨fun hinputs => absurd rfl hinputs, fun _ => .inl ⟨isRunning_of_pass hpass, rfl⟩, nofun,
      fun r hr => .inr ?_, fun hfiles => absurd rfl hfiles⟩
    cases hr
    exact hpass
  · rw [hcommit]
    exact guarded_refl (s, w)

/-- A pass is let to its end by writing its result, by reporting why it has none, or not at all, it
having ended. -/
theorem complete_cases (s : WatchSession) (w : Workplace) :
    (∃ result, s.compute.commit.pass = some (.writing result) ∧
        s.complete w = s.compute.commit.publish result w) ∨
      (∃ halt, s.compute.commit.pass = some (.computed (.error halt)) ∧
        s.complete w = s.compute.commit.abandon halt w) ∨
      s.compute.commit.isRunning = false ∧ s.complete w = (s.compute.commit, w) := by
  have hcomputed : s.compute.pass ≠ some .waiting := by
    by_cases h : s.pass = some .waiting
    · rw [compute_of_waiting h]
      nofun
    · rwa [compute_of_not_waiting h]
  unfold complete
  generalize s.compute = s at hcomputed
  dsimp only
  rcases commit_cases s with ⟨result, -, hcommit⟩ | ⟨hnone, hcommit⟩
  · rw [hcommit]
    exact .inl ⟨result, rfl, rfl⟩
  · rw [hcommit]
    by_cases hrunning : s.isRunning = true
    · rcases isRunning_cases hrunning with hpass | ⟨result, hpass⟩ | ⟨halt, hpass⟩ | ⟨result, hpass⟩
      · exact absurd hpass hcomputed
      · exact absurd hpass (hnone result)
      · exact .inr (.inl ⟨halt, hpass, by rw [hpass]⟩)
      · exact .inl ⟨result, hpass, by rw [hpass]⟩
    · refine .inr (.inr ⟨Bool.eq_false_iff.mpr hrunning, ?_⟩)
      split
      · next hpass => exact absurd (isRunning_of_pass hpass) hrunning
      · next hpass => exact absurd (isRunning_of_pass hpass) hrunning
      · rfl

/-- A pass that is not running has nothing to come to. -/
theorem complete_of_idle (w : Workplace) (h : s.isRunning = false) : s.complete w = (s, w) := by
  have hcompute : s.compute = s := compute_of_not_waiting fun hpass => not_running_elim h hpass rfl
  have hcommit : s.commit = s := by
    rcases commit_cases s with ⟨result, hpass, -⟩ | ⟨-, hcommit⟩
    · exact not_running_elim h hpass rfl
    · exact hcommit
  rcases complete_cases s w with ⟨result, hpass, -⟩ | ⟨halt, hpass, -⟩ | ⟨-, hsame⟩
  · rw [hcompute, hcommit] at hpass
    exact not_running_elim h hpass rfl
  · rw [hcompute, hcommit] at hpass
    exact not_running_elim h hpass rfl
  · rw [hsame, hcompute, hcommit]

theorem complete_guarded (s : WatchSession) (w : Workplace) :
    Guarded (s.compute.commit, w) (s.complete w) := by
  rcases complete_cases s w with ⟨result, hpass, hpublish⟩ | ⟨halt, -, habandon⟩ | ⟨-, hsame⟩
  · rw [hpublish]
    exact publish_guarded hpass
  · obtain ⟨⟨r, hfinish⟩, hfiles⟩ := abandon_spec halt s.compute.commit w
    rw [habandon]
    refine guarded_of_ended ?_ hfiles.files ?_
    · rw [hfinish]
      rfl
    · rw [hfinish, isRunning_finish]
  · rw [hsame]
    exact guarded_refl _

/-- A pass that is let to its end has ended, and only the pass and the files are changed by that. -/
theorem complete_spec (s : WatchSession) (w : Workplace) :
    (s.complete w).1.isRunning = false ∧
      ((s.complete w).1 = s.compute.commit ∨ ∃ r, (s.complete w).1 = s.compute.commit.finish r) ∧
      SamePlace w (s.complete w).2 := by
  rcases complete_cases s w with ⟨result, -, hpublish⟩ | ⟨halt, -, habandon⟩ | ⟨hended, hsame⟩
  · obtain ⟨⟨r, hfinish⟩, hplace, -⟩ := publish_spec result s.compute.commit w
    rw [hpublish]
    exact ⟨by rw [hfinish, isRunning_finish], .inr ⟨r, hfinish⟩, hplace⟩
  · obtain ⟨⟨r, hfinish⟩, hfiles⟩ := abandon_spec halt s.compute.commit w
    rw [habandon]
    exact ⟨by rw [hfinish, isRunning_finish], .inr ⟨r, hfinish⟩, hfiles.toSamePlace⟩
  · rw [hsame]
    exact ⟨hended, .inl rfl, .refl w⟩

theorem complete_same (s : WatchSession) (w : Workplace) : SamePaths s (s.complete w).1 := by
  have hbegun : SamePaths s s.compute.commit := (compute_same s).trans (commit_same s.compute)
  rcases (complete_spec s w).2.1 with hsame | ⟨r, hfinish⟩
  · rw [hsame]
    exact hbegun
  · rw [hfinish]
    exact hbegun.trans (samePaths_finish r _)

/-- A step that takes something in changes neither paths nor files, and no pass. -/
structure TakesIn (s s' : WatchSession) (w w' : Workplace) : Prop where
  paths : SamePaths s s'
  files : SameFiles w w'
  pass : s'.pass = s.pass

theorem reloadSymbols_takesIn (s : WatchSession) (w : Workplace) :
    TakesIn s (s.reloadSymbols w).2.1 w (s.reloadSymbols w).2.2 := by
  unfold reloadSymbols
  split
  · exact ⟨⟨rfl, rfl, rfl, rfl, rfl, rfl⟩, .refl w, rfl⟩
  · split
    · exact ⟨.refl s, sameFiles_complain _ w, rfl⟩
    · exact ⟨.refl s, .refl w, rfl⟩
  · exact ⟨.refl s, .refl w, rfl⟩

theorem TakesIn.isRunning_eq {s s' : WatchSession} {w w' : Workplace} (h : TakesIn s s' w w') :
    s'.isRunning = s.isRunning := by
  rw [isRunning, isRunning, h.pass]

theorem takeIn_takesIn (changes : List Change) (s : WatchSession) (w : Workplace) :
    TakesIn s (s.takeIn changes w).2.1 w (s.takeIn changes w).2.2 := by
  unfold takeIn
  split
  · exact ⟨.refl s, .refl w, rfl⟩
  · next e _ =>
    dsimp only
    split
    · obtain ⟨hpaths, hfiles, hpass⟩ := reloadSymbols_takesIn
        { s with generator := (s.generator.updateAssets e.snapshots e.removed).2 } w
      exact ⟨⟨hpaths.projectRoot, hpaths.symbolsPath, hpaths.outputDirectory, hpaths.config,
        hpaths.generation, hpaths.isClosed⟩, hfiles, hpass⟩
    · exact ⟨⟨rfl, rfl, rfl, rfl, rfl, rfl⟩, .refl w, rfl⟩

/-- Once a pass was cancelled, none is running, and changes are taken in if it ended
without a fault. -/
theorem takeOver_cases (starts : Nat) (changes : List Change) (s : WatchSession) (w : Workplace) :
    (∃ s' w', s.cancel starts w = (.ok (), s', w') ∧
        takeOver starts changes s w = s'.takeIn changes w') ∨
      (∀ s' w', s.cancel starts w ≠ (.ok (), s', w')) ∧
        takeOver starts changes s w = s.cancel starts w := by
  rcases andThen_cases (cancel starts) (takeIn changes) s w with ⟨hok, htook⟩ | ⟨hfault, htook⟩
  · exact .inl ⟨_, _, Prod.ext hok rfl, htook⟩
  · refine .inr ⟨fun s' w' hcancel => hfault ?_, htook⟩
    rw [hcancel]

theorem takeOver_ended (starts : Nat) (changes : List Change) (s : WatchSession) (w : Workplace) :
    (takeOver starts changes s w).2.1.isRunning = false := by
  have hended := cancel_ended starts s w
  rcases takeOver_cases starts changes s w with ⟨s', w', hcancel, htook⟩ | ⟨-, htook⟩
  · rw [hcancel] at hended
    rw [htook, (takeIn_takesIn changes s' w').isRunning_eq]
    exact hended
  · rw [htook]
    exact hended

theorem takeOver_same (starts : Nat) (changes : List Change) (s : WatchSession) (w : Workplace) :
    SamePaths s (takeOver starts changes s w).2.1 := by
  have hpaths := (cancel_same starts s w).1
  rcases takeOver_cases starts changes s w with ⟨s', w', hcancel, htook⟩ | ⟨-, htook⟩
  · rw [hcancel] at hpaths
    rw [htook]
    exact hpaths.trans (takeIn_takesIn changes s' w').paths
  · rw [htook]
    exact hpaths

theorem takeOver_guarded (starts : Nat) (changes : List Change) (s : WatchSession) (w : Workplace) :
    Guarded (s.cancel starts w).2 (takeOver starts changes s w).2 := by
  have hended := cancel_ended starts s w
  have htaken := takeOver_ended starts changes s w
  rcases takeOver_cases starts changes s w with ⟨s', w', hcancel, htook⟩ | ⟨-, htook⟩
  · rw [hcancel] at hended ⊢
    rw [htook] at htaken ⊢
    exact guarded_of_idle (takeIn_takesIn changes s' w').files.files hended htaken
  · rw [htook]
    exact guarded_refl _

theorem submit_guarded (h : s.isRunning = false) : Guarded (s, w) (s.submit w).2 := by
  rw [submit]
  dsimp only
  split
  · exact guarded_of_ended rfl rfl h
  · exact ⟨fun hinputs => absurd rfl hinputs, fun _ => .inr ⟨h, rfl⟩, nofun, nofun,
      fun hfiles => absurd rfl hfiles⟩

theorem thenSubmit_guarded {step : Step} (h : (step s w).2.1.isRunning = false) :
    Guarded (step s w).2 (thenSubmit step s w).2 := by
  rcases andThen_cases step submit s w with ⟨-, hsubmit⟩ | ⟨-, hsame⟩
  · rw [thenSubmit, hsubmit]
    exact submit_guarded h
  · rw [thenSubmit, hsame]
    exact guarded_refl _

theorem thenSubmit_of_ne_ok {step : Step} (h : (step s w).1 ≠ .ok ()) :
    thenSubmit step s w = step s w := by
  rcases andThen_cases step submit s w with ⟨hok, -⟩ | ⟨-, hsame⟩
  · exact absurd hok h
  · exact hsame

/-- Submitting a pass changes only what is known of passes. -/
theorem thenSubmit_spec (step : Step) (s : WatchSession) (w : Workplace) : ∃ generation pass,
    (thenSubmit step s w).2 = ({ (step s w).2.1 with generation, pass }, (step s w).2.2) := by
  rcases andThen_cases step submit s w with ⟨-, hsubmit⟩ | ⟨-, hsame⟩
  · rw [thenSubmit, hsubmit]
    simp only [submit]
    split <;> exact ⟨_, _, rfl⟩
  · rw [thenSubmit, hsame]
    exact ⟨_, _, rfl⟩

theorem thenSubmit_place (step : Step) (s : WatchSession) (w : Workplace) :
    (thenSubmit step s w).2.2 = (step s w).2.2 := by
  obtain ⟨generation, pass, hsubmit⟩ := thenSubmit_spec step s w
  rw [hsubmit]

/-- Whatever happens, save that other programs change files, is guarded from instant to instant, if
the project is not loaded while a pass is running. -/
theorem Event.guarded (e : Event) (x : Instant) (hedit : ∀ files, e ≠ .edit files)
    (hstart : e = .start → x.1.isRunning = false) : (x :: e.instants x).IsChain Guarded := by
  obtain ⟨s, w⟩ := x
  cases e with
  | edit files => exact absurd rfl (hedit files)
  | start =>
    have hidle : (s.loadIn w).2.1.isRunning = false := hstart rfl
    rw [instants, start_eq]
    exact .cons_cons (guarded_of_idle rfl (hstart rfl) hidle)
      (.cons_cons (thenSubmit_guarded hidle) (.singleton _))
  | changes starts changes =>
    rw [instants, applyChanges_eq]
    exact .cons_cons (cancel_guarded starts s w) (.cons_cons (takeOver_guarded starts changes s w)
      (.cons_cons (thenSubmit_guarded (takeOver_ended starts changes s w)) (.singleton _)))
  | compute => exact .cons_cons (compute_guarded s w) (.singleton _)
  | commit => exact .cons_cons (commit_guarded s w) (.singleton _)
  | wait =>
    exact .cons_cons (compute_guarded s w) (.cons_cons (commit_guarded s.compute w)
      (.cons_cons (complete_guarded s w) (.singleton _)))

theorem submit_isRunning (hopen : s.isClosed = false) : (s.submit w).2.1.isRunning = true := by
  simp [submit, hopen, isRunning, Pass.isRunning]

/-- The symbol document is read, or is itself to blame that it is not. -/
def SymbolsReadable (path : Path) (w : Workplace) : Prop :=
  ∀ fault, w.loadSymbols path = .error fault →
    ∃ error, fault = .symbols error ∧ error.blamesDocument = true

theorem reloadSymbols_ok_iff : (s.reloadSymbols w).1 = .ok () ↔
    SymbolsReadable s.symbolsPath w := by
  unfold reloadSymbols SymbolsReadable
  split
  · next symbols hload => simp [hload]
  · next error hload =>
    split
    · next hblames => simp [hload, hblames]
    · next hblames => simp [hload, hblames]
  · next fault hnot hload =>
    simp only [hload, reduceCtorEq, Except.error.injEq, forall_eq', false_iff, not_exists, not_and]
    rintro error rfl
    exact absurd rfl (hnot error)

theorem takeIn_ok_iff : (s.takeIn changes w).1 = .ok () ↔
    ∃ e, changes.foldlM (s.addChange w) {} = .ok e ∧
      (changes.any s.changesSymbols = true → SymbolsReadable s.symbolsPath w) := by
  unfold takeIn
  cases hfold : changes.foldlM (s.addChange w) {} with
  | error fault => simp
  | ok e =>
    have hreloads := reloadsSymbols_foldlM hfold
    rw [Bool.false_or] at hreloads
    simp only [Except.ok.injEq, exists_eq_left', ← hreloads]
    split
    · next h => simp [h, reloadSymbols_ok_iff]
    · next h => simp [h]

theorem thenSubmit_isRunning_iff {step : Step} (hidle : (step s w).2.1.isRunning = false)
    (hopen : (step s w).2.1.isClosed = false) :
    (thenSubmit step s w).2.1.isRunning = true ↔ (step s w).1 = .ok () := by
  rcases andThen_cases step submit s w with ⟨hok, hsubmit⟩ | ⟨hfault, hsame⟩
  · rw [thenSubmit, hsubmit]
    exact iff_of_true (submit_isRunning hopen) hok
  · rw [thenSubmit, hsame, hidle]
    exact iff_of_false nofun hfault

theorem takeOver_ok_iff : (takeOver starts changes s w).1 = .ok () ↔
    ∃ s' w', s.cancel starts w = (.ok (), s', w') ∧ (s'.takeIn changes w').1 = .ok () := by
  rcases takeOver_cases starts changes s w with ⟨s', w', hcancel, htook⟩ | ⟨hfault, htook⟩
  · rw [htook, hcancel]
    simp
  · rw [htook]
    refine iff_of_false (fun hok => hfault _ _ (Prod.ext hok rfl)) ?_
    rintro ⟨s', w', hcancel, -⟩
    exact hfault s' w' hcancel

/-- Changes that arrive lead to a new pass exactly if the pass before ends without a fault, what
they mean can be told and the symbol document, should it be among them, is read or to blame. -/
theorem applyChanges_isRunning_iff (hopen : s.isClosed = false) :
    (s.applyChanges starts changes w).2.1.isRunning = true ↔
      ∃ s' w', s.cancel starts w = (.ok (), s', w') ∧
        ∃ e, changes.foldlM (s'.addChange w') {} = .ok e ∧
          (changes.any s'.changesSymbols = true → SymbolsReadable s'.symbolsPath w') := by
  rw [applyChanges_eq, thenSubmit_isRunning_iff (takeOver_ended starts changes s w)
    ((takeOver_same starts changes s w).isClosed.trans hopen), takeOver_ok_iff]
  simp only [takeIn_ok_iff]

theorem takeIn_ne_ok_of_undecodable (hchange : changes.any s.changesSymbols = true)
    {bytes : List UInt8} {fault : FileFault}
    (hentry : w.files.entry s.symbolsPath = .ok (.file bytes))
    (hbytes : FileTree.textOf bytes = .error fault) : (s.takeIn changes w).1 ≠ .ok () := by
  intro hok
  obtain ⟨-, -, hreadable⟩ := takeIn_ok_iff.mp hok
  have hload : w.loadSymbols s.symbolsPath = .error (.file fault) := by
    rw [loadSymbols_of_entry hentry, symbolsOf, hbytes]
    rfl
  obtain ⟨error, hfault, -⟩ := hreadable hchange _ hload
  cases hfault

/-- After changes with a symbol document that is no text, the pass that they cancelled
is the last. -/
theorem applyChanges_pass_of_undecodable (hchange : changes.any s.changesSymbols = true)
    {bytes : List UInt8} {fault : FileFault}
    (hentry : (s.cancel starts w).2.2.files.entry s.symbolsPath = .ok (.file bytes))
    (hbytes : FileTree.textOf bytes = .error fault) :
    (s.applyChanges starts changes w).2.1.pass = (s.cancel starts w).2.1.pass := by
  have hpaths := (cancel_same starts s w).1
  rw [← hpaths.symbolsPath] at hentry
  rw [← hpaths.changesSymbols_eq] at hchange
  rw [applyChanges_eq]
  rcases takeOver_cases starts changes s w with ⟨s', w', hcancel, htook⟩ | ⟨hfault, htook⟩
  · rw [hcancel] at hentry hchange
    rw [thenSubmit_of_ne_ok (htook ▸ takeIn_ne_ok_of_undecodable hchange hentry hbytes), htook,
      hcancel]
    exact (takeIn_takesIn changes s' w').pass
  · rw [thenSubmit_of_ne_ok ?_, htook]
    exact fun hok => hfault _ _ (Prod.ext (htook ▸ hok) rfl)

end WatchSession
end SceneCodegen
