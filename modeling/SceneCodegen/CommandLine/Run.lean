import SceneCodegen.CommandLine.Arguments
import SceneCodegen.Generation.Overview
import SceneCodegen.Json.Printer
import SceneCodegen.Watch.Filter
import SceneCodegen.Watch.Session

/-!
# Running commands

What the commands do in a workplace. Generating writes the output directory or checks it; scanning
prints the overview of a project; watching generates and then goes on with every batch of changes.
A command that fails says why, and its exit code is not zero.
-/
namespace SceneCodegen.CommandLine
open Workplace

/-- The settings that options override; an empty value overrides nothing. -/
def overrides (directory : Path) (c : Command) : Except FileFault (Table String Json) := do
  let given (key : Settings.Key) (value : Option String)
      (form : Path → Except FileFault Path) : Except FileFault (Table String Json) :=
    match value with
    | none | some "" => .ok []
    | some text => return [(key.fieldName, .text (← form (.ofText text)).text)]
  return (← given .projectRoot c.project .ok) ++
    (← given .symbolsPath c.symbols (Path.resolved directory)) ++
    (← given .outputDirectory c.output (Path.resolved directory))

def settings (c : Command) : Action Settings := fun w =>
  match overrides w.directory c with
  | .error fault => (.error (.file fault), w)
  | .ok overrides =>
    let (s, w) := w.settings overrides
    (s.map fun s => { s with watchDebounceMs := c.debounceMs.getD s.watchDebounceMs }, w)

inductive Missing
  | projectDirectory (path : Path)
  | manifest (path : Path)
  deriving DecidableEq, Repr

def Missing.message : Missing → String
  | .projectDirectory path => "project directory not found: " ++ path.text
  | .manifest path => "manifest not found: " ++ path.text

def findMissing (s : Settings) (w : Workplace) : Except Fault (Option Missing) := do
  let some start := s.projectRoot.expandUser? w.homeOf | throw .homeless
  let root ← (Path.resolved w.directory start).mapError .file
  let manifest := root.join (.ofText s.manifestName)
  if !(← (w.files.isDirectory root).mapError .file) then return some (.projectDirectory root)
  else if !(← (w.files.isFile manifest).mapError .file) then return some (.manifest manifest)
  else return none

def complaintTag : String := "godot-helper: "

/-- How a command ended: its exit code, and what it watched. -/
structure Ending where
  exitCode : Nat := 0
  watched : Option (List Path × Int) := none
  deriving DecidableEq, Repr

def generateOnce (s : Settings) : Action GenerationResult := fun w =>
  match w.load (s.resolvedSymbolsPath w.origin) (w.newGenerator s) with
  | (.error fault, _) => (.error fault, w)
  | (.ok (), g) =>
    match (g.run none).1 with
    | .error halt => (.error (.run halt), w)
    | .ok result => (.ok result, w.reportAll result.diagnostics)

def codeOf (result : GenerationResult) : Nat := if result.hasErrors then 1 else 0

def outOfDate (output : Path) (outdated stale : List String) : List String :=
  (complaintTag ++ output.text ++ " is out of date") ::
    (outdated.map ("  * " ++ ·) ++ stale.map ("  - " ++ ·))

/-- Compares the output directory with the fragments and writes nothing. -/
def check (output : Path) (result : GenerationResult) : Action Ending := fun w =>
  let found : Except FileFault (List String × List String) := do
    let outdated ← OutputDirectory.outdated result.fragments output w.files
    return (outdated, ← OutputDirectory.stale result.fragments output w.files)
  match found with
  | .error fault => (.error (.file fault), w)
  | .ok ([], []) =>
    (.ok { exitCode := codeOf result },
      w.say (logTag ++ " " ++ toString result.fragments.length ++ " fragment(s) up to date"))
  | .ok (outdated, stale) =>
    (.ok { exitCode := 1 }, w.complainAll (outOfDate output outdated stale))

def generate (c : Command) (s : Settings) : Action Ending := fun w =>
  let output := s.resolvedOutputDirectory w.origin
  match generateOnce s w with
  | (.error fault, w) => (.error fault, w)
  | (.ok result, w) =>
    if c.check then check output result w
    else match w.writeFragments result.fragments output with
      | (.error fault, w) => (.error (.file fault), w)
      | (.ok (), w) => (.ok { exitCode := codeOf result }, w)

def scan (s : Settings) : Action Ending := fun w =>
  match w.load (s.resolvedSymbolsPath w.origin) (w.newGenerator s) with
  | (.error fault, _) => (.error fault, w)
  | (.ok (), g) =>
    match g.overview.1 with
    | .error halt => (.error (.run halt), w)
    | .ok overview => (.ok {}, w.say (Json.write Json.indented overview))

/-- What happens in the outside world: files are edited, and some changes are reported. -/
structure Batch where
  edit : FileTree → FileTree := id
  changes : List Change := []

def watchedPaths (session : WatchSession) : List Path :=
  session.projectRoot ::
    if Path.isUnder session.projectRoot session.symbolsPath then []
    else [session.symbolsPath.parent]

def listed (heading : String) (items : List String) : List String :=
  (logTag ++ " " ++ heading) :: items.map ("  - " ++ ·)

def beginWatching (session : WatchSession) (w : Workplace) :
    Except Fault Unit × WatchSession × Workplace :=
  let w := w.sayAll
    [logTag ++ " project_root=" ++ session.projectRoot.text,
      logTag ++ " symbols=" ++ session.symbolsPath.text,
      logTag ++ " output_dir=" ++ session.outputDirectory.text]
  match session.start w with
  | (.error fault, session, w) => (.error fault, session, w)
  | (.ok (), session, w) =>
    let (session, w) := session.complete w
    (.ok (), session, w.sayAll (listed "Watching:" ((watchedPaths session).map (·.text))))

def changedPaths (changes : List Change) : List String :=
  (changes.map fun c => Watch.Filter.forwardSlashes c.path).eraseDups.mergeSort (· ≤ ·)

/-- Takes a batch in and lets its pass end; a batch of no interest changes nothing but files. -/
def takeBatch (filter : Watch.Filter) (b : Batch) (session : WatchSession) (w : Workplace) :
    Except Fault Unit × WatchSession × Workplace :=
  let w := { w with files := b.edit w.files }
  let changes := b.changes.filter fun c => filter.accepts c.path
  if changes.isEmpty then (.ok (), session, w)
  else
    let w := w.sayAll ("" :: listed "Change detected:" (changedPaths changes))
    match session.applyChanges 0 changes w with
    | (.error fault, session, w) => (.error fault, session, w)
    | (.ok (), session, w) =>
      let (session, w) := session.complete w
      (.ok (), session, w)

def takeBatches (filter : Watch.Filter) : List Batch → WatchSession → Workplace →
    Except Fault Unit × WatchSession × Workplace
  | [], session, w => (.ok (), session, w)
  | b :: rest, session, w =>
    match takeBatch filter b session w with
    | (.ok (), session, w) => takeBatches filter rest session w
    | failed => failed

/-- The filter of a session; the files that tools keep for themselves are passed over unless others
are named. -/
def watchFilter (s : Settings) (session : WatchSession)
    (passesOver : String → Bool := Watch.isToolFile) : Watch.Filter :=
  { manifestName := s.manifestName, sceneExtension := s.sceneExtension
    symbolsPath := session.symbolsPath, passesOver }

/-- The last words of a watch that was interrupted. -/
def farewell (isInterrupted : Bool) (w : Workplace) : Workplace :=
  if isInterrupted then w.sayAll ["", logTag ++ " stopped"] else w

/-- Watches a project while the given batches come in. -/
def watch (s : Settings) (batches : List Batch) (isInterrupted : Bool) (w : Workplace) :
    Except (Fault × Ending) Ending × Workplace :=
  match beginWatching (.new s none w) w with
  | (.error fault, _, w) => (.error (fault, {}), w)
  | (.ok (), session, w) =>
    let ending : Ending := { watched := some (watchedPaths session, s.watchDebounceMs) }
    let (taken, session, w) := takeBatches (watchFilter s session) batches session w
    let w := if taken.isOk then farewell isInterrupted w else w
    -- The session is closed in any case, and a fault of that is the one that counts.
    match taken, session.close 0 w with
    | _, (.error fault, _, w) => (.error (fault, ending), w)
    | .error fault, (.ok (), _, w) => (.error (fault, ending), w)
    | .ok (), (.ok (), _, w) => (.ok ending, w)

/-- Says why a command failed. -/
def fail (message : String) (w : Workplace) (ending : Ending := {}) : Ending × Workplace :=
  ({ ending with exitCode := 1 }, w.complain (complaintTag ++ message))

/-- The end of a command that could not be interrupted. -/
def settle (r : Except Fault Ending × Workplace) : Ending × Workplace :=
  match r with
  | (.ok ending, w) => (ending, w)
  | (.error fault, w) => fail fault.message w

/-- The settings of a command, or why it cannot begin. -/
def prepare (c : Command) (w : Workplace) : Except String Settings × Workplace :=
  match settings c w with
  | (.error fault, w) => (.error fault.message, w)
  | (.ok s, w) =>
    match findMissing s w with
    | .error fault => (.error fault.message, w)
    | .ok (some missing) => (.error missing.message, w)
    | .ok none => (.ok s, w)

/-- Runs a command; batches of changes come in only while it watches. -/
def run (c : Command) (batches : List Batch) (isInterrupted : Bool) (w : Workplace) :
    Ending × Workplace :=
  match prepare c w with
  | (.error message, w) => fail message w
  | (.ok s, w) =>
    match c.name with
    | .generate => settle (generate c s w)
    | .scan => settle (scan s w)
    | .watch =>
      match watch s batches isInterrupted w with
      | (.ok ending, w) => (ending, w)
      | (.error (fault, ending), w) => fail fault.message w ending

end SceneCodegen.CommandLine
