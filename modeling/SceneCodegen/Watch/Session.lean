import SceneCodegen.Watch.Change
import SceneCodegen.Workplace

/-!
# Watch sessions

A session keeps the output of a project in line with its files. It runs one pass at a time. Changes
that arrive while a pass is running supersede it: the pass is cancelled and has ended before the
generator's inputs change. A pass is computed, then finds whether it was cancelled, and if it was
not it writes files to the end, whatever happens meanwhile. What a pass fails with is raised again
to those who wait for its end, and cancelling a pass is to wait for it.
-/
namespace SceneCodegen
open SceneCodegen.Graph

/-- The latest pass of a session. -/
inductive Pass
  /-- Nothing was computed yet. -/
  | waiting
  /-- The result is there, and the pass has not yet looked whether it was cancelled. -/
  | computed (result : Except (Halt Generation.Node) GenerationResult)
  /-- The pass was found not to be cancelled, and writes its result. -/
  | writing (result : GenerationResult)
  /-- The pass ended, with a result if it wrote one. -/
  | finished (result : Except Fault (Option GenerationResult))

/-- Submitted, but not yet at its end. -/
def Pass.isRunning : Pass → Bool
  | .finished _ => false
  | _ => true

structure WatchSession where
  projectRoot : Path
  symbolsPath : Path
  outputDirectory : Path
  generator : Generator
  /-- How many passes were submitted. -/
  generation : Int := 0
  pass : Option Pass := none
  isClosed : Bool := false

namespace WatchSession

/-- A session's step, with the session and the workplace after it. -/
abbrev Step := WatchSession → Workplace → Except Fault Unit × WatchSession × Workplace

/-- A new session, nothing being read yet. -/
def new (s : Settings) (output : Option Path) (w : Workplace) : WatchSession :=
  { projectRoot := s.resolvedProjectRoot w.origin
    symbolsPath := s.resolvedSymbolsPath w.origin
    outputDirectory := output.getD (s.resolvedOutputDirectory w.origin)
    generator := w.newGenerator s }

def isRunning (s : WatchSession) : Bool := s.pass.any Pass.isRunning

def finish (result : Except Fault (Option GenerationResult)) (s : WatchSession) : WatchSession :=
  { s with pass := some (.finished result) }

/-- Runs the generator for the latest pass. -/
def run (token : Token) (s : WatchSession) :
    Except (Halt Generation.Node) GenerationResult × WatchSession :=
  let (r, generator) := s.generator.run (some token)
  (r, { s with generator })

def passName (s : WatchSession) : String :=
  Workplace.logTag ++ " generation " ++ toString s.generation

/-- Ends a pass that has no result. Only errors of the generator's own are reported; others are kept
for those who wait. -/
def abandon (halt : Halt Generation.Node) (s : WatchSession) (w : Workplace) :
    WatchSession × Workplace :=
  if !halt.isOwn then (s.finish (.error (.run halt)), w)
  else
    let w := match halt with
      | .failed (.cancelled _) => w.say (s.passName ++ " cancelled")
      | halt => w.complain (s.passName ++ " failed: " ++ halt.message)
    (s.finish (.ok none), w)

/-- Reports a result and writes its fragments. -/
def publish (result : GenerationResult) (s : WatchSession) (w : Workplace) :
    WatchSession × Workplace :=
  match (w.reportAll result.diagnostics).writeFragments result.fragments s.outputDirectory with
  | (.ok (), w) => (s.finish (.ok (some result)), w)
  | (.error fault, w) =>
    if fault.isSystemFault then
      (s.finish (.ok none), w.complain (s.passName ++ " failed: " ++ fault.message))
    else (s.finish (.error (.file fault)), w)

def compute (s : WatchSession) : WatchSession :=
  match s.pass with
  | some .waiting =>
    let (r, s) := s.run { generation := s.generation }
    { s with pass := some (.computed r) }
  | _ => s

/-- A pass that has a result finds that it was not cancelled. -/
def commit (s : WatchSession) : WatchSession :=
  match s.pass with
  | some (.computed (.ok result)) => { s with pass := some (.writing result) }
  | _ => s

/-- Lets the latest pass run to its end. -/
def complete (s : WatchSession) (w : Workplace) : WatchSession × Workplace :=
  let s := s.compute.commit
  match s.pass with
  | some (.writing result) => s.publish result w
  | some (.computed (.error halt)) => s.abandon halt w
  | _ => (s, w)

/-- Lets the latest pass, which was cancelled, run to its end. One that was waiting may start as
many queries as said before it notices; one that is writing does not notice. -/
def unwind (starts : Nat) (s : WatchSession) (w : Workplace) : WatchSession × Workplace :=
  match s.pass with
  | some .waiting =>
    match s.run { generation := s.generation, startsLeft := some starts } with
    | (.ok _, s) => (s.finish (.ok none), w)
    | (.error halt, s) => s.abandon halt w
  | some (.computed (.ok _)) => (s.finish (.ok none), w)
  | some (.computed (.error halt)) => s.abandon halt w
  | some (.writing result) => s.publish result w
  | _ => (s, w)

/-- What came of the latest pass, if it has ended. -/
def result (s : WatchSession) : Except Fault (Option GenerationResult) :=
  match s.pass with
  | some (.finished r) => r
  | _ => .ok none

/-- Cancels the latest pass and waits for its end, unless it has ended. What the pass fails with is
raised. -/
def cancel (starts : Nat) : Step := fun s w =>
  if s.isRunning then
    let (s, w) := s.unwind starts w
    (s.result.map fun _ => (), s, w)
  else (.ok (), s, w)

/-- Submits a pass, the one before having ended. -/
def submit : Step := fun s w =>
  let s := { s with generation := s.generation + 1 }
  if s.isClosed then (.error .closed, s, w) else (.ok (), { s with pass := some .waiting }, w)

/-- Loads the project and submits the first pass. -/
def start : Step := fun s w =>
  let (r, generator) := w.load s.symbolsPath s.generator
  let s := { s with generator }
  match r with
  | .error fault => (.error fault, s, w)
  | .ok () => s.submit w

/-- What changes mean: the assets that now are there and those that are not, and whether the symbol
document is among them. -/
structure Effects where
  snapshots : List Snapshot := []
  removed : List String := []
  reloadsSymbols : Bool := false

def addChange (s : WatchSession) (w : Workplace) (e : Effects) (c : Change) :
    Except Fault Effects := do
  let path := Path.ofText c.path
  let gone : Effects := { e with removed := e.removed ++ [path.text] }
  if path.text == s.symbolsPath.text then return { e with reloadsSymbols := true }
  else if c.kind == .deleted then return gone
  else if !(← (w.files.isFile path w.directory).mapError .file) then return gone
  else
    let bytes ← (w.files.readBytes path w.directory).mapError .file
    let snapshot := AssetFiles.snapshot w.directory s.projectRoot path bytes
    return { e with snapshots := e.snapshots ++ [snapshot] }

/-- Reads the declared types again; where the document is wrong, the previous ones are kept. -/
def reloadSymbols : Step := fun s w =>
  match w.loadSymbols s.symbolsPath with
  | .ok symbols => (.ok (), { s with generator := (s.generator.replaceSymbols symbols).2 }, w)
  | .error (.symbols error) =>
    if error.blamesDocument then
      (.ok (), s, w.complain (Workplace.logTag ++ " keeping previous symbols: " ++ error.message))
    else (.error (.symbols error), s, w)
  | .error fault => (.error fault, s, w)

/-- Puts the effects of changes into the generator and submits a pass. -/
def applyEffects (e : Effects) : Step := fun s w =>
  let (_, generator) := s.generator.updateAssets e.snapshots e.removed
  let s := { s with generator }
  if e.reloadsSymbols then
    match s.reloadSymbols w with
    | (.ok (), s, w) => s.submit w
    | failed => failed
  else s.submit w

/-- Takes changes in and submits a pass, none running. -/
def resume (changes : List Change) : Step := fun s w =>
  match changes.foldlM (s.addChange w) {} with
  | .error fault => (.error fault, s, w)
  | .ok effects => s.applyEffects effects w

/-- Cancels the pass that is running, takes changes in and submits a new pass. -/
def applyChanges (starts : Nat) (changes : List Change) : Step := fun s w =>
  match s.cancel starts w with
  | (.ok (), s, w) => s.resume changes w
  | failed => failed

/-- Ends the session. -/
def close (starts : Nat) : Step := fun s w =>
  match s.cancel starts w with
  | (.ok (), s, w) => (.ok (), { s with isClosed := true }, w)
  | failed => failed

end WatchSession
end SceneCodegen
