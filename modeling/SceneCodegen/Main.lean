import SceneCodegen.CommandLine.Run

/-!
# The program

Reads what a command may look at into a workplace, runs the command there, and prints and writes
what came of it. While it watches, it looks at the files again and again and takes in what changed.
A file that cannot be read is as good as not there.
-/
namespace SceneCodegen.Main
open CommandLine

/-- Adds what is at a path, after the directories that lead there. -/
def lookAt (path : Path) (t : FileTree) : IO FileTree := do
  let here ← IO.currentDir
  let mut t := t
  for n in List.range path.parts.length do
    let place := path.parts.take (n + 1)
    let file := here / Path.text ⟨.root, place⟩
    if ← file.isDir then t := t.set place .directory
    else if ← file.pathExists then
      let bytes ← try IO.FS.readBinFile file catch _ => continue
      t := t.set place (.file bytes.toList)
  return t

/-- Adds the files of a directory that are wanted, and those in its subdirectories if it is to go
so deep. Links to directories are not followed. -/
partial def lookInto (isDeep : Bool) (isWanted : String → Bool) (path : Path) (t : FileTree) :
    IO FileTree := do
  let here ← IO.currentDir
  let found ← try (here / path.text).readDir catch _ => return t
  let mut t := t
  for item in found do
    let p := path.join ⟨.relative, [item.fileName]⟩
    match (← item.path.symlinkMetadata).type with
    | .dir =>
      t := t.set p.parts .directory
      if isDeep && !AssetFiles.ignoredDirectories.contains item.fileName then
        t ← lookInto isDeep isWanted p t
    | _ => if isWanted p.text then t ← lookAt p t
  return t

/-- The variables that can hold settings or the home of the user, with their values. -/
def environment : IO (List (String × String)) := do
  let names := Settings.Key.all.flatMap fun key =>
    [key.variableName, key.variableName.map Char.toLower, key.fieldName,
      key.fieldName.map Char.toUpper]
  ("HOME" :: names).filterMapM fun name => return (← IO.getEnv name).map (name, ·)

/-- What settings let a command look at. -/
def lookAround (s : Settings) (w : Workplace) : IO FileTree := do
  let root := s.resolvedProjectRoot w.origin
  let output := Path.resolve w.directory (s.resolvedOutputDirectory w.origin)
  let symbols := Path.resolve w.directory (s.resolvedSymbolsPath w.origin)
  let t ← lookAt root w.files
  let t ← lookInto true (AssetFiles.isAsset s.manifestName s.sceneExtension) root t
  let t ← lookAt (root.join (.ofText s.manifestName)) t
  let t ← lookAt symbols t
  lookInto false (fun _ => true) output (← lookAt output t)

/-- The workplace before any project is known: the environment and its files. -/
def bareWorkplace : IO Workplace := do
  let directory := Path.ofText (toString (← IO.currentDir))
  let places := Settings.Sources.fileNames.map fun name => directory.join (.ofText name)
  let files ← places.foldlM (fun t path => lookAt path t) {}
  return { directory, files, environment := ← environment }

def perform (e : FileTree.Edit) : IO Unit :=
  let textOf (place : Place) : String := Path.text ⟨.root, place⟩
  match e with
  | .remove place => IO.FS.removeFile (textOf place)
  | .makeDirectory place => IO.FS.createDirAll (textOf place)
  | .write place bytes => IO.FS.writeBinFile (textOf place) ⟨bytes.toArray⟩

/-- Prints what was said in a workplace and writes what changed in its files. -/
def publish (before : FileTree) (w : Workplace) : IO Workplace := do
  w.console.output.forM IO.println
  w.console.errors.forM IO.eprintln
  (FileTree.edits before w.files).forM perform
  (← IO.getStdout).flush
  return { w with console := {} }

/-- Says why watching ended. -/
def giveUp (fault : Fault) (before : FileTree) (w : Workplace) : IO Nat := do
  let (ending, w) := fail fault.message w
  discard (publish before w)
  return ending.exitCode

/-- Takes changes in until they lead to a failure. -/
partial def keepWatching (s : Settings) (session : WatchSession) (w : Workplace) : IO Nat := do
  IO.sleep (.ofNat (max 50 s.watchDebounceMs.toNat))
  let files ← lookAround s { w with files := {} }
  let batch : Batch := { edit := fun _ => files, changes := Change.between w.files files }
  match takeBatch (watchFilter s session) batch session w with
  | (.ok (), session, w) => keepWatching s session (← publish files w)
  | (.error fault, session, w) =>
    match session.close 0 w with
    | (.ok (), _, w) => giveUp fault files w
    | (.error later, _, w) => giveUp later files w

def watchProject (s : Settings) (w : Workplace) : IO Nat := do
  match beginWatching (.new s none w) w with
  | (.ok (), session, after) => keepWatching s session (← publish w.files after)
  | (.error fault, _, after) => giveUp fault w.files after

/-- Runs a command in the working directory; the result is its exit code. -/
def runCommand (c : Command) : IO Nat := do
  let bare ← bareWorkplace
  let files ← match (CommandLine.settings c bare).1 with
    | .ok s => lookAround s bare
    | .error _ => pure bare.files
  let w := { bare with files }
  match c.name, prepare c w with
  | .watch, (.ok s, w) => watchProject s w
  | _, _ =>
    let (ending, after) := run c [] false w
    discard (publish files after)
    return ending.exitCode

def usage : String :=
  "usage: godot-helper generate|scan|watch [--project DIR] [--symbols FILE] [--out DIR] " ++
    "[--check] [--debounce-ms N]"

end SceneCodegen.Main

/-- Runs the command that the arguments call for. -/
def main (arguments : List String) : IO UInt32 := do
  match SceneCodegen.CommandLine.Command.ofArguments arguments with
  | .ok command => return .ofNat (← SceneCodegen.Main.runCommand command)
  | .error shortExit =>
    if shortExit == .help then IO.println SceneCodegen.Main.usage
    else IO.eprintln SceneCodegen.Main.usage
    return .ofNat shortExit.code
