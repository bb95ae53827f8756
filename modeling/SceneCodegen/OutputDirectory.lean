import SceneCodegen.FileTree
import SceneCodegen.Fragment.Basic

/-!
# Output directories

Bringing a directory of generated files in line with a list of fragments: a file that differs from
its fragment is written, a generated file without a fragment is removed, and all others are left
alone. Which files differ is settled before the first is written.
-/
namespace SceneCodegen.OutputDirectory

def generatedSuffix : String := ".g.cs"

def target (directory : Path) (hintName : String) : Path := directory.join (.ofText hintName)

def isOutdated (directory : Path) (t : FileTree) (f : GeneratedFragment) :
    Except FileFault Bool := do
  let path := target directory f.hintName
  if ← t.isFile path then return (← t.readText path) != f.text else return true

/-- The names of the fragments whose file is missing or holds another text. -/
def outdated (fragments : List GeneratedFragment) (directory : Path) (t : FileTree) :
    Except FileFault (List String) := do
  return (← fragments.filterM (isOutdated directory t)).map (·.hintName)

/-- The generated files in the directory that no fragment stands for, in order. -/
def stale (fragments : List GeneratedFragment) (directory : Path) (t : FileTree) :
    Except FileFault (List String) := do
  if ← t.isDirectory directory then
    let generated := (t.fileNames directory).filter (Text.hasSuffix generatedSuffix)
    let names := generated.filter fun name => !fragments.any (·.hintName == name)
    return names.mergeSort (· ≤ ·)
  else return []

def textOf (fragments : List GeneratedFragment) (hintName : String) : String :=
  ((fragments.find? (·.hintName == hintName)).map (·.text)).getD ""

/-- Changes a file tree step by step, up to the first step that fails. -/
def changeEach (step : String → FileTree → Except FileFault FileTree) :
    List String → FileTree → Except FileFault Unit × FileTree
  | [], t => (.ok (), t)
  | name :: rest, t =>
    match step name t with
    | .error fault => (.error fault, t)
    | .ok t => changeEach step rest t

def writeEach (fragments : List GeneratedFragment) (directory : Path) :
    List String → FileTree → Except FileFault Unit × FileTree :=
  changeEach fun name t =>
    t.write (target directory name) (Text.Utf8.encode (textOf fragments name))

def removeEach (directory : Path) : List String → FileTree → Except FileFault Unit × FileTree :=
  changeEach fun name t => t.remove (target directory name)

structure Changes where
  written : List String
  removed : List String
  deriving DecidableEq, Repr

/-- Removes the stale files, after others were written. -/
def removeStale (fragments : List GeneratedFragment) (directory : Path) (written : List String)
    (t : FileTree) : Except FileFault Changes × FileTree :=
  match stale fragments directory t with
  | .error fault => (.error fault, t)
  | .ok removed =>
    let (r, t) := removeEach directory removed t
    (r.map fun _ => ⟨written, removed⟩, t)

/-- Brings the directory in line with the fragments. What was changed before a fault stays. -/
def sync (fragments : List GeneratedFragment) (directory : Path) (t : FileTree) :
    Except FileFault Changes × FileTree :=
  match t.ensureDirectories directory with
  | .error fault => (.error fault, t)
  | .ok t =>
    match outdated fragments directory t with
    | .error fault => (.error fault, t)
    | .ok written =>
      match writeEach fragments directory written t with
      | (.error fault, t) => (.error fault, t)
      | (.ok (), t) => removeStale fragments directory written t

end SceneCodegen.OutputDirectory
