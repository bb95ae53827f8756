import SceneCodegen.Path
import SceneCodegen.Table
import SceneCodegen.Text.Lines
import SceneCodegen.Text.Utf8

/-!
# File trees

Files and directories by their place below the root. A path leads to a place by walking its names
one after another: each but the last has to be a directory, and a parent step goes back from where
the walk has come. The walk starts at the root, or at a working directory if the path is relative.
The root is always there.
-/
namespace SceneCodegen

/-- The names that lead from the root to a file or directory. -/
abbrev Place := List String

inductive FileEntry
  | directory
  | file (bytes : List UInt8)
  deriving DecidableEq, Repr

structure FileTree where
  entries : Table Place FileEntry := []
  deriving DecidableEq, Repr

inductive FileFault.Cause
  | notFound
  | fileExists
  | notDirectory
  | isDirectory
  | nameTooLong
  | nullCharacter
  deriving DecidableEq, Repr

def FileFault.Cause.text : FileFault.Cause → String
  | .notFound => "[Errno 2] No such file or directory"
  | .fileExists => "[Errno 17] File exists"
  | .notDirectory => "[Errno 20] Not a directory"
  | .isDirectory => "[Errno 21] Is a directory"
  | .nameTooLong => "[Errno 36] File name too long"
  | .nullCharacter => "embedded null byte"

/-- Why a file could not be read or written. -/
inductive FileFault
  | refused (cause : FileFault.Cause) (path : Path)
  | undecodable (e : Text.Utf8.DecodeError)

namespace FileFault

def message : FileFault → String
  | refused .nullCharacter _ => Cause.text .nullCharacter
  | refused cause path => cause.text ++ ": " ++ Text.quoted path.text
  | undecodable e => e.message

/-- Whether the system refused, and not the program itself. -/
def isSystemFault : FileFault → Bool
  | refused cause _ => cause != .nullCharacter
  | undecodable _ => false

end FileFault

/-- The absolute path without parent steps, which no path with a null character has. -/
def Path.resolved (directory p : Path) : Except FileFault Path :=
  if p.hasNull then .error (.refused .nullCharacter p) else .ok (Path.resolve directory p)

namespace FileTree

def at? (place : Place) (t : FileTree) : Option FileEntry :=
  if place.isEmpty then some .directory else t.entries.get? place

def isTooLong (name : String) : Bool := 255 < (Text.Utf8.encode name).length

/-- Paths are bounded as they are given, whatever the names in them. -/
def isPathTooLong (p : Path) : Bool := 4095 < (Text.Utf8.encode p.text).length

/-- Walks from a place along names, to a place whose directory is there. -/
def walk (t : FileTree) (place : Place) : List String → Except FileFault.Cause Place
  | [] => .ok place
  | name :: rest =>
    match t.at? place with
    | none => .error .notFound
    | some (.file _) => .error .notDirectory
    | some .directory =>
      if name == ".." then walk t place.dropLast rest
      else if isTooLong name then .error .nameTooLong
      else walk t (place ++ [name]) rest

/-- The place that a path leads to from a working directory. -/
def locate (p : Path) (t : FileTree) (directory : Path := ⟨.root, []⟩) :
    Except FileFault.Cause Place :=
  if p.hasNull then .error .nullCharacter
  else if isPathTooLong p then .error .nameTooLong
  else t.walk [] (directory.join p).parts

def entry (p : Path) (t : FileTree) (directory : Path := ⟨.root, []⟩) :
    Except FileFault.Cause FileEntry := do
  match t.at? (← t.locate p directory) with
  | none => .error .notFound
  | some e => .ok e

/-- Whether something passes a test; where nothing can be, it does not. -/
def probe (test : FileEntry → Bool) (p : Path) (t : FileTree)
    (directory : Path := ⟨.root, []⟩) : Except FileFault Bool :=
  match t.entry p directory with
  | .ok e => .ok (test e)
  | .error .nameTooLong => .error (.refused .nameTooLong p)
  | .error _ => .ok false

def isFile (p : Path) (t : FileTree) (directory : Path := ⟨.root, []⟩) : Except FileFault Bool :=
  t.probe (· matches .file _) p directory

def isDirectory (p : Path) (t : FileTree) : Except FileFault Bool :=
  t.probe (· matches .directory) p

def readBytes (p : Path) (t : FileTree) (directory : Path := ⟨.root, []⟩) :
    Except FileFault (List UInt8) :=
  match t.entry p directory with
  | .ok (.file bytes) => .ok bytes
  | .ok .directory => .error (.refused .isDirectory p)
  | .error cause => .error (.refused cause p)

/-- The text of bytes, with line feeds alone as line ends. -/
def textOf (bytes : List UInt8) : Except FileFault String :=
  match Text.Utf8.decode bytes with
  | .ok s => .ok (String.ofList (Text.plainLineEnds s.toList))
  | .error e => .error (.undecodable e)

def readText (p : Path) (t : FileTree) : Except FileFault String := do textOf (← t.readBytes p)

/-- The rest of a place from another on, if it lies below that one. -/
def below? : Place → Place → Option Place
  | [], place => if place.isEmpty then none else some place
  | _ :: _, [] => none
  | a :: base, b :: place => if a == b then below? base place else none

/-- The files below a place, by their names from there on. -/
def filesBelow (base : Place) (t : FileTree) : List (Place × List UInt8) :=
  t.entries.filterMap fun (place, e) =>
    match e with
    | .directory => none
    | .file bytes => (below? base place).map (·, bytes)

def fileNames (p : Path) (t : FileTree) : List String :=
  match t.locate p with
  | .error _ => []
  | .ok place => (t.filesBelow place).filterMap fun (rest, _) =>
      match rest with
      | [name] => some name
      | _ => none

def set (place : Place) (e : FileEntry) (t : FileTree) : FileTree :=
  ⟨t.entries.set place e⟩

def makeDirectory (p : Path) (t : FileTree) : Except FileFault FileTree :=
  match t.locate p with
  | .error cause => .error (.refused cause p)
  | .ok place =>
    match t.at? place with
    | some _ => .error (.refused .fileExists p)
    | none => .ok (t.set place .directory)

/-- A directory that is there already counts as made. -/
def settle (p : Path) (t : FileTree) (fault : FileFault) : Except FileFault FileTree := do
  if ← t.isDirectory p then .ok t else .error fault

def ensureDirectory (p : Path) (t : FileTree) : Except FileFault FileTree :=
  match t.makeDirectory p with
  | .ok t => .ok t
  | .error (.refused .notFound p) => .error (.refused .notFound p)
  | .error fault => t.settle p fault

def ensureDirectories (p : Path) (t : FileTree) : Except FileFault FileTree :=
  match t.makeDirectory p with
  | .ok t => .ok t
  | .error (.refused .notFound missing) =>
    if h : p.parts = [] then .error (.refused .notFound missing)
    else do
      have : p.parent.parts.length < p.parts.length := by
        have := List.length_pos_iff.2 h
        simp only [Path.parent, List.length_dropLast]; omega
      (← ensureDirectories p.parent t).ensureDirectory p
  | .error fault => t.settle p fault
termination_by p.parts.length

def write (p : Path) (bytes : List UInt8) (t : FileTree) : Except FileFault FileTree :=
  match t.locate p with
  | .error cause => .error (.refused cause p)
  | .ok place =>
    match t.at? place with
    | some .directory => .error (.refused .isDirectory p)
    | _ => .ok (t.set place (.file bytes))

/-- Takes a file out. -/
def remove (p : Path) (t : FileTree) : Except FileFault FileTree :=
  match t.locate p with
  | .error cause => .error (.refused cause p)
  | .ok place =>
    match t.at? place with
    | none => .error (.refused .notFound p)
    | some .directory => .error (.refused .isDirectory p)
    | some (.file _) => .ok ⟨t.entries.erase place⟩

/-- Takes out whatever is at a place, with all that is below it. -/
def removeAll (place : Place) (t : FileTree) : FileTree :=
  ⟨t.entries.filter fun (p, _) => !(p == place || (below? place p).isSome)⟩

end FileTree
end SceneCodegen
