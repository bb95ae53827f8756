import SceneCodegen.Path
import SceneCodegen.Text.Lines
import SceneCodegen.Text.Sha256

/-!
# Text snapshots

The engine names a project's files by their path below the project root, after `res://`. A file
outside the root keeps its absolute path, as does one whose first name below the root starts with
two dots. A snapshot is the text of a manifest or scene file as it was read before a run. Two
snapshots of one path are the same if their texts have the same digest.
-/
namespace SceneCodegen

namespace ResPath

def scheme : String := "res://"

/-- The resource path of a file; a text that is a resource path already stays as it is. -/
def ofPath (directory : Path) (root path : String) : String :=
  if Text.hasPrefix scheme path then path
  else
    let target := Path.absolute directory (.ofText path)
    let base := Path.absolute directory (.ofText root)
    let steps := Path.stepsTo base.parts target.parts
    let relative := Text.join "/" steps
    if steps.isEmpty || Text.hasPrefix ".." relative then target.text
    else scheme ++ relative

end ResPath

structure Snapshot where
  path : String
  resPath : String
  digest : String
  text : String
  deriving DecidableEq, Repr

namespace Snapshot

/-- The texts themselves are not compared. -/
instance : BEq Snapshot :=
  ⟨fun a b => a.path == b.path && a.resPath == b.resPath && a.digest == b.digest⟩

/-- The snapshot of a file's text, for a project root and a working directory. -/
def ofText (directory : Path) (root path text : String) : Snapshot :=
  ⟨(Path.ofText path).text, ResPath.ofPath directory root path, Text.sha256 text, text⟩

def lines (s : Snapshot) : List String := Text.lines s.text

def isManifest (manifestName path : String) : Bool := (Path.ofText path).name == manifestName

def isScene (extension path : String) : Bool := (Path.ofText path).suffix == extension

end Snapshot
end SceneCodegen
