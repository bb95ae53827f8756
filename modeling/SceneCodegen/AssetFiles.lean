import SceneCodegen.FileTree
import SceneCodegen.Snapshot

/-!
# Asset files

Which files of a project are read before a run: the manifests and scenes below its root, save those
in directories that hold no sources. The files of a directory come before those of its
subdirectories, each in the order of their names.
-/
namespace SceneCodegen.AssetFiles

/-- Directories in which no assets are looked for. -/
def ignoredDirectories : List String :=
  [".godot", ".import", ".git", ".mono", "node_modules", "__pycache__"]

def isIgnored (relative : Place) : Bool := relative.dropLast.any ignoredDirectories.contains

/-- The order in which files below the root are met. -/
def placeLe : Place → Place → Bool
  | a :: as@(_ :: _), b :: bs@(_ :: _) => if a == b then placeLe as bs else decide (a ≤ b)
  | _ :: _ :: _, _ => false
  | _, _ :: _ :: _ => true
  | [a], [b] => decide (a ≤ b)
  | [_], [] => false
  | [], _ => true

def isAsset (manifestName sceneExtension path : String) : Bool :=
  Snapshot.isManifest manifestName path || Snapshot.isScene sceneExtension path

/-- The assets below a root, with their bytes. -/
def find (manifestName sceneExtension : String) (root : Path) (t : FileTree) :
    List (Path × List UInt8) :=
  let files := (t.filesBelow root.parts).filter fun (relative, _) => !isIgnored relative
  let files := files.mergeSort fun (a, _) (b, _) => placeLe a b
  let found := files.map fun (relative, bytes) => (root.join ⟨.relative, relative⟩, bytes)
  found.filter fun (path, _) => isAsset manifestName sceneExtension path.text

/-- The snapshot of a file; wrong bytes do not keep it from being read. -/
def snapshot (directory root path : Path) (bytes : List UInt8) : Snapshot :=
  let text := Text.plainLineEnds (Text.Utf8.decodeReplacing bytes).toList
  .ofText directory root.text path.text (String.ofList text)

def read (manifestName sceneExtension : String) (directory root : Path) (t : FileTree) :
    List Snapshot :=
  (find manifestName sceneExtension root t).map fun (path, bytes) =>
    snapshot directory root path bytes

end SceneCodegen.AssetFiles
