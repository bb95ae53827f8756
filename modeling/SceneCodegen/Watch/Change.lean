import SceneCodegen.FileTree

/-!
# Changes of files

What the outside world reports while a project is watched, and what two looks at the same files
report of what happened between them: the edits that lead from the one tree to the other. What is
gone is removed, then what is new or different is put in place, a directory before what it holds.
Directories alone are no change.
-/
namespace SceneCodegen

namespace FileTree

inductive Edit
  | remove (place : Place)
  | makeDirectory (place : Place)
  | write (place : Place) (bytes : List UInt8)
  deriving DecidableEq, Repr

def Edit.apply (t : FileTree) : Edit → FileTree
  | .remove place => ⟨t.entries.erase place⟩
  | .makeDirectory place => t.set place .directory
  | .write place bytes => t.set place (.file bytes)

def Edit.put (place : Place) : FileEntry → Edit
  | .directory => .makeDirectory place
  | .file bytes => .write place bytes

def removals (old new : FileTree) : List Edit :=
  (old.entries.keys.filter fun place => (new.entries.get? place).isNone).reverse.map .remove

def additions (old new : FileTree) : List Edit :=
  let fresh := new.entries.filter fun (place, e) => old.entries.get? place != some e
  fresh.map fun (place, e) => .put place e

/-- The edits that lead from the old tree to the new one. -/
def edits (old new : FileTree) : List Edit := removals old new ++ additions old new

end FileTree

inductive ChangeKind | added | modified | deleted
  deriving DecidableEq, Repr

/-- A change of a file, as the outside world reports it. -/
structure Change where
  kind : ChangeKind
  path : String
  deriving DecidableEq, Repr

namespace Change
open FileTree

def ofEdit? (old : FileTree) : Edit → Option Change
  | .makeDirectory _ => none
  | .remove place =>
    match old.entries.get? place with
    | some (.file _) => some ⟨.deleted, Path.text ⟨.root, place⟩⟩
    | _ => none
  | .write place _ =>
    let kind := if (old.entries.get? place).isSome then .modified else .added
    some ⟨kind, Path.text ⟨.root, place⟩⟩

def between (old new : FileTree) : List Change := (edits old new).filterMap (ofEdit? old)

end Change
end SceneCodegen
