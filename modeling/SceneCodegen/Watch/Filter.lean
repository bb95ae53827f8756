import SceneCodegen.AssetFiles
import SceneCodegen.Settings.Basic

/-!
# Watched files

Which changed files start a new pass: the symbol document, and the manifests and scenes of a project
outside the directories in which no assets are looked for. Files of editors and tools are passed
over first, by the names of their directories and by their own names. Backslashes count as slashes
in the path of a changed file, but not where tools are told by their names.
-/
namespace SceneCodegen.Watch

def toolDirectories : List String :=
  ["__pycache__", ".git", ".hg", ".svn", ".tox", ".venv", ".idea", "node_modules", ".mypy_cache",
    ".pytest_cache", ".hypothesis"]

/-- How names of files that tools keep for themselves end; a question mark stands for any character
but a line feed. -/
def toolEndings : List String := [".pyc", ".pyo", ".pyd", ".___jb_???___", ".sw?", "~"]

/-- Whether a text begins as a pattern says. -/
def fits : (pattern : List Char) → List Char → Bool
  | [], _ => true
  | _ :: _, [] => false
  | p :: pattern, c :: cs => (if p == '?' then c != '\n' else p == c) && fits pattern cs

def endsLike (pattern : String) (name : List Char) : Bool :=
  fits pattern.toList.reverse name.reverse

/-- A name, and without a line feed at its end. -/
def readings (name : String) : List (List Char) :=
  let cs := name.toList
  if cs.getLast? == some '\n' then [cs, cs.dropLast] else [cs]

def isToolName (name : String) : Bool :=
  Text.hasPrefix ".#" name || Text.hasPrefix "flycheck_" name ||
    (readings name).any fun cs =>
      toolEndings.any (endsLike · cs) || cs == ".DS_Store".toList

def isToolFile (path : String) : Bool :=
  let parts := Text.split '/' path
  parts.any toolDirectories.contains || isToolName (parts.getLast?.getD "")

structure Filter where
  manifestName : String := "project.godot"
  sceneExtension : String := ".tscn"
  symbolsPath : Path
  /-- The files that are passed over first. -/
  passesOver : String → Bool := isToolFile

namespace Filter

def forwardSlashes (path : String) : String :=
  Text.replaceChars (fun c => [if c == '\\' then '/' else c]) path

/-- Whether a change of a file starts a new pass. -/
def accepts (path : String) (f : Filter) : Bool :=
  let p := forwardSlashes path
  p == f.symbolsPath.text ||
    (!f.passesOver path &&
      !AssetFiles.ignoredDirectories.any (fun name => Text.contains ("/" ++ name ++ "/") p) &&
      AssetFiles.isAsset f.manifestName f.sceneExtension p)

end Filter
end SceneCodegen.Watch
