import SceneCodegen.Path

/-!
# Settings

What can be set for a project. Relative paths of the symbol document and of the output start at the
project root, which itself starts at the working directory or in the home of a user.
-/
namespace SceneCodegen

structure Settings where
  projectRoot : Path := .ofText "."
  symbolsPath : Path := .ofText "symbols.json"
  outputDirectory : Path := .ofText ".godot/godot_helper"
  manifestName : String := "project.godot"
  sceneExtension : String := ".tscn"
  scriptExtension : String := ".cs"
  watchDebounceMs : Int := 300
  deriving DecidableEq, Repr

namespace Settings

/-- Where paths start: at the working directory, or where users are at home. -/
structure Origin where
  directory : Path
  homeOf : String → Option String

/-- The project root, absolute. No command gets here with a root in a home that is not known. -/
def resolvedProjectRoot (o : Origin) (s : Settings) : Path :=
  Path.resolve o.directory ((s.projectRoot.expandUser? o.homeOf).getD s.projectRoot)

def resolvedSymbolsPath (o : Origin) (s : Settings) : Path :=
  (s.resolvedProjectRoot o).join s.symbolsPath

def resolvedOutputDirectory (o : Origin) (s : Settings) : Path :=
  (s.resolvedProjectRoot o).join s.outputDirectory

end Settings
end SceneCodegen
