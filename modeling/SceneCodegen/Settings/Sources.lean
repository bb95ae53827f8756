import SceneCodegen.Checked
import SceneCodegen.FileTree
import SceneCodegen.Settings.Basic

/-!
# Sources of settings

Settings come from the command line, the environment and two environment files, an earlier source
counting more; of the files, the one named later counts more. Each setting has a variable, and can
be set under the name of its field as well. Of the sources but the command line, any that sets the
variable counts more than one that sets the field. Names may be in any case; of those that differ in
case alone, the first counts on the command line, and elsewhere the last.
-/
namespace SceneCodegen

/-- What an environment file says of names, in the order of the file, and complaints about what it
says. -/
structure EnvironmentFile.Contents where
  pairs : List (String × Option String) := []
  complaints : List String := []
  deriving DecidableEq, Repr

namespace Settings

inductive Key
  | projectRoot | symbolsPath | outputDirectory | manifestName | sceneExtension | scriptExtension
  | watchDebounceMs
  deriving DecidableEq, Repr

namespace Key

def all : List Key :=
  [projectRoot, symbolsPath, outputDirectory, manifestName, sceneExtension, scriptExtension,
    watchDebounceMs]

def variableName : Key → String
  | projectRoot => "GODOT_HELPER_PROJECT_ROOT"
  | symbolsPath => "GODOT_HELPER_SYMBOLS"
  | outputDirectory => "GODOT_HELPER_OUTPUT_DIR"
  | manifestName => "GODOT_HELPER_MANIFEST_NAME"
  | sceneExtension => "GODOT_HELPER_SCENE_EXTENSION"
  | scriptExtension => "GODOT_HELPER_SCRIPT_EXTENSION"
  | watchDebounceMs => "GODOT_HELPER_WATCH_DEBOUNCE_MS"

def fieldName : Key → String
  | projectRoot => "project_root"
  | symbolsPath => "symbols_path"
  | outputDirectory => "output_dir"
  | manifestName => "manifest_name"
  | sceneExtension => "scene_extension"
  | scriptExtension => "script_extension"
  | watchDebounceMs => "watch_debounce_ms"

end Key

/-- The values of names; a name can be mentioned without a value. -/
abbrev Variables := Table String (Option String)

namespace Variables

def lowerCase (name : String) : String := name.map Char.toLower

/-- The variables that pairs define, names in lower case. Of names that differ in case alone the one
that came up last counts. -/
def ofPairs (pairs : List (String × Option String)) : Variables :=
  .ofList ((Table.ofList pairs).map fun (name, value) => (lowerCase name, value))

def value? (name : String) (v : Variables) : Option String := (v.get? (lowerCase name)).join

end Variables

structure Sources where
  overrides : Table String Json := []
  environment : Variables := []
  /-- The assignments of the environment files. -/
  files : Variables := []

namespace Sources

/-- The first value that is given for a name on the command line, in any case. -/
def override? (name : String) (s : Sources) : Option Json :=
  (s.overrides.find? fun (given, _) => Variables.lowerCase given == Variables.lowerCase name).map
    (·.2)

/-- The name under which an overridden setting is known: that of its field, if it was given just so
and that of its variable was not. -/
def overriddenName (key : Key) (s : Sources) : String :=
  if (s.overrides.get? key.variableName).isNone && (s.overrides.get? key.fieldName).isSome then
    key.fieldName
  else key.variableName

/-- A value for a name from the environment or the environment files. -/
def external? (name : String) (s : Sources) : Option Json :=
  ((s.environment.value? name).or (s.files.value? name)).map .text

/-- The value of a setting, with the name that it is known under. -/
def find? (key : Key) (s : Sources) : Option (String × Json) :=
  let candidates := [
    (s.overriddenName key, s.override? key.variableName),
    (s.overriddenName key, s.override? key.fieldName),
    (key.variableName, s.external? key.variableName),
    (key.fieldName, s.external? key.fieldName)]
  candidates.findSome? fun (name, x) => x.map (name, ·)

def read {α : Type} (key : Key) (form : Checked.Form α) (default : α) (s : Sources) : Checked α :=
  match s.find? key with
  | some (name, x) => (form x).under (.field name)
  | none => .valid default

/-- The names of the environment files; the later counts more. -/
def fileNames : List String := [".env", ".godot_helper.env"]

def readFile (path : Path) (t : FileTree) : Except FileFault (Option String) := do
  if ← t.isFile path then return some (← t.readText path) else return none

/-- The texts of the files that are there in a directory, up to one that cannot be read. -/
def readFiles (directory : Path) (t : FileTree) : List String → List String × Except FileFault Unit
  | [] => ([], .ok ())
  | name :: rest =>
    match readFile (directory.join (.ofText name)) t with
    | .error fault => ([], .error fault)
    | .ok text? =>
      let (more, ending) := readFiles directory t rest
      (text?.toList ++ more, ending)

/-- The sources that the contents of the environment files complete. -/
def ofContents (overrides : Table String Json) (environment : List (String × String))
    (files : List EnvironmentFile.Contents) : Sources :=
  { overrides
    environment := .ofPairs (environment.map fun (name, value) => (name, some value))
    files := .ofList (files.flatMap fun file => Variables.ofPairs file.pairs) }

end Sources

/-- The settings that sources give, defaults filled in. -/
def ofSources (s : Sources) : Checked Settings :=
  let d : Settings := {}
  Settings.mk
    <$> s.read .projectRoot Checked.path d.projectRoot
    <*> s.read .symbolsPath Checked.path d.symbolsPath
    <*> s.read .outputDirectory Checked.path d.outputDirectory
    <*> s.read .manifestName Checked.text d.manifestName
    <*> s.read .sceneExtension Checked.text d.sceneExtension
    <*> s.read .scriptExtension Checked.text d.scriptExtension
    <*> s.read .watchDebounceMs Checked.integer d.watchDebounceMs

end Settings
end SceneCodegen
