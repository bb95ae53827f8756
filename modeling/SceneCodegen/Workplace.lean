import SceneCodegen.AssetFiles
import SceneCodegen.Generation.Generator
import SceneCodegen.OutputDirectory
import SceneCodegen.Settings.EnvironmentFile
import SceneCodegen.Symbol.Document

/-!
# Workplaces

Where commands run: the files, the working directory, the environment, the libraries that commands
rely on, and what was printed so far.
Commands load a project into a generator, report its diagnostics and bring the output directory in
line with its fragments.
-/
namespace SceneCodegen
open SceneCodegen.Graph

/-- Printed lines, on the two channels. -/
structure Console where
  output : List String := []
  errors : List String := []
  deriving DecidableEq, Repr

/-- What is left to libraries: to read decoded documents of symbols, the settings that sources give
and environment files, and to look up where users are at home. -/
structure Libraries where
  symbols : SymbolTable.Reader
  settings : Settings.Sources → Except (List Issue) Settings
  environmentFile : String → EnvironmentFile.Contents
  homeOf : String → Option String := fun _ => none

def Libraries.standard : Libraries where
  symbols := Symbol.reader
  settings s := (Settings.ofSources s).toExcept
  environmentFile := EnvironmentFile.contents

structure Workplace where
  libraries : Libraries := .standard
  directory : Path := ⟨.root, []⟩
  environment : List (String × String) := []
  files : FileTree := {}
  console : Console := {}

/-- Why a command ended early. -/
inductive Fault
  | settings (issues : List Issue)
  | file (fault : FileFault)
  | symbols (error : SymbolTable.LoadError)
  | run (halt : Halt Generation.Node)
  /-- The project root is in a home that is not known. -/
  | homeless
  /-- A pass was submitted to a session that had ended. -/
  | closed

namespace Fault

def message : Fault → String
  | settings issues => Issue.headline "Settings" issues
  | file fault => fault.message
  | symbols error => error.message
  | run halt => halt.message
  | homeless => "Could not determine home directory."
  | closed => "cannot schedule new futures after shutdown"

end Fault

namespace Workplace

/-- What an action in a workplace comes to, with the workplace after it. -/
abbrev Action (α : Type) := Workplace → Except Fault α × Workplace

def say (line : String) (w : Workplace) : Workplace :=
  { w with console.output := w.console.output ++ [line] }

def complain (line : String) (w : Workplace) : Workplace :=
  { w with console.errors := w.console.errors ++ [line] }

def sayAll (lines : List String) (w : Workplace) : Workplace := lines.foldl (fun w l => w.say l) w

def complainAll (lines : List String) (w : Workplace) : Workplace :=
  lines.foldl (fun w l => w.complain l) w

/-- The settings that hold in a workplace, with complaints about its environment files. -/
def settings (overrides : Table String Json) : Action Settings := fun w =>
  let (texts, ending) := Settings.Sources.readFiles w.directory w.files Settings.Sources.fileNames
  let files := texts.map w.libraries.environmentFile
  let found : Except Fault Settings := do
    ending.mapError .file
    (w.libraries.settings (.ofContents overrides w.environment files)).mapError .settings
  (found, w.complainAll (files.flatMap (·.complaints)))

/-- Where a user is at home. For whoever runs the program the environment can tell. -/
def homeOf (w : Workplace) (user : String) : Option String :=
  ((w.environment.lookup "HOME").filter fun _ => user.isEmpty).or (w.libraries.homeOf user)

def origin (w : Workplace) : Settings.Origin := ⟨w.directory, w.homeOf⟩

/-- An empty generator for a project. -/
def newGenerator (s : Settings) (w : Workplace) : Generator :=
  { config :=
      { directory := w.directory, projectRoot := (s.resolvedProjectRoot w.origin).text
        manifestName := s.manifestName, sceneExtension := s.sceneExtension
        scriptExtension := s.scriptExtension } }

/-- The declared types that a file exports. -/
def loadSymbols (path : Path) (w : Workplace) : Except Fault SymbolTable := do
  if ← (w.files.isFile path).mapError .file then
    let text ← (w.files.readText path).mapError .file
    (SymbolTable.ofText w.libraries.symbols path.text text).mapError .symbols
  else .error (.symbols (.notFound path.text))

/-- Reads all assets below the root of a generator's project, then the declared types. -/
def load (symbolsPath : Path) (g : Generator) (w : Workplace) : Except Fault Unit × Generator :=
  let assets := AssetFiles.read g.config.manifestName g.config.sceneExtension w.directory
    (.ofText g.config.projectRoot) w.files
  let (_, g) := g.replaceAssets assets
  match w.loadSymbols symbolsPath with
  | .error fault => (.error fault, g)
  | .ok symbols => (.ok (), (g.replaceSymbols symbols).2)

/-- What lines of the program itself begin with. -/
def logTag : String := "[godot_helper]"

def report (w : Workplace) (d : Diagnostic) : Workplace :=
  if d.severity == .info then w.say d.text else w.complain d.text

def reportAll (ds : List Diagnostic) (w : Workplace) : Workplace := ds.foldl report w

def summary (fragmentCount : Nat) (c : OutputDirectory.Changes) : List String :=
  (logTag ++ " " ++ toString fragmentCount ++ " fragment(s): " ++ toString c.written.length ++
    " written, " ++ toString c.removed.length ++ " removed") ::
    (c.written.map ("  + " ++ ·) ++ c.removed.map ("  - " ++ ·))

/-- Brings the output directory in line with the fragments, and says what was changed. -/
def writeFragments (fragments : List GeneratedFragment) (output : Path) (w : Workplace) :
    Except FileFault Unit × Workplace :=
  match OutputDirectory.sync fragments output w.files with
  | (.error fault, files) => (.error fault, { w with files })
  | (.ok changes, files) =>
    (.ok (), { w with files }.sayAll (summary fragments.length changes))

end Workplace
end SceneCodegen
