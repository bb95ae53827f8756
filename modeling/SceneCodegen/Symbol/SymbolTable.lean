import SceneCodegen.Checked
import SceneCodegen.Json.Reader
import SceneCodegen.Symbol.Basic
import SceneCodegen.Table

/-!
# Symbol tables

The parts of each type are put together: parts of one lookup name, in document order, make one
type, which takes its own fields from the first part, its base from the first part that names one,
and its files, markers and members from all. One name in two assemblies is refused.
-/
namespace SceneCodegen

abbrev SymbolTable := Table String TypeSymbol

namespace SymbolTable

inductive LoadError
  | notFound (path : String)
  | malformed (path : String) (expected : Json.Expectation) (line column : Nat)
  | excessive (e : Json.Excess)
  | invalid (issues : List Issue)
  | assemblyClash (name first second : String)

def LoadError.message : LoadError → String
  | .notFound path => "Symbol snapshot not found: " ++ path
  | .malformed path expected line column =>
    path ++ ":" ++ toString line ++ ":" ++ toString column ++ " " ++ expected.message
  | .excessive e => e.message
  | .invalid issues => "Invalid symbol snapshot:\n" ++ Issue.headline "SymbolSnapshot" issues
  | .assemblyClash name first second =>
    "Type " ++ name ++ " is declared in both assembly " ++ Text.quoted first ++ " and " ++
      Text.quoted second ++ "."

/-- Whether the document is to blame, and not the bounds of reading. -/
def LoadError.blamesDocument : LoadError → Bool
  | .excessive _ => false
  | _ => true

def LoadError.ofReadError (path : String) : Json.ReadError → LoadError
  | .expecting expected line column => .malformed path expected line column
  | .excess e => .excessive e

def group (parts : List Symbol.Part) : Table String (List Symbol.Part) :=
  parts.foldl (fun t part => Table.push part.lookupName part t) []

/-- The first part whose assembly differs from that of the part of its name before it. -/
def clash? (assemblies : Table String String) : List Symbol.Part → Option LoadError
  | [] => none
  | part :: rest =>
    match assemblies.get? part.lookupName with
    | none => clash? (assemblies.set part.lookupName part.assembly) rest
    | some assembly =>
      if assembly == part.assembly then clash? assemblies rest
      else some (.assemblyClash part.lookupName assembly part.assembly)

def addNew {α : Type} [BEq α] (old new : List α) : List α :=
  new.foldl (fun all a => if all.contains a then all else all ++ [a]) old

def nonEmpty? : Option String → Option String
  | some "" => none
  | s? => s?

/-- One type from its parts, the first of which is given apart. -/
def merge (first : Symbol.Part) (parts : List Symbol.Part) : TypeSymbol :=
  { first.toDeclaration with
    baseType := parts.findSome? fun part => nonEmpty? part.baseType
    markers := parts.foldl (fun all part => addNew all part.markers) []
    members := parts.flatMap (·.members)
    sourcePaths := addNew [] (parts.filterMap fun part => nonEmpty? part.sourcePath) }

def mergeGroup : String × List Symbol.Part → Option (String × TypeSymbol)
  | (_, []) => none
  | (name, first :: rest) => some (name, merge first (first :: rest))

def ofParts (parts : List Symbol.Part) : Except LoadError SymbolTable :=
  match clash? [] parts with
  | some error => .error error
  | none => .ok ((group parts).filterMap mergeGroup)

/-- How a decoded document is read as the parts of types, or where it misses its form. -/
abbrev Reader := Json → Except (List Issue) (List Symbol.Part)

def ofDocument (read : Reader) (document : Json) : Except LoadError SymbolTable := do
  ofParts (← (read document).mapError .invalid)

/-- The table of a document's text, read from the given file. -/
def ofText (read : Reader) (path text : String) : Except LoadError SymbolTable := do
  ofDocument read (← (Json.parse text).mapError (.ofReadError path))

end SymbolTable
end SceneCodegen
