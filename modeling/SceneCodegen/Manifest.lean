import SceneCodegen.Text.Blank
import SceneCodegen.Text.Search

/-!
# The project manifest

A manifest is a list of lines under bracketed headers. Its `autoload` sections register singletons,
one `Name="path"` a line, and its `input` sections define input actions, each by a line that starts
with its name and an equals sign. Lines of any other form are passed over.
-/
namespace SceneCodegen.Manifest

inductive EntryKind | singleton | inputAction
  deriving DecidableEq, Repr

def EntryKind.text : EntryKind → String
  | .singleton => "singleton"
  | .inputAction => "input_action"

structure Entry where
  kind : EntryKind
  name : String
  path : String := ""
  deriving DecidableEq, Repr

/-- A header's name with the lines that stand under it. -/
structure Section where
  name : String
  lines : List String
  deriving DecidableEq, Repr

/-- Whether a trimmed line says nothing: it is empty or a comment. -/
def isIgnored (trimmed : String) : Bool :=
  match trimmed.toList with
  | [] => true
  | c :: _ => c == ';' || c == '#'

def isHeader (trimmed : String) : Bool :=
  let cs := trimmed.toList
  cs.head? == some '[' && cs.getLast? == some ']' && 2 < cs.length

def headerName (trimmed : String) : String :=
  Text.trim (String.ofList (trimmed.toList.drop 1).dropLast)

inductive Line | ignored | header (name : String) | body (line : String)
  deriving DecidableEq, Repr

def Line.of (line : String) : Line :=
  let trimmed := Text.trim line
  if isIgnored trimmed then .ignored
  else if isHeader trimmed then .header (headerName trimmed)
  else .body line

/-- The section read so far, if it has a name or lines. -/
def closeSection (name : String) (lines : List String) : List Section :=
  if name == "" && lines.isEmpty then [] else [⟨name, lines⟩]

/-- Sections in file order, the first being the one under way. -/
def sectionsFrom (name : String) (lines : List String) : List Line → List Section
  | [] => closeSection name lines
  | .ignored :: rest => sectionsFrom name lines rest
  | .header next :: rest => closeSection name lines ++ sectionsFrom next [] rest
  | .body line :: rest => sectionsFrom name (lines ++ [line]) rest

/-- Groups lines under the header before them; lines before the first header have an empty name. -/
def sections (lines : List String) : List Section := sectionsFrom "" [] (lines.map Line.of)

/-- The kind of entry the lines of a section are read as. -/
def sectionKind : String → Option EntryKind
  | "autoload" => some .singleton
  | "input" => some .inputAction
  | _ => none

/-- A line with one equals sign and a name before it registers a singleton. -/
def singletonOfLine (line : String) : Option Entry :=
  match Text.split '=' line with
  | [before, after] =>
    let name := Text.trim before
    if name == "" then none else some ⟨.singleton, name, Text.trimQuotes (Text.trim after)⟩
  | _ => none

/-- Characters that start a line within the value of an action. -/
def opensValue (c : Char) : Bool :=
  c == '"' || c == '\x7b' || c == '\x7d' || c == '[' || c == ']'

/-- A line with an equals sign and a name before it defines an input action. -/
def inputActionOfLine (line : String) : Option Entry :=
  match Text.split '=' line with
  | before :: _ :: _ =>
    let name := Text.trim before
    match name.toList with
    | [] => none
    | c :: _ => if opensValue c then none else some ⟨.inputAction, name, ""⟩
  | _ => none

def entryOfLine : EntryKind → String → Option Entry
  | .singleton => singletonOfLine
  | .inputAction => inputActionOfLine

def sectionEntries (s : Section) : List Entry :=
  match sectionKind s.name with
  | none => []
  | some kind => s.lines.filterMap (entryOfLine kind)

def keepFirst (seen : List (EntryKind × String)) : List Entry → List Entry
  | [] => []
  | e :: rest =>
    if seen.contains (e.kind, e.name) then keepFirst seen rest
    else e :: keepFirst ((e.kind, e.name) :: seen) rest

/-- The entries of a manifest in file order, one for each kind and name. -/
def parse (lines : List String) : List Entry :=
  keepFirst [] ((sections lines).flatMap sectionEntries)

end SceneCodegen.Manifest
