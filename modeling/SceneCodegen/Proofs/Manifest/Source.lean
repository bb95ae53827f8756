import SceneCodegen.Proofs.Manifest.Lines

/-!
# Manifests before they are written

A manifest has sections that register singletons, sections that define input actions, and other
sections. A singleton is written in one line, with its path in quotes; an action is written with its
value, over several lines. Blank lines and comments stand anywhere.
-/
namespace SceneCodegen.Manifest

/-- A blank line or a comment. -/
structure Filler where
  line : String
  ignored : isIgnored (Text.trim line) = true

/-- A line that is no header, in a section of which nothing is read. -/
structure FreeLine where
  line : String
  noHeader : isHeader (Text.trim line) = false

/-- A name that is written without quotes, as the beginning of a line. -/
structure PlainName where
  text : String
  first : ∃ c rest, text.toList = c :: rest ∧ Text.isBlank c = false ∧ c ≠ ';' ∧ c ≠ '#'
  last : ∀ c, text.toList.getLast? = some c → Text.isBlank c = false
  plain : '=' ∉ text.toList

structure ScriptPath where
  text : String
  first : text.toList.head? ≠ some '"'
  last : text.toList.getLast? ≠ some '"'
  plain : '=' ∉ text.toList

structure ActionName extends PlainName where
  opensNothing : ∀ c, text.toList.head? = some c → opensValue c = false

/-- A line within the value of an action: one that holds no equals sign, or only in
what it opens. -/
structure ValueLine where
  line : String
  noHeader : isHeader (Text.trim line) = false
  silent : '=' ∈ line.toList → ∃ c rest, (Text.trim line).toList = c :: rest ∧
    (opensValue c = true ∨ c = ';' ∨ c = '#')

/-- The name of a section of which nothing is read. -/
structure OtherName where
  text : String
  filled : text ≠ ""
  other : sectionKind (Text.trim text) = none

inductive SingletonItem
  | entry (name : PlainName) (path : ScriptPath)
  | filler (f : Filler)

inductive ActionItem
  | entry (name : ActionName) (value : List ValueLine)
  | filler (f : Filler)

inductive WrittenSection
  | autoload (items : List SingletonItem)
  | input (items : List ActionItem)
  | other (name : OtherName) (lines : List FreeLine)

def SingletonItem.entries : SingletonItem → List Entry
  | .entry name path => [⟨.singleton, name.text, path.text⟩]
  | .filler _ => []

def ActionItem.entries : ActionItem → List Entry
  | .entry name _ => [⟨.inputAction, name.text, ""⟩]
  | .filler _ => []

def WrittenSection.entries : WrittenSection → List Entry
  | .autoload items => items.flatMap SingletonItem.entries
  | .input items => items.flatMap ActionItem.entries
  | .other _ _ => []

def headerLine (name : String) : String := "[" ++ name ++ "]"

def SingletonItem.line : SingletonItem → String
  | .entry name path => name.text ++ "=" ++ ("\"" ++ path.text ++ "\"")
  | .filler f => f.line

def ActionItem.lines : ActionItem → List String
  | .entry name value => (name.text ++ "=" ++ "\x7b") :: (value.map ValueLine.line ++ ["\x7d"])
  | .filler f => [f.line]

def WrittenSection.lines : WrittenSection → List String
  | .autoload items => headerLine "autoload" :: items.map SingletonItem.line
  | .input items => headerLine "input" :: items.flatMap ActionItem.lines
  | .other name lines => headerLine name.text :: lines.map FreeLine.line

/-- A manifest in which no two entries of one kind have the same name. -/
structure Source where
  /-- What stands before the first header. -/
  front : List FreeLine := []
  sections : List WrittenSection
  distinct : ((sections.flatMap WrittenSection.entries).map Entry.key).Nodup

namespace Source

/-- All entries in the order in which they are written. -/
def entries (s : Source) : List Entry := s.sections.flatMap WrittenSection.entries

def lines (s : Source) : List String :=
  s.front.map FreeLine.line ++ s.sections.flatMap WrittenSection.lines

end Source

end SceneCodegen.Manifest
