import SceneCodegen.Settings.Sources
import SceneCodegen.Text.Blank
import SceneCodegen.Text.Search

/-!
# Environment files

Files of assignments `NAME=value`, one after another. A value may be quoted, and then go on over
several lines; an unquoted one ends at the end of its line, or before a blank with a number sign.
What cannot be read is skipped up to the end of its line. Lines end with a line feed.
-/
namespace SceneCodegen.EnvironmentFile

/-- A name with its value, if one is assigned to it. -/
structure Assignment where
  name : String
  value : Option String
  deriving DecidableEq, Repr

def isInlineBlank (c : Char) : Bool := Text.isBlank c && c != '\n'

def skipInline (cs : List Char) : List Char := cs.dropWhile isInlineBlank

def restOfLine (cs : List Char) : List Char := (cs.dropWhile (· != '\n')).drop 1

def exportWord : List Char := "export".toList

/-- Skips the word that marks an assignment as exported. -/
def skipExport (cs : List Char) : List Char :=
  let rest := cs.drop exportWord.length
  if exportWord.isPrefixOf cs && rest.head?.any isInlineBlank then skipInline rest else cs

def isNameChar (c : Char) : Bool := c != '=' && c != '#' && !Text.isBlank c

/-- A name, in quotes or not, with what follows it. -/
def readName (cs : List Char) : Option (List Char × List Char) :=
  match cs with
  | '\'' :: rest =>
    match Text.cutAt '\'' rest with
    | some (name, rest) => if name.isEmpty then none else some (name, rest)
    | none => none
  | cs =>
    let name := cs.takeWhile isNameChar
    if name.isEmpty then none else some (name, cs.dropWhile isNameChar)

/-- The text up to a closing quote. A backslash takes the next character along, whatever it is. -/
def readQuoted (quote : Char) : List Char → Option (List Char × List Char)
  | [] => none
  | '\\' :: c :: rest => (readQuoted quote rest).map fun (text, after) => ('\\' :: c :: text, after)
  | c :: rest =>
    if c == quote then some ([], rest)
    else (readQuoted quote rest).map fun (text, after) => (c :: text, after)

/-- What a character after a backslash stands for between single quotes. -/
def singleEscape : Char → Option Char
  | '\\' => some '\\'
  | '\'' => some '\''
  | _ => none

/-- What a character after a backslash stands for between double quotes. -/
def doubleEscape : Char → Option Char
  | '\\' => some '\\'
  | '\'' => some '\''
  | '"' => some '"'
  | 'a' => some '\x07'
  | 'b' => some '\x08'
  | 'f' => some '\x0c'
  | 'n' => some '\n'
  | 'r' => some '\r'
  | 't' => some '\t'
  | 'v' => some '\x0b'
  | _ => none

def unescape (escape : Char → Option Char) : List Char → List Char
  | [] => []
  | '\\' :: c :: rest =>
    match escape c with
    | some d => d :: unescape escape rest
    | none => '\\' :: unescape escape (c :: rest)
  | c :: rest => c :: unescape escape rest

/-- Cuts off a comment: a number sign after a blank, and all that follows. -/
def cutComment (afterBlank : Bool) : List Char → List Char
  | [] => []
  | c :: rest => if afterBlank && c == '#' then [] else c :: cutComment (Text.isBlank c) rest

/-- The value at the start of a text, with what follows it. -/
def readValue (afterBlank : Bool) (cs : List Char) : Option (List Char × List Char) :=
  match cs with
  | '\'' :: rest => (readQuoted '\'' rest).map fun (text, after) =>
      (unescape singleEscape text, after)
  | '"' :: rest => (readQuoted '"' rest).map fun (text, after) =>
      (unescape doubleEscape text, after)
  | cs =>
    let line := cs.takeWhile (· != '\n')
    some (Text.trimEndChars Text.isBlank (cutComment afterBlank line), cs.dropWhile (· != '\n'))

/-- The start of the next line, if there is at most a comment before it. -/
def endOfLine (cs : List Char) : Option (List Char) :=
  match skipInline cs with
  | [] => some []
  | '\n' :: rest => some rest
  | '#' :: rest => some (restOfLine rest)
  | _ => none

/-- An assignment with what follows it, or where reading failed. -/
def readAssignment (cs : List Char) : Except (List Char) (Assignment × List Char) :=
  match readName cs with
  | none => .error cs
  | some (name, rest) =>
    match skipInline rest with
    | '=' :: rest =>
      let start := skipInline rest
      match readValue (start.length < rest.length) start with
      | none => .error start
      | some (value, rest) => .ok (⟨String.ofList name, some (String.ofList value)⟩, rest)
    | rest => .ok (⟨String.ofList name, none⟩, rest)

/-- What a text says from its first character that is not blank to the end of a line. -/
inductive Statement
  | assignment (a : Assignment)
  | comment
  | unreadable
  deriving DecidableEq, Repr

/-- The statement that starts with the first character of a text, and what follows it. -/
def readStatement (cs : List Char) : Statement × List Char :=
  let cs := skipExport cs
  if cs.head? == some '#' then (.comment, restOfLine cs)
  else match readAssignment cs with
    | .error rest => (.unreadable, restOfLine rest)
    | .ok (a, rest) =>
      match endOfLine rest with
      | none => (.unreadable, restOfLine rest)
      | some next => (.assignment a, next)

/-- The statements of a text that is not longer than the bound, each with the number of the line
after the one before it. -/
def statementsFrom : (bound line : Nat) → List Char → List (Nat × Statement)
  | 0, _, _ => []
  | bound + 1, line, cs =>
    match cs.dropWhile Text.isBlank with
    | [] => []
    | start =>
      let (statement, next) := readStatement start
      let passed := cs.take (cs.length - next.length)
      (line, statement) :: statementsFrom bound (line + passed.count '\n') next

def statements (text : String) : List (Nat × Statement) :=
  statementsFrom (text.length + 1) 1 text.toList

/-- What a file says, and what is said of the statements that cannot be read. -/
def contents (text : String) : Contents where
  pairs := (statements text).filterMap fun (_, statement) =>
    match statement with
    | .assignment a => some (a.name, a.value)
    | _ => none
  complaints := (statements text).filterMap fun (line, statement) =>
    if statement == .unreadable then
      some ("python-dotenv could not parse statement starting at line " ++ toString line)
    else none

end SceneCodegen.EnvironmentFile
