import SceneCodegen.Text.Blank
import SceneCodegen.Text.Search

/-!
# Fragments

A fragment is one generated file: its name and its text. A text ends with exactly one line feed, and
with no blank before it. Names from the project become identifiers of the generated C# code, and
texts become string literals, with a backslash before each backslash and double quote.
-/
namespace SceneCodegen

structure GeneratedFragment where
  hintName : String
  text : String
  deriving DecidableEq, Repr

namespace Fragment

def isWordChar (c : Char) : Bool := c.isAlphanum || c == '_'

/-- A field's name in the case of a property: the parts between other characters and underscores,
each with its first letter raised. -/
def pascalCase (name : String) : String :=
  let parts := Text.fields '_' (name.toList.map fun c => if isWordChar c then c else '_')
  String.ofList (parts.flatMap fun
    | [] => []
    | c :: rest => c.toUpper :: rest)

def keywords : List String :=
  ["abstract", "as", "base", "bool", "break", "byte", "case", "catch", "char", "checked", "class",
   "const", "continue", "decimal", "default", "delegate", "do", "double", "else", "enum", "event",
   "explicit", "extern", "false", "finally", "fixed", "float", "for", "foreach", "goto", "if",
   "implicit", "in", "int", "interface", "internal", "is", "lock", "long", "namespace", "new",
   "null", "object", "operator", "out", "override", "params", "private", "protected", "public",
   "readonly", "ref", "return", "sbyte", "sealed", "short", "sizeof", "stackalloc", "static",
   "string", "struct", "switch", "this", "throw", "true", "try", "typeof", "uint", "ulong",
   "unchecked", "unsafe", "ushort", "using", "virtual", "void", "volatile", "while"]

/-- A name as an identifier: underscores for other characters, one more before a digit, and an `@`
before a keyword. -/
def identifier (name : String) : String :=
  let word := match name.toList.map fun c => if isWordChar c then c else '_' with
    | [] => ['_']
    | c :: rest => if c.isDigit then '_' :: c :: rest else c :: rest
  let word := String.ofList word
  if keywords.contains word then "@" ++ word else word

def escapeChar (c : Char) : List Char := if c == '\\' || c == '"' then ['\\', c] else [c]

def stringLiteral (s : String) : String :=
  String.ofList ('"' :: s.toList.flatMap escapeChar ++ ['"'])

def eventSuffix : String := "EventHandler"

/-- The signal of a delegate: its name without the suffix that it has to have. -/
def signalName? (delegate : String) : Option String :=
  if Text.hasSuffix eventSuffix delegate && delegate != eventSuffix then
    some (Text.dropSuffix eventSuffix delegate)
  else none

def indent : String := "    "

def indent2 : String := indent ++ indent

def ofLines (hintName : String) (lines : List String) : GeneratedFragment :=
  ⟨hintName, Text.trimEnd (Text.join "\n" lines) ++ "\n"⟩

def dropEmptyEnd (lines : List String) : List String :=
  (lines.reverse.dropWhile (· == "")).reverse

/-- The line that puts the rest of a file into a namespace. -/
def fileNamespace (nameSpace : String) : List String :=
  if nameSpace == "" then [] else ["namespace " ++ nameSpace ++ ";", ""]

end Fragment
end SceneCodegen
