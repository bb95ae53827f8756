import SceneCodegen.Text.Search

/-!
# Diagnostics

What the program reports about its inputs: a numbered finding with a severity, a message and a
place. Findings are collected as sets and shown in one order, by place, then severity, then number
and message.
-/
namespace SceneCodegen

/-- A place in a source file. Lines and columns count from one; zero stands for unknown. -/
structure SourceLocation where
  path : String := ""
  line : Int := 0
  column : Int := 0
  deriving DecidableEq, Repr, Inhabited

def SourceLocation.text (l : SourceLocation) : String :=
  if l.path == "" then "<unknown>"
  else if l.line == 0 then l.path
  else l.path ++ ":" ++ toString l.line ++ ":" ++ toString l.column

inductive Severity | error | warning | info | other (name : String)
  deriving DecidableEq, Repr

namespace Severity

def ofText : String → Severity
  | "error" => .error
  | "warning" => .warning
  | "info" => .info
  | name => .other name

def text : Severity → String
  | .error => "error"
  | .warning => "warning"
  | .info => "info"
  | .other name => name

def rank : Severity → Nat
  | .error => 0
  | .warning => 1
  | .info => 2
  | .other _ => 3

end Severity

structure Diagnostic where
  id : String
  severity : Severity
  message : String
  location : SourceLocation := {}
  deriving DecidableEq, Repr

namespace Diagnostic

def duplicateAccessorPath : String := "GH0001"
def signalNameSuffix : String := "GH0002"
def ambiguousSingleton : String := "GH0003"
def unregisteredSingleton : String := "GH0004"
def duplicateHintName : String := "GH0005"
def unexpectedFailure : String := "GH9999"

def isError (d : Diagnostic) : Bool := d.severity == .error

def text (d : Diagnostic) : String :=
  d.location.text ++ ": " ++ d.severity.text ++ " " ++ d.id ++ ": " ++ d.message

/-- The order in which findings are shown. -/
def compare (a b : Diagnostic) : Ordering :=
  (Ord.compare a.location.path b.location.path).then <|
  (Ord.compare a.location.line b.location.line).then <|
  (Ord.compare a.location.column b.location.column).then <|
  (Ord.compare a.severity.rank b.severity.rank).then <|
  (Ord.compare a.id b.id).then (Ord.compare a.message b.message)

def le (a b : Diagnostic) : Bool := (compare a b).isLE

/-- The findings as a set, in the order in which they are shown. -/
def sorted (ds : List Diagnostic) : List Diagnostic := ds.eraseDups.mergeSort le

end Diagnostic
end SceneCodegen
