import SceneCodegen.Json.Basic
import SceneCodegen.Number.Integer
import SceneCodegen.Path

/-!
# Checked documents

Reading a JSON value as a value of a given form. Where the form is missed, every place at which it
is missed is reported, in the order of the form's fields and not only the first. Truth values,
integers and texts are read leniently: what plainly stands for one is taken.
-/
namespace SceneCodegen

/-- What is wrong at one place of a document. -/
inductive IssueKind
  | missing
  | notModel
  | notTuple
  | notText
  | notPath
  | notLiteral
  | notBool
  | boolText
  | notInteger
  | integerText
  | integerFraction
  | integerSize
  | notFinite
  | tooLong
  deriving DecidableEq, Repr

def IssueKind.code : IssueKind → String
  | .missing => "missing"
  | .notModel => "model_type"
  | .notTuple => "tuple_type"
  | .notText => "string_type"
  | .notPath => "path_type"
  | .notLiteral => "literal_error"
  | .notBool => "bool_type"
  | .boolText => "bool_parsing"
  | .notInteger => "int_type"
  | .integerText => "int_parsing"
  | .integerFraction => "int_from_float"
  | .integerSize => "int_parsing_size"
  | .notFinite => "finite_number"
  | .tooLong => "too_long"

inductive Step | field (name : String) | item (index : Nat)
  deriving DecidableEq, Repr

structure Issue where
  place : List Step
  kind : IssueKind
  deriving DecidableEq, Repr

/-- The headline of a report of issues in a document of the given name. -/
def Issue.headline (document : String) (issues : List Issue) : String :=
  toString issues.length ++ (if issues.length == 1 then " validation error" else
    " validation errors")
    ++ " for " ++ document

inductive Checked (α : Type)
  | valid (a : α)
  | invalid (issues : List Issue)

namespace Checked

def map {α β : Type} (f : α → β) : Checked α → Checked β
  | valid a => valid (f a)
  | invalid issues => invalid issues

/-- Both sides are read, and the issues of both are reported. -/
def both {α β : Type} : Checked (α → β) → Checked α → Checked β
  | valid f, valid a => valid (f a)
  | valid _, invalid issues => invalid issues
  | invalid issues, valid _ => invalid issues
  | invalid issues, invalid more => invalid (issues ++ more)

instance : Applicative Checked where
  pure := valid
  map := map
  seq f a := both f (a ())

def fail {α : Type} (kind : IssueKind) : Checked α := invalid [⟨[], kind⟩]

/-- Moves the places of all issues one step down. -/
def under {α : Type} (step : Step) : Checked α → Checked α
  | valid a => valid a
  | invalid issues => invalid (issues.map fun issue => { issue with place := step :: issue.place })

def toExcept {α : Type} : Checked α → Except (List Issue) α
  | valid a => .ok a
  | invalid issues => .error issues

abbrev Form (α : Type) := Json → Checked α

def text : Form String
  | .text s => valid s
  | _ => fail .notText

def path : Form Path
  | .text s => valid (.ofText s)
  | _ => fail .notPath

def nullable {α : Type} (form : Form α) : Form (Option α)
  | .null => valid none
  | x => some <$> form x

/-- One of a closed list of words. -/
def literal {α : Type} (ofText : String → Option α) : Form α
  | .text s =>
    match ofText s with
    | some a => valid a
    | none => fail .notLiteral
  | _ => fail .notLiteral

def trueWords : List String := ["1", "t", "true", "y", "yes", "on"]

def falseWords : List String := ["0", "f", "false", "n", "no", "off"]

/-- The integers that a machine word holds. -/
def isWord (n : Int) : Bool := -(Nat.pow 2 63 : Nat) ≤ n && n < (Nat.pow 2 63 : Nat)

/-- The integer that a binary number stands for. The least integer of a word is not taken, since
numbers beyond it are rounded to it. -/
def wholeNumber (x : Number.Binary) : Except IssueKind Int :=
  match x, x.toInt? with
  | .finite .., some n =>
    if isWord n && n != -(Nat.pow 2 63 : Nat) then .ok n else .error .integerSize
  | .finite .., none => .error .integerFraction
  | _, _ => .error .notFinite

/-- Truth values, the numbers 0 and 1, and their words in any case. -/
def bool : Form Bool
  | .bool b => valid b
  | .int n => if isWord n then ofWord n else fail .notBool
  | .float x =>
    match wholeNumber x with
    | .ok n => ofWord n
    | .error _ => fail .notBool
  | .text s =>
    let word := s.map Char.toLower
    if trueWords.contains word then valid true
    else if falseWords.contains word then valid false
    else fail .boolText
  | _ => fail .notBool
where
  ofWord (n : Int) : Checked Bool :=
    if n == 0 then valid false else if n == 1 then valid true else fail .boolText

/-- Integers, truth values, binary numbers without a fraction, and integers in text. -/
def integer : Form Int
  | .int n => valid n
  | .bool b => valid (if b then 1 else 0)
  | .float x =>
    match wholeNumber x with
    | .ok n => valid n
    | .error kind => fail kind
  | .text s =>
    match Number.lenientInteger s with
    | .ok n => valid n
    | .error .malformed => fail .integerText
    | .error .tooLong => fail .integerSize
  | _ => fail .notInteger

def anything : Form Json := valid

def itemsFrom {α : Type} (form : Form α) (index : Nat) : List Json → Checked (List α)
  | [] => valid []
  | x :: rest => List.cons <$> (form x).under (.item index) <*> itemsFrom form (index + 1) rest

def items {α : Type} (form : Form α) : Form (List α)
  | .list xs => itemsFrom form 0 xs
  | _ => fail .notTuple

/-- A pair of two given forms; a longer list is wrong as a whole. -/
def pair {α β : Type} (first : Form α) (second : Form β) : Form (α × β)
  | .list xs =>
    let at? (index : Nat) {γ : Type} (form : Form γ) : Checked γ :=
      ((xs[index]?.map form).getD (fail .missing)).under (.item index)
    if 2 < xs.length then fail .tooLong else Prod.mk <$> at? 0 first <*> at? 1 second
  | _ => fail .notTuple

def required {α : Type} (name : String) (form : Form α) (members : List (String × Json)) :
    Checked α :=
  ((members.lookup name |>.map form).getD (fail .missing)).under (.field name)

def optional {α : Type} (name : String) (default : α) (form : Form α)
    (members : List (String × Json)) : Checked α :=
  ((members.lookup name |>.map form).getD (valid default)).under (.field name)

/-- An object, read by its members; members of other names do not matter. -/
def model {α : Type} (build : List (String × Json) → Checked α) : Form α
  | .object members => build members
  | _ => fail .notModel

end Checked
end SceneCodegen
