import SceneCodegen.Json.Basic

/-!
# Reading JSON

A reader that says what it expected, and where, when a text is not a JSON document. It also knows
the three words for numbers that are not finite. The place of a fault is kept as the part of the
text that was not read yet, from which line and column are counted. Two bounds hold while reading:
on the digits of an integer and on the depth of nesting.
-/
namespace SceneCodegen.Json

inductive Expectation
  | value
  | propertyName
  | colon
  | comma
  | endOfText
  | closingQuote
  | noControlCharacter
  | escape
  | hexEscape
  | noByteOrderMark
  deriving DecidableEq, Repr

def Expectation.message : Expectation → String
  | .value => "Expecting value"
  | .propertyName => "Expecting property name enclosed in double quotes"
  | .colon => "Expecting ':' delimiter"
  | .comma => "Expecting ',' delimiter"
  | .endOfText => "Extra data"
  | .closingQuote => "Unterminated string starting at"
  | .noControlCharacter => "Invalid control character at"
  | .escape => "Invalid \\escape"
  | .hexEscape => "Invalid \\uXXXX escape"
  | .noByteOrderMark => "Unexpected UTF-8 BOM (decode using utf-8-sig)"

inductive Container | list | object
  deriving DecidableEq, Repr

/-- A bound that a document goes beyond. -/
inductive Excess
  /-- An integer with so many digits. -/
  | digits (count : Nat)
  /-- A container nested too deep. -/
  | depth (container : Container)
  deriving DecidableEq, Repr

def mostDigits : Nat := 4300

/-- So many containers can be open at a time. -/
def mostOpen : Nat := 988

def Excess.message : Excess → String
  | digits count =>
    "Exceeds the limit (" ++ toString mostDigits ++
      " digits) for integer string conversion: value has " ++ toString count ++
      " digits; use sys.set_int_max_str_digits() to increase the limit"
  | depth .list =>
    "maximum recursion depth exceeded while decoding a JSON array from a unicode string"
  | depth .object =>
    "maximum recursion depth exceeded while decoding a JSON object from a unicode string"

inductive Fault
  /-- What was expected, and the text from the place where it was missing. -/
  | expecting (expected : Expectation) (rest : List Char)
  | excess (e : Excess)

abbrev Read (α : Type) := Except Fault (α × List Char)

def isSpace (c : Char) : Bool := c == ' ' || c == '\t' || c == '\n' || c == '\r'

def skipSpace (cs : List Char) : List Char := cs.dropWhile isSpace

def hexValue (c : Char) : Option Nat :=
  if '0' ≤ c && c ≤ '9' then some (c.toNat - 48)
  else if 'a' ≤ c && c ≤ 'f' then some (c.toNat - 87)
  else if 'A' ≤ c && c ≤ 'F' then some (c.toNat - 55)
  else none

def hexNumber (digits : List Char) : Option Nat :=
  digits.foldl (fun n? c => n?.bind fun n => (hexValue c).map (n * 16 + ·)) (some 0)

def simpleEscape : Char → Option Char
  | '"' => some '"'
  | '\\' => some '\\'
  | '/' => some '/'
  | 'b' => some '\x08'
  | 'f' => some '\x0c'
  | 'n' => some '\n'
  | 'r' => some '\r'
  | 't' => some '\t'
  | _ => none

/-- The code unit of the four digits after a `u`, when more text follows them. `start` is the text
from the `u` on. -/
def codeUnit (start : List Char) : Except Fault Nat :=
  if start.length ≤ 5 then .error (.expecting .hexEscape start)
  else match hexNumber ((start.drop 1).take 4) with
    | none => .error (.expecting .hexEscape start)
    | some n => .ok n

/-- The lower half of a surrogate pair, read from the text after the upper half. -/
def lowSurrogate? (after : List Char) : Except Fault (Option Nat) :=
  match after with
  | '\\' :: 'u' :: more =>
    if more.length ≤ 4 then .ok none
    else match hexNumber (more.take 4) with
      | none => .error (.expecting .hexEscape ('u' :: more))
      | some low => .ok (if 0xDC00 ≤ low && low ≤ 0xDFFF then some low else none)
  | _ => .ok none

/-- The character of the escape that starts with this `u`, and how much text it takes. -/
def unicodeEscape (start : List Char) : Except Fault (Char × Nat) := do
  let unit ← codeUnit start
  if 0xD800 ≤ unit && unit ≤ 0xDBFF then
    match ← lowSurrogate? (start.drop 5) with
    | some low => pure (Char.ofNat (0x10000 + (unit - 0xD800) * 0x400 + (low - 0xDC00)), 11)
    | none => pure ('\uFFFD', 5)
  else if 0xDC00 ≤ unit && unit ≤ 0xDFFF then pure ('\uFFFD', 5)
  else pure (Char.ofNat unit, 5)

/-- The rest of a text after its opening quote; `opening` is the text from that quote on. -/
def readText (opening : List Char) (read : List Char) (cs : List Char) : Read String :=
  match cs with
  | [] => .error (.expecting .closingQuote opening)
  | '"' :: rest => .ok (String.ofList read.reverse, rest)
  | '\\' :: rest =>
    match rest with
    | [] => .error (.expecting .closingQuote opening)
    | 'u' :: more =>
      match unicodeEscape ('u' :: more) with
      | .error fault => .error fault
      | .ok (c, used) => readText opening (c :: read) (more.drop (used - 1))
    | c :: more =>
      match simpleEscape c with
      | none => .error (.expecting .escape ('\\' :: rest))
      | some d => readText opening (d :: read) more
  | c :: rest =>
    if c.toNat ≤ 0x1F then .error (.expecting .noControlCharacter (c :: rest))
    else readText opening (c :: read) rest
termination_by cs.length
decreasing_by all_goals (simp only [List.length_drop, List.length_cons]; omega)

def isDigit (c : Char) : Bool := '0' ≤ c && c ≤ '9'

def digitsValue (digits : List Char) : Nat :=
  digits.foldl (fun n c => n * 10 + (c.toNat - 48)) 0

/-- The digits of a fraction after its point, and the text after them; no digit, no fraction. -/
def readFraction (cs : List Char) : List Char × List Char :=
  match cs with
  | '.' :: rest =>
    match rest.takeWhile isDigit with
    | [] => ([], cs)
    | digits => (digits, rest.dropWhile isDigit)
  | _ => ([], cs)

def readExponentDigits (negative : Bool) (rest all : List Char) : Option Int × List Char :=
  match rest.takeWhile isDigit with
  | [] => (none, all)
  | digits =>
    let n : Int := digitsValue digits
    (some (if negative then -n else n), rest.dropWhile isDigit)

/-- The exponent of a number, and the text after it; a letter without digits is no exponent. -/
def readExponent (cs : List Char) : Option Int × List Char :=
  match cs with
  | c :: rest =>
    if c == 'e' || c == 'E' then
      match rest with
      | '-' :: more => readExponentDigits true more cs
      | '+' :: more => readExponentDigits false more cs
      | _ => readExponentDigits false rest cs
    else (none, cs)
  | [] => (none, cs)

/-- A number after its sign; a zero stands alone before the point. `start` is the text from the
sign on. -/
def readMagnitude (negative : Bool) (start cs : List Char) : Read Json :=
  let whole := match cs with
    | '0' :: _ => ['0']
    | _ => cs.takeWhile isDigit
  if whole.isEmpty then .error (.expecting .value start)
  else
    let (fraction, afterFraction) := readFraction (cs.drop whole.length)
    let (exponent, rest) := readExponent afterFraction
    if fraction.isEmpty && exponent.isNone then
      if mostDigits < whole.length then .error (.excess (.digits whole.length))
      else
        let n : Int := digitsValue whole
        .ok (.int (if negative then -n else n), rest)
    else
      let digits := digitsValue (whole ++ fraction)
      .ok (.float (.ofDecimal negative digits (exponent.getD 0 - fraction.length)), rest)

def readNumber (cs : List Char) : Read Json :=
  match cs with
  | '-' :: rest => readMagnitude true cs rest
  | _ => readMagnitude false cs cs

def words : List (List Char × Json) :=
  [("null".toList, .null), ("true".toList, .bool true), ("false".toList, .bool false),
   ("NaN".toList, .float .undefined), ("Infinity".toList, .float (.infinite false)),
   ("-Infinity".toList, .float (.infinite true))]

def readScalar (cs : List Char) : Read Json :=
  match words.find? fun (word, _) => word.isPrefixOf cs with
  | some (word, x) => .ok (x, cs.drop word.length)
  | none => readNumber cs

/-- The items of a list after its opening bracket, each read with `value`. The steps are more than
the items there can be. -/
def readItems (value : List Char → Read Json) :
    Nat → List Json → List Char → Except Fault (Json × List Char)
  | 0, _, cs => .error (.expecting .value cs)
  | steps + 1, read, cs => do
    let (x, rest) ← value cs
    match skipSpace rest with
    | ']' :: rest => pure (.list (x :: read).reverse, rest)
    | ',' :: rest => readItems value steps (x :: read) (skipSpace rest)
    | rest => throw (.expecting .comma rest)

/-- The members of an object after its opening brace. -/
def readMembers (value : List Char → Read Json) :
    Nat → List (String × Json) → List Char → Except Fault (Json × List Char)
  | 0, _, cs => .error (.expecting .propertyName cs)
  | steps + 1, read, cs =>
    match cs with
    | '"' :: afterQuote => do
      let (name, rest) ← readText cs [] afterQuote
      match skipSpace rest with
      | ':' :: rest =>
        let (x, rest) ← value (skipSpace rest)
        let read := setMember name x read
        match skipSpace rest with
        | '\x7d' :: rest => pure (.object read, rest)
        | ',' :: rest => readMembers value steps read (skipSpace rest)
        | rest => throw (.expecting .comma rest)
      | rest => throw (.expecting .colon rest)
    | _ => .error (.expecting .propertyName cs)

/-- A value that is no container. -/
def readPlain (cs : List Char) : Read Json :=
  match cs with
  | '"' :: rest => (readText cs [] rest).map fun (s, rest) => (.text s, rest)
  | _ => readScalar cs

/-- One value at the start of the text, nested at most as deep as the first argument. -/
def readValue : Nat → List Char → Read Json
  | 0, '[' :: _ => .error (.excess (.depth .list))
  | 0, '\x7b' :: _ => .error (.excess (.depth .object))
  | 0, cs => readPlain cs
  | depth + 1, '[' :: rest =>
    match skipSpace rest with
    | ']' :: rest => .ok (.list [], rest)
    | rest => readItems (readValue depth) (rest.length + 1) [] rest
  | depth + 1, '\x7b' :: rest =>
    match skipSpace rest with
    | '\x7d' :: rest => .ok (.object [], rest)
    | rest => readMembers (readValue depth) (rest.length + 1) [] rest
  | _ + 1, cs => readPlain cs

/-- Why a document could not be read. Lines and columns are counted from one, in characters. -/
inductive ReadError
  | expecting (expected : Expectation) (line column : Nat)
  | excess (e : Excess)
  deriving DecidableEq, Repr

/-- The place in a document at which `rest` is still unread. -/
def Fault.locate (document : List Char) : Fault → ReadError
  | expecting expected rest =>
    let before := document.take (document.length - rest.length)
    .expecting expected (before.count '\n' + 1)
      ((before.reverse.takeWhile (· != '\n')).length + 1)
  | excess e => .excess e

def readDocument (cs : List Char) : Except Fault Json :=
  match cs with
  | '\uFEFF' :: _ => .error (.expecting .noByteOrderMark cs)
  | _ => do
    let (x, rest) ← readValue mostOpen (skipSpace cs)
    match skipSpace rest with
    | [] => pure x
    | rest => throw (.expecting .endOfText rest)

def parse (s : String) : Except ReadError Json :=
  (readDocument s.toList).mapError (Fault.locate s.toList)

end SceneCodegen.Json
