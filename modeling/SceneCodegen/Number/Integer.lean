import SceneCodegen.Text.Blank

/-!
# Integers in text

Two ways to read an integer that someone typed. Both trim the text, take a sign, let single
underscores stand between digits, and bound the number of digits. The strict one takes the decimal
digits of every script; the lenient one takes ASCII digits alone, but passes over zeros in front
and over a fraction of zeros, and says of a number that it is too long.
-/
namespace SceneCodegen.Number

/-- The zeros of the scripts that have decimal digits; the other nine follow each zero. -/
def zeroDigits : List Nat :=
  [0x30, 0x660, 0x6F0, 0x7C0, 0x966, 0x9E6, 0xA66, 0xAE6, 0xB66, 0xBE6, 0xC66, 0xCE6, 0xD66,
   0xDE6, 0xE50, 0xED0, 0xF20, 0x1040, 0x1090, 0x17E0, 0x1810, 0x1946, 0x19D0, 0x1A80, 0x1A90,
   0x1B50, 0x1BB0, 0x1C40, 0x1C50, 0xA620, 0xA8D0, 0xA900, 0xA9D0, 0xA9F0, 0xAA50, 0xABF0,
   0xFF10, 0x104A0, 0x10D30, 0x11066, 0x110F0, 0x11136, 0x111D0, 0x112F0, 0x11450, 0x114D0,
   0x11650, 0x116C0, 0x11730, 0x118E0, 0x11950, 0x11C50, 0x11D50, 0x11DA0, 0x16A60, 0x16AC0,
   0x16B50, 0x1D7CE, 0x1D7D8, 0x1D7E2, 0x1D7EC, 0x1D7F6, 0x1E140, 0x1E2F0, 0x1E950, 0x1FBF0]

def decimalDigit (c : Char) : Option Nat :=
  (zeroDigits.find? fun first => first ≤ c.toNat && c.toNat ≤ first + 9).map (c.toNat - ·)

/-- Integers of more digits than this are not read. -/
def mostDigits : Nat := 4300

/-- The values of digits with single underscores between them, after a digit already read. -/
def moreDigits : List Char → Option (List Nat)
  | [] => some []
  | '_' :: c :: rest => (decimalDigit c).bind fun d => (moreDigits rest).map (d :: ·)
  | c :: rest => (decimalDigit c).bind fun d => (moreDigits rest).map (d :: ·)

def strictNatural? : List Char → Option Nat
  | [] => none
  | c :: rest =>
    (decimalDigit c).bind fun d =>
      (moreDigits rest).bind fun digits =>
        if mostDigits ≤ digits.length then none
        else some (digits.foldl (fun n d => n * 10 + d) d)

def strictInteger? (s : String) : Option Int :=
  match Text.trimBoth Text.isWhiteSpace s.toList with
  | '-' :: rest => (strictNatural? rest).map fun n => -(n : Int)
  | '+' :: rest => (strictNatural? rest).map fun n => (n : Int)
  | cs => (strictNatural? cs).map fun n => (n : Int)

/-- Why a text is not taken for an integer. -/
inductive IntegerFault
  | malformed
  | tooLong
  deriving DecidableEq, Repr

def isDigit (c : Char) : Bool := '0' ≤ c && c ≤ '9'

/-- A text after a zero, or an underscore after one, from its first significant character on: a
digit that is not zero, or a minus sign. Before a point or the end the character already read is
still needed. -/
def afterZero (last : Char) : List Char → Option (List Char)
  | [] => some [last]
  | c :: rest =>
    if c == '0' || c == '_' then afterZero c rest
    else if c == '.' then some (last :: c :: rest)
    else if c == '-' || isDigit c then some (c :: rest)
    else none

/-- A text without the zeros in front. -/
def dropLeadingZeros : List Char → Option (List Char)
  | [] => none
  | '0' :: rest => afterZero '0' rest
  | c :: rest => if c == '-' || isDigit c then some (c :: rest) else none

/-- Drops a point with zeros after it, at least one, from the end of a text. -/
def dropZeroFraction (cs : List Char) : List Char :=
  match cs.dropWhile (· != '.') with
  | '.' :: zeros =>
    if !zeros.isEmpty && zeros.all (· == '0') then cs.takeWhile (· != '.') else cs
  | _ => cs

/-- Drops underscores, each of which has to stand between two digits. -/
def joinDigits (afterDigit : Bool) : List Char → Option (List Char)
  | [] => some []
  | '_' :: c :: rest =>
    if afterDigit && isDigit c then (joinDigits true rest).map (c :: ·) else none
  | c :: rest => if c == '_' then none else (joinDigits (isDigit c) rest).map (c :: ·)

/-- An integer with nothing around it. It starts with a zero only if it is zero, and a sign counts
as one of its digits. -/
def plainInteger (cs : List Char) : Except IntegerFault Int :=
  let (negative, unsigned) := match cs with
    | '-' :: rest => (true, rest)
    | _ => (false, cs)
  let digits := unsigned.takeWhile isDigit
  if unsigned == ['0'] then .ok 0
  else if digits.isEmpty || digits.head? == some '0' then .error .malformed
  else if mostDigits < digits.length + negative.toNat then .error .tooLong
  else if digits.length < unsigned.length then .error .malformed
  else
    let n : Int := (digits.foldl (fun n c => n * 10 + (c.toNat - 48)) 0 : Nat)
    .ok (if negative then -n else n)

/-- A plus sign is dropped, unless a minus sign follows it. -/
def dropPlus : List Char → Option (List Char)
  | '+' :: '-' :: _ => none
  | '+' :: rest => some rest
  | cs => some cs

def lenientInteger (s : String) : Except IntegerFault Int :=
  match (dropPlus (Text.trimBoth Text.isWhiteSpace s.toList)).bind dropLeadingZeros with
  | none => .error .malformed
  | some cs =>
    let cs := dropZeroFraction cs
    plainInteger ((joinDigits false cs).getD cs)

end SceneCodegen.Number
