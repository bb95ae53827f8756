import SceneCodegen.Number.Binary

/-!
# The shortest decimal of a number

A finite number is written with the fewest digits that read back as it, and of two such decimals
with the nearer one. The digits are looked for on the decimal grids of 1, 2, 3, … places: a grid
that has a point in the interval of the reals that round to the number has one beside the number.
-/
namespace SceneCodegen.Number

/-- The positive number as a quotient, with half the gaps to the numbers below and above it, all
over one denominator. -/
structure Interval where
  value : Nat
  below : Nat
  above : Nat
  den : Nat
  /-- Whether the ends of the interval round to the number. -/
  closed : Bool

def Interval.of (mantissa : Nat) (exponent : Int) : Interval :=
  let (up, down) := Binary.powerOfTwo exponent
  let narrow := mantissa == Binary.leastNormal && Binary.leastExponent < exponent
  { value := 4 * mantissa * up
    below := (if narrow then 1 else 2) * up
    above := 2 * up
    den := 4 * down
    closed := mantissa % 2 == 0 }

/-- Whether `digits * 10 ^ power` rounds to the number. -/
def Interval.holds (i : Interval) (digits : Nat) (power : Int) : Bool :=
  let point := digits * Nat.pow 10 power.toNat * i.den
  let scale := Nat.pow 10 (-power).toNat
  if i.closed then (i.value - i.below) * scale ≤ point && point ≤ (i.value + i.above) * scale
  else (i.value - i.below) * scale < point && point < (i.value + i.above) * scale

/-- The power of ten just above the number: its first digit stands right after the point of
`0.d × 10 ^ size`. -/
def Interval.decimalSize (i : Interval) : Int :=
  let guess : Int := ((Nat.toDigits 10 i.value).length : Int) - (Nat.toDigits 10 i.den).length
  if i.den * Nat.pow 10 guess.toNat ≤ i.value * Nat.pow 10 (-guess).toNat then guess + 1 else guess

/-- The grid point beside the number that rounds to it, the nearer one of two. -/
def Interval.onGrid (i : Interval) (power : Int) : Option Nat :=
  let num := i.value * Nat.pow 10 (-power).toNat
  let den := i.den * Nat.pow 10 power.toNat
  let low := num / den
  let twice := 2 * (num % den)
  let nearLow := twice < den || (twice == den && low % 2 == 0)
  match i.holds low power, i.holds (low + 1) power with
  | true, true => some (if nearLow then low else low + 1)
  | true, false => some low
  | false, true => some (low + 1)
  | false, false => none

def Interval.search (i : Interval) (size : Int) : Nat → Nat → Nat × Int
  | _, 0 => (i.value / i.den, 0)
  | places, more + 1 =>
    match i.onGrid (size - places) with
    | some digits => (digits, size - places)
    | none => i.search size (places + 1) more

/-- Digits and power of ten of the shortest decimal that rounds to the number; 17 digits always
suffice. -/
def Interval.shortest (i : Interval) : Nat × Int := i.search i.decimalSize 1 17

/-- The way a format writes numbers. -/
structure NumberStyle where
  /-- Positional notation is used while the point stands at most this far left of the digits. -/
  leastPoint : Int
  /-- Positional notation is used while the point stands at most this far right in them. -/
  greatestPoint : Int
  exponentDigits : Nat
  infinity : String
  undefined : String

/-- Positional from 0.0001 up to below 10 ^ 16, always with a digit after the point; exponents have
a sign and at least two digits. -/
def plainStyle : NumberStyle := ⟨-3, 16, 2, "inf", "nan"⟩

/-- As `plainStyle`, with the words of the JSON format for what is not finite. -/
def jsonStyle : NumberStyle := { plainStyle with infinity := "Infinity", undefined := "NaN" }

def zeros (n : Int) : List Char := List.replicate n.toNat '0'

/-- Digits with the point at a place counted from before the first digit. -/
def NumberStyle.digitsText (style : NumberStyle) (digits : List Char) (point : Int) : List Char :=
  let count : Int := digits.length
  if style.leastPoint ≤ point && point ≤ style.greatestPoint then
    if point ≤ 0 then '0' :: '.' :: (zeros (-point) ++ digits)
    else if count ≤ point then digits ++ zeros (point - count) ++ ['.', '0']
    else digits.take point.toNat ++ '.' :: digits.drop point.toNat
  else
    let exponent := point - 1
    let written := Nat.toDigits 10 exponent.natAbs
    let fraction := if digits.length ≤ 1 then [] else '.' :: digits.drop 1
    digits.take 1 ++ fraction ++ 'e' :: (if exponent < 0 then '-' else '+') ::
      (zeros (style.exponentDigits - written.length) ++ written)

def dropTrailingZeros (digits : List Char) : List Char :=
  (digits.reverse.dropWhile (· == '0')).reverse

def NumberStyle.text (style : NumberStyle) (x : Binary) : String :=
  let sign := if x.isNegative then "-" else ""
  match x with
  | .undefined => style.undefined
  | .infinite _ => sign ++ style.infinity
  | .finite _ 0 _ => sign ++ "0.0"
  | .finite _ m q =>
    let (n, power) := (Interval.of m q).shortest
    let digits := Nat.toDigits 10 n
    sign ++ String.ofList (style.digitsText (dropTrailingZeros digits) (digits.length + power))

end SceneCodegen.Number
