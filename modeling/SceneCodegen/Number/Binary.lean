/-!
# Binary floating-point numbers

The numbers of the 64-bit binary format as exact values: an integer mantissa times a power of two.
A finite number is kept in its one normal form, so two finite numbers of one sign have the same
value just when they are equal. Decimals are read to the nearest such number, ties to the even
mantissa.
-/
namespace SceneCodegen.Number

inductive Binary
  | finite (negative : Bool) (mantissa : Nat) (exponent : Int)
  | infinite (negative : Bool)
  | undefined
  deriving DecidableEq, Repr

namespace Binary

/-- The mantissas of normal numbers lie from here to twice here. -/
def leastNormal : Nat := Nat.pow 2 52

def leastExponent : Int := -1074

def greatestExponent : Int := 971

def powerOfTwo (q : Int) : Nat × Nat := (Nat.pow 2 q.toNat, Nat.pow 2 (-q).toNat)

/-- The quotient rounded to the nearest natural number, a tie to the even one. -/
def roundDiv (num den : Nat) : Nat :=
  let low := num / den
  let twice := 2 * (num % den)
  if twice < den || (twice == den && low % 2 == 0) then low else low + 1

/-- The exponent at which a quotient has a mantissa of 53 bits, if that is not below the least. -/
def fittingExponent (num den : Nat) : Int :=
  let guess : Int := (Nat.log2 num : Int) - (Nat.log2 den : Int) - 52
  let (up, down) := powerOfTwo guess
  let exact := if num * down < leastNormal * (den * up) then guess - 1 else guess
  max exact leastExponent

/-- The number nearest to a quotient of natural numbers. -/
def ofQuotient (negative : Bool) (num den : Nat) : Binary :=
  if num == 0 then .finite negative 0 leastExponent
  else
    let q := fittingExponent num den
    let (up, down) := powerOfTwo q
    let m := roundDiv (num * down) (den * up)
    let (m, q) := if m == 2 * leastNormal then (leastNormal, q + 1) else (m, q)
    if greatestExponent < q then .infinite negative else .finite negative m q

/-- The number nearest to `digits` times a power of ten. Powers that lie outside every finite
number are not computed. -/
def ofDecimal (negative : Bool) (digits : Nat) (power : Int) : Binary :=
  let size : Int := (Nat.toDigits 10 digits).length + power
  if digits == 0 || size < -330 then .finite negative 0 leastExponent
  else if 330 < size then .infinite negative
  else ofQuotient negative (digits * Nat.pow 10 power.toNat) (Nat.pow 10 (-power).toNat)

def isNegative : Binary → Bool
  | .finite negative _ _ => negative
  | .infinite negative => negative
  | .undefined => false

def isZero : Binary → Bool
  | .finite _ m _ => m == 0
  | _ => false

/-- The integer a number is equal to, if there is one. -/
def toInt? : Binary → Option Int
  | .finite negative m q =>
    let (up, down) := powerOfTwo q
    if m * up % down == 0 then
      let n : Int := (m * up / down : Nat)
      some (if negative then -n else n)
    else none
  | _ => none

/-- The numerator and the denominator of a finite number. -/
def ratio? : Binary → Option (Int × Nat)
  | .finite negative m q =>
    let (up, down) := powerOfTwo q
    let n : Int := (m * up : Nat)
    some (if negative then -n else n, down)
  | _ => none

/-- Equality of values: that of quotients where both are finite. The undefined number
is one value. -/
def sameValue (x y : Binary) : Bool :=
  match x.ratio?, y.ratio? with
  | some (a, b), some (c, d) => a * d == c * b
  | _, _ => x == y

end Binary
end SceneCodegen.Number
