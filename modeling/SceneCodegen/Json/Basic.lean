import SceneCodegen.Number.Shortest
import SceneCodegen.Text.Quoted

/-!
# JSON values

Values of the JSON format, with integers of any size kept apart from binary numbers, and members in
the order of their first appearance. Two values count as the same when they are equal as numbers:
an integer, the equal binary number, and for 0 and 1 the truth value, are one value, and the order
of members does not matter.
-/
namespace SceneCodegen

inductive Json
  | null
  | bool (b : Bool)
  | int (n : Int)
  | float (x : Number.Binary)
  | text (s : String)
  | list (items : List Json)
  | object (members : List (String × Json))
  deriving Inhabited

namespace Json

/-- The numerator and the denominator of a finite number or truth value. -/
def ratio? : Json → Option (Int × Nat)
  | .bool b => some (if b then 1 else 0, 1)
  | .int n => some (n, 1)
  | .float x => x.ratio?
  | _ => none

def sameScalar : Json → Json → Bool
  | .null, .null => true
  | .text s, .text t => s == t
  | .float x, .float y => x.sameValue y
  | x, y =>
    match x.ratio?, y.ratio? with
    | some (a, b), some (c, d) => a * d == c * b
    | _, _ => false

/-- The order of two numbers, truth values among them. An infinite number lies beyond all others,
and one that is undefined is not told apart from any. -/
def order? (x y : Json) : Option Ordering :=
  match x, y, x.ratio?, y.ratio? with
  | _, _, some (a, b), some (c, d) => some (compare (a * d) (c * b))
  | .float (.infinite m), .float (.infinite n), _, _ => some (compare n m)
  | .float (.infinite m), _, _, some _ => some (if m then .lt else .gt)
  | _, .float (.infinite n), some _, _ => some (if n then .gt else .lt)
  | .float _, .float _, _, _ | .float _, _, _, some _ | _, .float _, some _, _ => some .eq
  | _, _, _, _ => none

mutual
def same : Json → Json → Bool
  | .list xs, .list ys => sameItems xs ys
  | .object xs, .object ys => xs.length == ys.length && sameMembers xs ys
  | x, y => sameScalar x y

def sameItems : List Json → List Json → Bool
  | [], [] => true
  | x :: xs, y :: ys => same x y && sameItems xs ys
  | _, _ => false

def sameMembers : List (String × Json) → List (String × Json) → Bool
  | [], _ => true
  | (name, x) :: xs, ys =>
    (match ys.lookup name with
      | some y => same x y
      | none => false) && sameMembers xs ys
end

/-- Equality of values, not of spellings. -/
instance : BEq Json := ⟨same⟩

/-- Whether a value counts as true: not null, not zero, not empty. -/
def isTruthy : Json → Bool
  | .null => false
  | .bool b => b
  | .int n => n != 0
  | .float x => !x.isZero
  | .text s => s != ""
  | .list items => !items.isEmpty
  | .object members => !members.isEmpty

mutual
/-- A value as messages show it inside another value. -/
def shown : Json → String
  | .null => "None"
  | .bool b => if b then "True" else "False"
  | .int n => toString n
  | .float x => Number.plainStyle.text x
  | .text s => Text.quoted s
  | .list items => "[" ++ Text.join ", " (shownItems items) ++ "]"
  | .object members => "\x7b" ++ Text.join ", " (shownMembers members) ++ "\x7d"

def shownItems : List Json → List String
  | [] => []
  | x :: xs => shown x :: shownItems xs

def shownMembers : List (String × Json) → List String
  | [] => []
  | (name, x) :: xs => (Text.quoted name ++ ": " ++ shown x) :: shownMembers xs
end

def asText : Json → String
  | .text s => s
  | x => x.shown

def get? (name : String) : Json → Option Json
  | .object members => members.lookup name
  | _ => none

/-- Sets a member: the last value given for a name counts, at the place of the first. -/
def setMember (name : String) (x : Json) : List (String × Json) → List (String × Json)
  | [] => [(name, x)]
  | (n, y) :: rest => if n == name then (n, x) :: rest else (n, y) :: setMember name x rest

end Json
end SceneCodegen
