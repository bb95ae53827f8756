import SceneCodegen.Graph.Stream
import SceneCodegen.Json.Basic

/-!
# Data of open graphs

One type for the values and the keys of a graph whose queries are not known beforehand: scalars,
tuples, tables, and the results of stream operators. A tuple is empty, or a first element with the
tuple of the others. Equality of values is that of numbers and not of their spelling; keys can be
sorted when numbers are compared with numbers alone, texts with texts and tuples with tuples.
-/
namespace SceneCodegen.Graph

inductive Datum
  | null
  | bool (b : Bool)
  | int (n : Int)
  | float (x : Number.Binary)
  | text (s : String)
  | nil
  | cons (head tail : Datum)
  | diagnostic (d : Diagnostic)
  | outcome (value : Datum) (diagnostics : List Diagnostic)
  | pair (left right : Datum)
  /-- Entries are pairs of a key and a value; their order does not matter. -/
  | table (entries : Datum)
  deriving Repr, Inhabited

namespace Datum

def tuple (items : List Datum) : Datum := items.foldr cons nil

/-- The elements of a tuple. -/
def items : Datum → List Datum
  | cons head tail => head :: items tail
  | _ => []

@[simp] theorem items_cons (head tail : Datum) : (cons head tail).items = head :: tail.items := rfl

theorem items_tuple (xs : List Datum) : (tuple xs).items = xs := by
  induction xs with
  | nil => rfl
  | cons x xs ih => simpa [tuple] using ih

def isTuple : Datum → Bool
  | nil | cons _ _ => true
  | _ => false

def scalar? : Datum → Option Json
  | null => some .null
  | bool b => some (.bool b)
  | int n => some (.int n)
  | float x => some (.float x)
  | text s => some (.text s)
  | _ => none

def ofJson : Json → Datum
  | .null => null
  | .bool b => bool b
  | .int n => int n
  | .float x => float x
  | .text s => text s
  | .list items => ofItems items
  | .object members => table (ofMembers members)
where
  ofItems : List Json → Datum
    | [] => nil
    | x :: rest => cons (ofJson x) (ofItems rest)
  ofMembers : List (String × Json) → Datum
    | [] => nil
    | (name, x) :: rest => cons (cons (text name) (cons (ofJson x) nil)) (ofMembers rest)

def entryKeys (entries : Datum) : List Datum :=
  entries.items.filterMap fun entry => entry.items.head?

/-- Whether a datum counts as true: not null, not zero, not empty. -/
def isTruthy : Datum → Bool
  | nil | table nil => false
  | x => (x.scalar?.map Json.isTruthy).getD true

/-- Equality of values. -/
def same : Datum → Datum → Bool
  | nil, nil => true
  | cons x xs, cons y ys => same x y && same xs ys
  | diagnostic d, diagnostic e => d == e
  | outcome v ds, outcome w es => same v w && ds == es
  | pair x xs, pair y ys => same x y && same xs ys
  | table xs, table ys => included xs ys && ys.items.all (includes xs)
  | x, y =>
    match x.scalar?, y.scalar? with
    | some a, some b => a.sameScalar b
    | _, _ => false
where
  included : Datum → Datum → Bool
    | cons entry rest, ys => ys.items.any (same entry) && included rest ys
    | _, _ => true
  includes : Datum → Datum → Bool
    | cons entry rest, y => same entry y || includes rest y
    | _, _ => false

instance : BEq Datum := ⟨same⟩

def tupleText : List String → String
  | [one] => "(" ++ one ++ ",)"
  | parts => "(" ++ Text.join ", " parts ++ ")"

/-- A datum as messages show it inside another. -/
def shown : Datum → String
  | nil => "()"
  | cons head tail => tupleText (shown head :: shownItems tail)
  | diagnostic d => d.text
  | outcome value _ => shown value
  | pair left right => tupleText [shown left, shown right]
  | table entries => "\x7b" ++ Text.join ", " (shownEntries entries) ++ "\x7d"
  | x => (x.scalar?.map Json.shown).getD ""
where
  shownEntries : Datum → List String
    | cons (cons key (cons value nil)) rest =>
        (shown key ++ ": " ++ shown value) :: shownEntries rest
    | _ => []
  shownItems : Datum → List String
    | cons head tail => shown head :: shownItems tail
    | _ => []

/-- A datum as messages show it alone: a text stands for itself. -/
def label : Datum → String
  | text s => s
  | x => x.shown

/-- The word for the type of a datum; keys of different types are ordered by it. -/
def typeName : Datum → String
  | null => "NoneType"
  | bool _ => "bool"
  | int _ => "int"
  | float _ => "float"
  | text _ => "str"
  | nil | cons _ _ => "tuple"
  | diagnostic _ => "Diagnostic"
  | outcome _ _ => "Outcome"
  | pair _ _ => "JoinPair"
  | table _ => "dict"

/-- The order of two data, if they have one. -/
def compare? : Datum → Datum → Option Ordering
  | nil, nil => some .eq
  | nil, cons _ _ => some .lt
  | cons _ _, nil => some .gt
  | cons x xs, cons y ys => if x == y then compare? xs ys else compare? x y
  | text s, text t => some (compare s t)
  | x, y => x.scalar?.bind fun a => y.scalar?.bind fun b => a.order? b

/-- The order of two keys, if they have one: by type, then by value. -/
def compareKeys? (x y : Datum) : Option Ordering :=
  if x == y then some .eq
  else if x.typeName != y.typeName then some (compare x.typeName y.typeName)
  else compare? x y

/-- The first two elements of a tuple, one in each, that have no order though they decide. -/
def unordered : Datum → Datum → String × String
  | cons x xs, cons y ys => if x == y then unordered xs ys else unordered x y
  | x, y => (x.typeName, y.typeName)

/-- The first pair of keys without an order, the later key first. -/
def unorderedPair? : List Datum → Option (String × String)
  | [] => none
  | x :: rest =>
    match rest.find? fun y => (compareKeys? x y).isNone with
    | some y => some (unordered y x)
    | none => unorderedPair? rest

/-- The word for the type of what keeps a datum from being a key, if anything does. -/
def unkeyable? : Datum → Option String
  | cons x xs | pair x xs => (unkeyable? x).or (unkeyable? xs)
  | outcome value _ => unkeyable? value
  | table entries => some (table entries).typeName
  | _ => none

/-- Why a datum cannot be a key: the word for the kind of failure, and its message. -/
def checkKey (x : Datum) : Except (String × String) Unit :=
  match x.unkeyable? with
  | some type => .error ("TypeError", "unhashable type: " ++ Text.quoted type)
  | none => .ok ()

def keyLe (x y : Datum) : Bool := ((compareKeys? x y).getD .eq).isLE

def sortedKeys (keys : List Datum) : Except (String × String) (List Datum) := do
  keys.forM checkKey
  match unorderedPair? keys with
  | some (later, earlier) =>
    .error ("TypeError", "'<' not supported between instances of " ++ Text.quoted later ++
      " and " ++
      Text.quoted earlier)
  | none => .ok (keys.eraseDups.mergeSort keyLe)

instance : ItemKey Datum where
  label := label
  sorted := sortedKeys

end Datum
end SceneCodegen.Graph
