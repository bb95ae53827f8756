import SceneCodegen.Graph.Datum

/-!
# Open graphs

Graphs whose queries are defined one after another under names, with data for values and keys. A
stream operator defines the queries of its nodes under names that begin with its own; a name that is
taken is refused, and what was defined before it stays. A node is found by its key as a value, and
its query computes with the key as it was spelled.
-/
namespace SceneCodegen.Graph.Open
open SceneCodegen.Graph

/-- A key is taken apart into the name of a query or input, and arguments. -/
abbrev Key := Datum

abbrev Value (_ : Key) : Type := Datum

instance : Coherent Key Value := ⟨fun _ => rfl⟩

abbrev Query (α : Type) := Program Key Value α

abbrev Items := Stream Key Value Datum Datum

def raise {α : Type} (kind message : String) : Except (Failure Key) α :=
  .error (.raised kind message)

def typeError {α : Type} (message : String) : Except (Failure Key) α := raise "TypeError" message

def characters (s : String) : List Datum := s.toList.map fun c => .text c.toString

/-- The first part of a key. -/
def headOf : Key → Except (Failure Key) Datum
  | .cons head _ => .ok head
  | .nil => raise "IndexError" "tuple index out of range"
  | .text s =>
    match characters s with
    | head :: _ => .ok head
    | [] => raise "IndexError" "string index out of range"
  | .table _ => raise "KeyError" "0"
  | x => typeError (Text.quoted x.typeName ++ " object is not subscriptable")

/-- The parts of a key after the first. -/
def argumentsOf : Key → List Datum
  | .cons _ args => args.items
  | .text s => (characters s).drop 1
  | _ => []

def keyOf (name : String) (args : List Datum) : Key := .cons (.text name) (.tuple args)

instance : Node Key where
  queryName k := ((headOf k).toOption.map (·.label)).getD ""
  text k := k.shown

def checkKey (k : Datum) : Except (Failure Key) Unit :=
  k.checkKey.mapError fun (kind, message) => .raised kind message

/-- The elements of a tuple, the characters of a text, or the keys of a table. -/
def elements : Datum → Except (Failure Key) (List Datum)
  | .text s => .ok (characters s)
  | .table entries => .ok (Datum.entryKeys entries)
  | x =>
    if x.isTuple then .ok x.items
    else typeError (Text.quoted x.typeName ++ " object is not iterable")

def pairOf (x : Datum) : Except (Failure Key) (Datum × Datum) :=
  match elements x with
  | .ok [a, b] => .ok (a, b)
  | .ok (_ :: _ :: _) => raise "ValueError" "too many values to unpack (expected 2)"
  | .ok few =>
    raise "ValueError"
      ("not enough values to unpack (expected 2, got " ++ toString few.length ++ ")")
  | .error _ => typeError ("cannot unpack non-iterable " ++ x.typeName ++ " object")

def ofPair (pair : Datum × Datum) : Datum := .tuple [pair.1, pair.2]

def ofPairs (pairs : List (Datum × Datum)) : Datum := .tuple (pairs.map ofPair)

def toPairs (x : Datum) : Except (Failure Key) (List (Datum × Datum)) := do
  (← elements x).mapM pairOf

def ofOption (x : Option Datum) : Datum := x.getD .null

def toOption : Datum → Option Datum
  | .null => none
  | x => some x

def toOutcome : Datum → Outcome Datum
  | .outcome value diagnostics => ⟨toOption value, diagnostics⟩
  | x => ⟨toOption x, []⟩

def ofDiagnostics (ds : List Diagnostic) : Datum := .tuple (ds.map .diagnostic)

def toDiagnostic? : Datum → Option Diagnostic
  | .diagnostic d => some d
  | _ => none

def presentKeys (x : Datum) : Datum := if x.isTruthy then x else .nil

def inputFamily (name : String) : Family Key Value (InputNode.Value Datum Datum) where
  key
    | .keys => keyOf (name ++ ".keys") []
    | .item i => keyOf (name ++ ".item") [i]
  encode
    | .keys, keys => .tuple keys
    | .item _, x => ofOption x
  decode
    | .keys, x => elements (presentKeys x)
    | .item _, x => .ok (toOption x)

def mapFamily (name : String) : Family Key Value (MapNode.Value Datum Datum) where
  key
    | .outcome i => keyOf (name ++ ".outcome") [i]
    | .item i => keyOf (name ++ ".item") [i]
    | .diagnostics => keyOf (name ++ ".diagnostics") []
  encode
    | .outcome _, o => .outcome (ofOption o.value) o.diagnostics
    | .item _, x => ofOption x
    | .diagnostics, ds => ofDiagnostics ds
  decode
    | .outcome _, x => .ok (toOutcome x)
    | .item _, x => .ok (toOption x)
    | .diagnostics, x => .ok (x.items.filterMap toDiagnostic?)

def flatFamily (name : String) : Family Key Value (FlatNode.Value Datum Datum Datum Datum) where
  key
    | .parts i => keyOf (name ++ ".parts") [i]
    | .keys => keyOf (name ++ ".keys") []
    | .item key => keyOf (name ++ ".item") [key]
  encode
    | .parts _, parts => .tuple parts
    | .keys, keys => .tuple keys
    | .item _, x => ofOption x
  decode
    | .parts _, x => .ok x.items
    | .keys, x => .ok x.items
    | .item _, x => .ok (toOption x)

def flattening : Flattening Key Datum Datum Datum Datum Datum where
  key i inner := ofPair (i, inner)
  split := pairOf
  part := pairOf

def collectFamily (name : String) :
    Family Key Value (fun _ : Unit => List (Datum × Datum)) where
  key _ := keyOf name []
  encode _ pairs := ofPairs pairs
  decode _ x := toPairs x

def ofTable (t : Table Datum (List Datum)) : Datum :=
  .table (ofPairs (t.map fun (k, values) => (k, .tuple values)))

def toTable : Datum → Table Datum (List Datum)
  | .table entries =>
    entries.items.filterMap fun entry =>
      match entry.items with
      | [k, values] => some (k, values.items)
      | _ => none
  | _ => []

def joinFamily (name : String) : Family Key Value (JoinNode.Value Datum Datum Datum Datum) where
  key
    | .index => keyOf (name ++ ".index") []
    | .lookup k => keyOf (name ++ ".lookup") [k]
    | .item i => keyOf (name ++ ".item") [i]
  encode
    | .index, t => ofTable t
    | .lookup _, values => .tuple values
    | .item _, joined => ofOption (joined.map fun j => .pair j.left (.tuple j.right))
  decode
    | .index, x => .ok (toTable x)
    | .lookup _, x => .ok x.items
    | .item _, .pair left right => .ok (some ⟨left, right.items⟩)
    | .item _, _ => .ok none

inductive Definition
  | input (name : String)
  | map (name source : String) (handler : Datum → Query Datum)
  | flatten (name source : String) (explode : Datum → Query Datum)
  | collect (name source : String)
  | join (name left right : String) (leftKeys rightKey : Datum → Query Datum)
  /-- Each item together with one value that all share. -/
  | combine (name source other : String) (handler : Datum → Datum → Query Datum)
  | value (name : String) (program : Query Datum)
  | query (name : String) (program : List Datum → Query Datum)

/-- A stream, with its keys as they are kept. -/
structure KeptStream where
  items : Items
  keys : Query Datum

/-- What a name refers to. -/
inductive Object
  | input (name : String)
  | stream (s : KeptStream)
  | collected (items : Query (List (Datum × Datum)))
  | value (program : Query Datum)

structure OpenGraph where
  queries : Table String (List Datum → Query Datum) := []
  objects : Table String Object := []

inductive DefinitionError | taken (query : String) | unknown (name : String)
  deriving DecidableEq, Repr

def DefinitionError.message : DefinitionError → String
  | .taken query => "Query already defined: " ++ query
  | .unknown name => Text.quoted name

namespace OpenGraph

def inputStream (name : String) : KeptStream where
  items := (inputFamily name).inputStream
  keys := do return presentKeys (← Program.get (keyOf (name ++ ".keys") []))

def stream? (name : String) (g : OpenGraph) : Option KeptStream :=
  match g.objects.get? name with
  | some (.input name) => some (inputStream name)
  | some (.stream s) => some s
  | _ => none

/-- The program that reads a collected or derived value. -/
def value? (name : String) (g : OpenGraph) : Option (Query Datum) :=
  match g.objects.get? name with
  | some (.collected items) => some (ofPairs <$> items)
  | some (.value program) => some program
  | _ => none

/-- Defines queries one after another, up to the first whose name is taken. -/
def addQueries : List (String × (List Datum → Query Datum)) → OpenGraph →
    OpenGraph × Option DefinitionError
  | [], g => (g, none)
  | (name, program) :: rest, g =>
    match g.queries.get? name with
    | some _ => (g, some (.taken name))
    | none => addQueries rest { g with queries := g.queries.set name program }

/-- Defines queries, and then lets a name refer to what they are for. -/
def addObject (name : String) (object : Object)
    (queries : List (String × (List Datum → Query Datum)))
    (g : OpenGraph) : OpenGraph × Option DefinitionError :=
  match addQueries queries g with
  | (g, none) => ({ g with objects := g.objects.set name object }, none)
  | failed => failed

/-- A query without arguments. -/
def plainQuery (program : Query Datum) : List Datum → Query Datum
  | [] => program
  | _ => .fail (.raised "TypeError" "too many arguments")

def keyedQuery (program : Datum → Query Datum) : List Datum → Query Datum
  | [key] => program key
  | _ => .fail (.raised "TypeError" "one argument expected")

def addMapped (name : String) (source : KeptStream) (handler : Datum → Query Datum)
    (g : OpenGraph) : OpenGraph × Option DefinitionError :=
  let family := mapFamily name
  let program (n : MapNode Datum) : Query Datum :=
    family.rule n (mapProgram family source.items (fun a => toOutcome <$> handler a) n)
  g.addObject name (.stream ⟨family.mapStream source.items, source.keys⟩)
    [(name ++ ".outcome", keyedQuery fun i => program (.outcome i)),
      (name ++ ".item", keyedQuery fun i => program (.item i)),
      (name ++ ".diagnostics", plainQuery (program .diagnostics))]

def addFlattened (name : String) (source : KeptStream) (explode : Datum → Query Datum)
    (g : OpenGraph) : OpenGraph × Option DefinitionError :=
  let family := flatFamily name
  let program (n : FlatNode Datum Datum) : Query Datum :=
    family.rule n
      (flatProgram flattening family source.items
        (fun a => do .ofExcept (elements (← explode a))) n)
  g.addObject name (.stream ⟨family.flatStream source.items, Program.get (family.key .keys)⟩)
    [(name ++ ".parts", keyedQuery fun i => program (.parts i)),
      (name ++ ".keys", plainQuery (program .keys)),
      (name ++ ".item", keyedQuery fun key => program (.item key))]

def joinKeys (leftKeys : Datum → Query Datum) (a : Datum) : Query (List Datum) := do
  let keys ← .ofExcept (elements (← leftKeys a))
  .ofExcept (keys.forM checkKey)
  return keys

def joinKey (rightKey : Datum → Query Datum) (b : Datum) : Query Datum := do
  let key ← rightKey b
  .ofExcept (checkKey key)
  return key

def addJoined (name : String) (left right : KeptStream) (leftKeys rightKey : Datum → Query Datum)
    (g : OpenGraph) : OpenGraph × Option DefinitionError :=
  let family := joinFamily name
  let program (n : JoinNode Datum Datum) : Query Datum :=
    family.rule n
      (joinProgram family left.items right.items (joinKeys leftKeys) (joinKey rightKey) n)
  let joined := family.joinStream left.items right.items
  let items : Items :=
    { keys := joined.keys
      item := fun i => do
        return (← joined.item i).map fun pair => .pair pair.left (.tuple pair.right)
      diagnostics := joined.diagnostics }
  g.addObject name (.stream ⟨items, left.keys⟩)
    [(name ++ ".index", plainQuery (program .index)),
      (name ++ ".lookup", keyedQuery fun k => program (.lookup k)),
      (name ++ ".item", keyedQuery fun i => program (.item i))]

/-- Makes one definition; one that is refused may leave some of its queries. -/
def define (g : OpenGraph) : Definition → OpenGraph × Option DefinitionError
  | .input name => g.addObject name (.input name) []
  | .map name source handler =>
    match g.stream? source with
    | none => (g, some (.unknown source))
    | some source => g.addMapped name source handler
  | .flatten name source explode =>
    match g.stream? source with
    | none => (g, some (.unknown source))
    | some source => g.addFlattened name source explode
  | .collect name source =>
    match g.stream? source with
    | none => (g, some (.unknown source))
    | some source =>
      let family := collectFamily name
      g.addObject name (.collected (family.get ()))
        [(name, plainQuery (family.rule () source.items.items))]
  | .join name left right leftKeys rightKey =>
    match g.stream? left, g.stream? right with
    | some left, some right => g.addJoined name left right leftKeys rightKey
    | none, _ => (g, some (.unknown left))
    | _, none => (g, some (.unknown right))
  | .combine name source other handler =>
    match g.stream? source, g.value? other with
    | some source, some shared =>
      g.addMapped name source fun a => do handler a (← shared)
    | none, _ => (g, some (.unknown source))
    | _, none => (g, some (.unknown other))
  | .value name program =>
    g.addObject name (.value (Program.get (keyOf name []))) [(name, plainQuery program)]
  | .query name program => addQueries [(name, program)] g

/-- The program of the query that the first part of a key names. -/
def program? (head : Datum) (g : OpenGraph) : Option (List Datum → Query Datum) :=
  match head with
  | .text name => g.queries.get? name
  | _ => none

/-- A key has to have a first part, and nothing in it may be a table. -/
def rules (g : OpenGraph) : Rules Key Value := fun k =>
  match headOf k, checkKey k with
  | .error e, _ | _, .error e => .refused e
  | .ok head, .ok () =>
    match g.program? head with
    | some program => .query (program (argumentsOf k))
    | none => .input .null

end OpenGraph

abbrev OpenStore := Store Key Value

def setInput (k value : Datum) (s : OpenStore) : Except (Failure Key) Bool × OpenStore :=
  match checkKey k with
  | .error e => (.error e, s)
  | .ok () => s.setInput k value

def inputValue (k : Datum) (s : OpenStore) : Except (Failure Key) Datum := do
  checkKey k
  return (s.input? k).getD .null

def itemsOf (pairs : List (Datum × Datum)) : Except (Failure Key) (Table Datum (Option Datum)) := do
  pairs.forM fun (k, _) => checkKey k
  return .ofList (pairs.map fun (k, x) => (k, toOption x))

/-- The items to be put into an input stream, if no key is refused: theirs, those that the stream
holds, which can be anything, and those to be taken out. -/
def itemsFor (name : String) (pairs : List (Datum × Datum)) (removed : List Datum) (s : OpenStore) :
    Except (Failure Key) (Table Datum (Option Datum)) := do
  let items ← itemsOf pairs
  (← (inputFamily name).inputValue .keys s).forM checkKey
  removed.forM checkKey
  return items

def replaceAll (name : String) (pairs : List (Datum × Datum)) (s : OpenStore) :
    Except (Failure Key) (List Datum) × OpenStore :=
  match itemsFor name pairs [] s with
  | .error e => (.error e, s)
  | .ok items => (inputFamily name).replaceAll items s

def update (name : String) (changed : List (Datum × Datum)) (removed : List Datum) (s : OpenStore) :
    Except (Failure Key) (List Datum) × OpenStore :=
  match itemsFor name changed removed s with
  | .error e => (.error e, s)
  | .ok items => (inputFamily name).update items removed s

/-- Queries nest at most this deep. -/
def depth : Nat := 2000

end SceneCodegen.Graph.Open
