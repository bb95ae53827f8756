import SceneCodegen.Graph.Evaluation
import SceneCodegen.Table

/-!
# Streams

A stream is a family of values under keys, read from a graph; a key without a value is absent. The
operators take streams to streams by way of nodes of their own, so that one change of an item leads
to new reads only where the item was read. Each operator has a type of its nodes, with the type of
value of each, and a program for each; `Family` places such nodes in a graph.
-/
namespace SceneCodegen.Graph

/-- Keys of the items of a stream. -/
class ItemKey (ι : Type) where
  /-- A key as messages show it. -/
  label : ι → String
  /-- Keys in order and each once, where they can be put in order. -/
  sorted : List ι → Except (String × String) (List ι)

/-- Sorted keys, a failure to sort them being raised under the word for its kind. -/
def sortKeys {K ι : Type} [ItemKey ι] (keys : List ι) : Except (Failure K) (List ι) :=
  (ItemKey.sorted keys).mapError fun (kind, message) => .raised kind message

/-- The result of the computation for one item. -/
structure Outcome (β : Type) where
  value : Option β := none
  diagnostics : List Diagnostic := []
  deriving BEq

/-- An item with the items of another stream that share a key with it. -/
structure JoinPair (α β : Type) where
  left : α
  right : List β
  deriving BEq

variable {K : Type} {V : K → Type}

/-- Nodes of a graph that hold values of known types, in a form of the graph's own. -/
structure Family (K : Type) (V : K → Type) {N : Type} (W : N → Type) where
  key : N → K
  encode : (n : N) → W n → V (key n)
  decode : (n : N) → V (key n) → Except (Failure K) (W n)

namespace Family
variable {N : Type} {W : N → Type}

def get (f : Family K V W) (n : N) : Program K V (W n) := do
  match f.decode n (← Program.get (f.key n)) with
  | .ok w => .done w
  | .error e => .fail e

/-- A program for a node, with its value in the form of the graph. -/
def rule (f : Family K V W) (n : N) (program : Program K V (W n)) : Program K V (V (f.key n)) :=
  f.encode n <$> program

end Family

structure Stream (K : Type) (V : K → Type) (ι α : Type) where
  keys : Program K V (List ι)
  item : ι → Program K V (Option α)
  diagnostics : Program K V (List Diagnostic) := pure []

namespace Stream
variable {ι α : Type}

/-- The items that are not absent, in the order of the keys. -/
def items (s : Stream K V ι α) : Program K V (List (ι × α)) := do
  let read (i : ι) : Program K V (Option (ι × α)) := do return (← s.item i).map (i, ·)
  return (← (← s.keys).mapM read).filterMap id

end Stream

inductive InputNode (ι : Type) | keys | item (i : ι)
  deriving DecidableEq, Repr

abbrev InputNode.Value (ι α : Type) : InputNode ι → Type
  | .keys => List ι
  | .item _ => Option α

/-- The value of an input node that is not set: there are no items. -/
def InputNode.absent {ι α : Type} : (n : InputNode ι) → n.Value ι α
  | .keys => []
  | .item _ => none

namespace Family
variable {ι α : Type}

def inputStream (f : Family K V (InputNode.Value ι α)) : Stream K V ι α where
  keys := f.get .keys
  item i := f.get (.item i)

variable [BEq K] [Coherent K V] [∀ k, BEq (V k)] [BEq ι] [ItemKey ι]

def inputValue (f : Family K V (InputNode.Value ι α)) (n : InputNode ι) (s : Store K V) :
    Except (Failure K) (InputNode.Value ι α n) :=
  match s.input? (f.key n) with
  | some v => f.decode n v
  | none => .ok n.absent

/-- Sets items one after another and gives the keys of those that changed. -/
def setItems (f : Family K V (InputNode.Value ι α)) :
    List (ι × Option α) → Store K V → Except (Failure K) (List ι) × Store K V
  | [], s => (.ok [], s)
  | (i, x) :: rest, s =>
    match s.setInput (f.key (.item i)) (f.encode (.item i) x) with
    | (.error e, s) => (.error e, s)
    | (.ok changed, s) =>
      let (r, s) := f.setItems rest s
      (r.map fun keys => if changed then i :: keys else keys, s)

/-- Makes the stream hold these items and no others, and gives the keys whose items changed. Items
are set before their keys are put in order. -/
def replaceAll (f : Family K V (InputNode.Value ι α))
    (items : Table ι (Option α)) (s : Store K V) : Except (Failure K) (List ι) × Store K V :=
  match f.inputValue .keys s with
  | .error e => (.error e, s)
  | .ok old =>
    let removed := old.eraseDups.filter fun i => !(Table.keys items).contains i
    match f.setItems (removed.map (·, none) ++ items) s with
    | (.error e, s) => (.error e, s)
    | (.ok changed, s) =>
      match sortKeys (Table.keys items) with
      | .error e => (.error e, s)
      | .ok keys =>
        let (r, s) := s.setInput (f.key .keys) (f.encode .keys keys)
        (r.map fun _ => changed, s)

/-- The items a stream holds now. -/
def currentItems (f : Family K V (InputNode.Value ι α)) (s : Store K V) :
    Except (Failure K) (Table ι (Option α)) := do
  let read (i : ι) : Except (Failure K) (ι × Option α) := return (i, ← f.inputValue (.item i) s)
  return .ofList (← (← f.inputValue .keys s).mapM read)

/-- Takes items out of the stream and then puts others in. -/
def update (f : Family K V (InputNode.Value ι α))
    (changed : Table ι (Option α)) (removed : List ι) (s : Store K V) :
    Except (Failure K) (List ι) × Store K V :=
  match f.currentItems s with
  | .error e => (.error e, s)
  | .ok current =>
    let kept : Table ι (Option α) := current.filter fun (i, _) => !removed.contains i
    f.replaceAll (changed.foldl (fun t (i, x) => Table.set i x t) kept) s

end Family

inductive MapNode (ι : Type) | outcome (i : ι) | item (i : ι) | diagnostics
  deriving DecidableEq, Repr

abbrev MapNode.Value (ι β : Type) : MapNode ι → Type
  | .outcome _ => Outcome β
  | .item _ => Option β
  | .diagnostics => List Diagnostic

/-- What is reported of a computation that failed otherwise than by a declaration. -/
def unexpectedFailure [Node K] (label : String) (e : Failure K) : Diagnostic :=
  { id := Diagnostic.unexpectedFailure, severity := .error, location := { path := label }
    message := e.kind ++ " while processing " ++ label ++ ": " ++ e.message }

/-- Turns a failure into diagnostics of the item it arose for; a cancellation goes on. -/
def isolate [Node K] {β : Type} (label : String) (program : Program K V (Outcome β)) :
    Program K V (Outcome β) :=
  program.catching fun
    | .cancelled generation => .fail (.cancelled generation)
    | .declaration d => .done { diagnostics := [d] }
    | e => .done { diagnostics := [unexpectedFailure label e] }

section
variable [Node K] {ι α β : Type} [ItemKey ι]

/-- The programs of a stream whose items are computed each from the item of its key. -/
def mapProgram (self : Family K V (MapNode.Value ι β)) (source : Stream K V ι α)
    (handler : α → Program K V (Outcome β)) : (n : MapNode ι) → Program K V (n.Value ι β)
  | .outcome i => do
    match ← source.item i with
    | none => return {}
    | some a => isolate (ItemKey.label i) (handler a)
  | .item i => do return (← self.get (.outcome i)).value
  | .diagnostics => do
    let inherited ← source.diagnostics
    let own ← (← source.keys).mapM fun i => do return (← self.get (.outcome i)).diagnostics
    return Diagnostic.sorted (inherited ++ own.flatten)

def Family.mapStream (self : Family K V (MapNode.Value ι β)) (source : Stream K V ι α) :
    Stream K V ι β where
  keys := source.keys
  item i := self.get (.item i)
  diagnostics := self.get .diagnostics

end

inductive FlatNode (ι τ : Type) | parts (i : ι) | keys | item (key : τ)
  deriving DecidableEq, Repr

abbrev FlatNode.Value (ι τ ρ β : Type) : FlatNode ι τ → Type
  | .parts _ => List ρ
  | .keys => List τ
  | .item _ => Option β

/-- How the keys of elements are made and taken apart, and what an element consists of. Taking apart
may fail, and then fails only where it is done. -/
structure Flattening (K ι κ τ ρ β : Type) where
  /-- The key of an element, from its item's key and its own. -/
  key : ι → κ → τ
  split : τ → Except (Failure K) (ι × κ)
  /-- An element's own key and its value. -/
  part : ρ → Except (Failure K) (κ × β)

/-- The keys of elements are pairs, and so are the elements. -/
def Flattening.pairs {ι κ β : Type} : Flattening K ι κ (ι × κ) (κ × β) β where
  key i inner := (i, inner)
  split key := .ok key
  part p := .ok p

section
variable {ι κ τ ρ α β : Type} [BEq κ] [ItemKey τ]

/-- The value of the first part under a key; the parts after it are not taken apart. -/
def Flattening.find? (form : Flattening K ι κ τ ρ β) (wanted : κ) :
    List ρ → Except (Failure K) (Option β)
  | [] => .ok none
  | p :: rest => do
    let (inner, b) ← form.part p
    if inner == wanted then return some b else form.find? wanted rest

/-- The programs of a stream of the elements of items, each under its item's key and its own. -/
def flatProgram (form : Flattening K ι κ τ ρ β) (self : Family K V (FlatNode.Value ι τ ρ β))
    (source : Stream K V ι α) (explode : α → Program K V (List ρ)) :
    (n : FlatNode ι τ) → Program K V (n.Value ι τ ρ β)
  | .parts i => do
    match ← source.item i with
    | none => return []
    | some a => explode a
  | .keys => do
    let keys ← (← source.keys).mapM fun i => do
      let inner (p : ρ) : Except (Failure K) τ := return form.key i (← form.part p).1
      .ofExcept ((← self.get (.parts i)).mapM inner)
    .ofExcept (sortKeys keys.flatten)
  | .item key => do
    let (i, wanted) ← .ofExcept (form.split key)
    .ofExcept (form.find? wanted (← self.get (.parts i)))

def Family.flatStream (self : Family K V (FlatNode.Value ι τ ρ β)) (source : Stream K V ι α) :
    Stream K V τ β where
  keys := self.get .keys
  item key := self.get (.item key)
  diagnostics := source.diagnostics

end

inductive JoinNode (ι κ : Type) | index | lookup (key : κ) | item (i : ι)
  deriving DecidableEq, Repr

abbrev JoinNode.Value (ι κ α β : Type) : JoinNode ι κ → Type
  | .index => Table κ (List β)
  | .lookup _ => List β
  | .item _ => Option (JoinPair α β)

/-- Adds to a list the elements of another that it does not hold yet. -/
def addMatches {β : Type} [BEq β] (found new : List β) : List β :=
  new.foldl (fun all b => if all.contains b then all else all ++ [b]) found

section
variable {ι₁ ι₂ κ α β : Type} [BEq κ] [BEq β]

/-- The programs of a stream that pairs each item on the left with the items on the right whose key
is among its own. -/
def joinProgram (self : Family K V (JoinNode.Value ι₁ κ α β)) (left : Stream K V ι₁ α)
    (right : Stream K V ι₂ β) (leftKeys : α → Program K V (List κ))
    (rightKey : β → Program K V κ) : (n : JoinNode ι₁ κ) → Program K V (n.Value ι₁ κ α β)
  | .index => do
    let keyed ← (← right.items).mapM fun (_, b) => do return (← rightKey b, b)
    return keyed.foldl (fun t (k, b) => Table.push k b t) []
  | .lookup k => do return (Table.get? k (← self.get .index)).getD []
  | .item i => do
    match ← left.item i with
    | none => return none
    | some a =>
      let found ← (← leftKeys a).eraseDups.mapM fun k => self.get (.lookup k)
      return some ⟨a, found.foldl addMatches []⟩

def Family.joinStream (self : Family K V (JoinNode.Value ι₁ κ α β)) (left : Stream K V ι₁ α)
    (right : Stream K V ι₂ β) : Stream K V ι₁ (JoinPair α β) where
  keys := left.keys
  item i := self.get (.item i)
  diagnostics := do return Diagnostic.sorted ((← left.diagnostics) ++ (← right.diagnostics))

end
end SceneCodegen.Graph
