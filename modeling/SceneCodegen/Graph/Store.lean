import SceneCodegen.Graph.NodeTable
import SceneCodegen.Graph.Program
import SceneCodegen.Table

/-!
# Stores

The state of a graph between and during reads. Inputs carry the revision at which they last changed.
The result of a query is kept with the revision at which it last changed, the one at which it was
last found valid, and the nodes that were read for it. The queries being computed, the pass that is
running and the queries executed so far are part of the state. Nodes are told apart by `==` on their
keys, while a read is noted under the very key that was read.
-/
namespace SceneCodegen.Graph

/-- A value with the revision at which it last changed. -/
structure Stamped (α : Type) where
  value : α
  changedAt : Nat

structure Memo (K : Type) (α : Type) extends Stamped α where
  verifiedAt : Nat
  /-- The nodes read for the value, in the order of the first reads. -/
  reads : List K

/-- A query being computed, with the nodes it has read so far, the latest first. -/
structure Active (K : Type) where
  key : K
  reads : List K := []

/-- By which a pass is told that it was superseded. -/
structure Token where
  generation : Int
  cancelled : Bool := false
  /-- How many more queries may start before the pass is superseded, if it will be. -/
  startsLeft : Option Nat := none
  deriving DecidableEq, Repr

namespace Token

def isCancelled (t : Token) : Bool := t.cancelled || t.startsLeft == some 0

def countStart (t : Token) : Token := { t with startsLeft := t.startsLeft.map (· - 1) }

end Token

structure Store (K : Type) (V : K → Type) where
  revision : Nat := 0
  inputs : NodeTable K V Stamped := {}
  memos : NodeTable K V (Memo K) := {}
  /-- The queries being computed, the innermost first. -/
  active : List (Active K) := []
  token : Option Token := none
  /-- The queries executed in this pass, the latest first. -/
  recent : List K := []
  /-- The queries executed so far, the latest first. -/
  executed : List K := []
  /-- The queries started so far, the latest first, each with the token at that moment. -/
  started : List (K × Option Token) := []

namespace Store
variable {K : Type} {V : K → Type}

def isComputing [BEq K] (k : K) (s : Store K V) : Bool := s.active.any (·.key == k)

/-- Notes a read for the innermost query being computed. -/
def noteRead (k : K) (s : Store K V) : Store K V :=
  match s.active with
  | [] => s
  | a :: rest => { s with active := { a with reads := k :: a.reads } :: rest }

def cancelPass (s : Store K V) : Store K V :=
  { s with token := s.token.map ({ · with cancelled := true }) }

/-- The generation of the running pass, if it was cancelled. -/
def cancelled? (s : Store K V) : Option Int :=
  s.token.bind fun t => if t.isCancelled then some t.generation else none

def start (k : K) (s : Store K V) : Store K V :=
  { s with
    active := { key := k } :: s.active
    token := s.token.map Token.countStart
    started := (k, s.token) :: s.started }

/-- Ends the innermost computation, whatever came of it. -/
def finish (s : Store K V) : Store K V := { s with active := s.active.drop 1 }

/-- The nodes read by the innermost query being computed, each once, in the order of reading. -/
def currentReads [BEq K] (s : Store K V) : List K :=
  ((s.active.head?.map (·.reads)).getD []).reverse.eraseDups

/-- The revision at which a value just computed last changed: an equal value did not change. -/
def changedAt [∀ k, BEq (V k)] {k : K} (previous : Option (Memo K (V k))) (v : V k)
    (s : Store K V) : Nat :=
  match previous with
  | some memo => if memo.value == v then memo.changedAt else s.revision
  | none => s.revision

/-- Keeps the result of an execution. -/
def keep [BEq K] (k : K) (memo : Memo K (V k)) (s : Store K V) : Store K V :=
  { s with
    memos := s.memos.set k memo
    recent := k :: s.recent
    executed := k :: s.executed }

def verify [BEq K] (k : K) (memo : Memo K (V k)) (s : Store K V) : Store K V :=
  { s with memos := s.memos.set k { memo with verifiedAt := s.revision } }

def beginPass (token : Option Token) (s : Store K V) : Store K V := { s with token, recent := [] }

/-- Ends a pass. What was computed in a pass that ended by its cancellation is dropped. -/
def endPass [BEq K] (wasCancelled : Bool) (s : Store K V) : Store K V :=
  { s with
    memos := if wasCancelled then s.memos.without s.recent else s.memos
    token := none
    recent := [] }

def input? [BEq K] [Coherent K V] (k : K) (s : Store K V) : Option (V k) :=
  (s.inputs.get? k).map (·.value)

/-- Sets an input and tells whether that changed it. Nothing changes while a query computes. -/
def setInput [BEq K] [Coherent K V] [∀ k, BEq (V k)] (k : K) (v : V k) (s : Store K V) :
    Except (Failure K) Bool × Store K V :=
  if !s.active.isEmpty then (.error .locked, s)
  else if (s.input? k).any (· == v) then (.ok false, s)
  else
    let revision := s.revision + 1
    (.ok true, { s with revision, inputs := s.inputs.set k ⟨v, revision⟩ })

def executions [Node K] (name : String) (s : Store K V) : Nat :=
  s.executed.countP (Node.queryName · == name)

/-- How often the queries of each name were executed after the first `n` executions. -/
def executionsSince [Node K] (n : Nat) (s : Store K V) : Table String Nat :=
  let names := (s.executed.reverse.drop n).map Node.queryName
  names.eraseDups.map fun name => (name, names.count name)

end Store
end SceneCodegen.Graph
