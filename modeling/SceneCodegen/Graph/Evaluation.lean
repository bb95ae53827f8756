import SceneCodegen.Graph.Store

/-!
# Incremental evaluation

Reading a node of a graph. A node without a query is an input. A query's kept result is given as it
is if it was found valid at the current revision already. Otherwise the nodes that were read for it
are read again, in order, up to the first that changed since; if none did, the result is valid. If
one did, or if there is no result, the query's program runs. The memo-free reading, beside it, runs
programs only. Both carry a bound on the depth of nested reads.
-/
namespace SceneCodegen.Graph

/-- What a key stands for: an input, with its value before it is set, a query, or no node at all. -/
inductive Rule (K : Type) (V : K → Type) (α : Type)
  | input (absent : α)
  | query (program : Program K V α)
  | refused (e : Failure K)

abbrev Rules (K : Type) (V : K → Type) := (k : K) → Rule K V (V k)

/-- Why a read ended early. -/
inductive Halt (K : Type)
  | failed (e : Failure K)
  /-- Reads were nested too deep. -/
  | tooDeep
  deriving DecidableEq, Repr

namespace Halt
variable {K : Type} [Node K]

def kind : Halt K → String
  | .failed e => e.kind
  | .tooDeep => "RecursionError"

def message : Halt K → String
  | .failed e => e.message
  | .tooDeep => "maximum recursion depth exceeded"

def isOwn : Halt K → Bool
  | .failed e => e.isOwn
  | .tooDeep => false

end Halt

/-- Whether something ended because its pass was cancelled. -/
def wasCancelled {K α : Type} : Except (Halt K) α → Bool
  | .error (.failed (.cancelled _)) => true
  | _ => false

/-- A read, with the state after it. -/
abbrev Reader (K : Type) (V : K → Type) (α : Type) := Store K V → Except (Halt K) α × Store K V

variable {K : Type} {V : K → Type} {α : Type}

section
variable (below : (k : K) → Reader K V (Stamped (V k)))

/-- Reads nodes up to the first that changed after a revision; whether there is none. -/
def unchangedSince (revision : Nat) : List K → Reader K V Bool
  | [], s => (.ok true, s)
  | k :: rest, s =>
    match below k s with
    | (.error halt, s) => (.error halt, s)
    | (.ok node, s) =>
      if revision < node.changedAt then (.ok false, s) else unchangedSince revision rest s

/-- Runs a program for the innermost query being computed. -/
def Program.runWith : Program K V α → Reader K V α
  | done a, s => (.ok a, s)
  | fail e, s => (.error (.failed e), s)
  | read k next, s =>
    match below k (s.noteRead k) with
    | (.ok node, s) => (next (.ok node.value)).runWith s
    | (.error (.failed e), s) => (next (.error e)).runWith s
    | (.error .tooDeep, s) => (.error .tooDeep, s)
  | cancel next, s => next.runWith s.cancelPass

variable [BEq K] [Coherent K V] [∀ k, BEq (V k)]

/-- Runs the program of a query and keeps its result. -/
def compute (k : K) (program : Program K V (V k)) (previous : Option (Memo K (V k))) :
    Reader K V (Stamped (V k)) := fun s =>
  match program.runWith below (s.start k) with
  | (.error halt, s) => (.error halt, s.finish)
  | (.ok v, s) =>
    let memo : Memo K (V k) :=
      { value := v, changedAt := s.changedAt previous v, verifiedAt := s.revision
        reads := s.currentReads }
    (.ok memo.toStamped, s.finish.keep k memo)

/-- Computes a query, unless it is being computed or the pass was cancelled. -/
def execute (k : K) (program : Program K V (V k)) (previous : Option (Memo K (V k))) :
    Reader K V (Stamped (V k)) := fun s =>
  if s.isComputing k then (.error (.failed (.cycle k)), s)
  else match s.cancelled? with
    | some generation => (.error (.failed (.cancelled generation)), s)
    | none => compute below k program previous s

/-- Reads a query through its memo. -/
def revalidate (k : K) (program : Program K V (V k)) (memo : Memo K (V k)) :
    Reader K V (Stamped (V k)) := fun s =>
  if memo.verifiedAt == s.revision then (.ok memo.toStamped, s)
  else match unchangedSince below memo.verifiedAt memo.reads s with
    | (.error halt, s) => (.error halt, s)
    | (.ok true, s) => (.ok memo.toStamped, s.verify k memo)
    | (.ok false, s) => execute below k program (some memo) s

end

variable [BEq K] [Coherent K V] [∀ k, BEq (V k)]

/-- Reads a node, nested reads going at most `depth` queries deep. -/
def fetch (rules : Rules K V) (depth : Nat) (k : K) : Reader K V (Stamped (V k)) := fun s =>
  match rules k with
  | .input absent => (.ok ((s.inputs.get? k).getD ⟨absent, 0⟩), s)
  | .refused e => (.error (.failed e), s)
  | .query program =>
    match depth with
    | 0 => (.error .tooDeep, s)
    | depth + 1 =>
      match s.memos.get? k with
      | none => execute (fetch rules depth) k program none s
      | some memo => revalidate (fetch rules depth) k program memo s

/-- Runs a program from outside, or for the innermost query being computed. -/
def Program.run (rules : Rules K V) (depth : Nat) (program : Program K V α) : Reader K V α :=
  program.runWith (fetch rules depth)

def Program.runPass (rules : Rules K V) (depth : Nat) (token : Option Token)
    (program : Program K V α) : Reader K V α := fun s =>
  let (r, s) := program.run rules depth (s.beginPass token)
  (r, s.endPass (wasCancelled r))

/-- The outcome of a program when each node has the outcome given. -/
def Program.evalWith (below : (k : K) → Except (Halt K) (V k)) : Program K V α → Except (Halt K) α
  | done a => .ok a
  | fail e => .error (.failed e)
  | read k next =>
    match below k with
    | .ok v => (next (.ok v)).evalWith below
    | .error (.failed e) => (next (.error e)).evalWith below
    | .error .tooDeep => .error .tooDeep
  | cancel next => next.evalWith below

/-- The value of a node under given inputs, computed from nothing; `computing` holds the nodes whose
values it is computed for. -/
def scratch (rules : Rules K V) (input? : (k : K) → Option (V k)) :
    Nat → (computing : List K) → (k : K) → Except (Halt K) (V k)
  | depth, computing, k =>
    match rules k with
    | .input absent => .ok ((input? k).getD absent)
    | .refused e => .error (.failed e)
    | .query program =>
      if computing.contains k then .error (.failed (.cycle k))
      else match depth with
        | 0 => .error .tooDeep
        | depth + 1 => program.evalWith (scratch rules input? depth (k :: computing))

end SceneCodegen.Graph
