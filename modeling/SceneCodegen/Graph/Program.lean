import SceneCodegen.Diagnostic

/-!
# Query programs

The body of a query is a program that reads nodes of a graph, one after another, and ends with a
value or a failure. Which node it reads next may depend on what it read before. A read that fails
hands the failure to the program, which passes it on unless it was written to do otherwise. The type
of the value read is given by the node.
-/
namespace SceneCodegen.Graph

/-- Why a program or a read has no value. -/
inductive Failure (K : Type)
  /-- A marked declaration no code can be generated for. -/
  | declaration (d : Diagnostic)
  /-- A failure of a query's own, with the word for its kind. -/
  | raised (kind message : String)
  /-- A query read its own value, at once or through others, while computing. -/
  | cycle (key : K)
  /-- The running pass was superseded. -/
  | cancelled (generation : Int)
  /-- An input was to change while a query was computing. -/
  | locked
  deriving DecidableEq, Repr

inductive Program (K : Type) (V : K → Type) (α : Type)
  | done (a : α)
  | fail (e : Failure K)
  | read (k : K) (next : Except (Failure K) (V k) → Program K V α)
  /-- Cancels the running pass, if it can be cancelled, and goes on. -/
  | cancel (next : Program K V α)

namespace Program
variable {K : Type} {V : K → Type} {α β : Type}

def bind : Program K V α → (α → Program K V β) → Program K V β
  | done a, f => f a
  | fail e, _ => fail e
  | read k next, f => read k fun r => (next r).bind f
  | cancel next, f => cancel (next.bind f)

instance : Monad (Program K V) where
  pure := done
  bind := bind

theorem bind_done (p : Program K V α) : p.bind done = p := by
  induction p with
  | done a => rfl
  | fail e => rfl
  | read k next ih => simp only [bind]; congr 1; funext r; exact ih r
  | cancel next ih => simp only [bind]; congr 1

theorem bind_bind {γ : Type} (p : Program K V α) (f : α → Program K V β)
    (g : β → Program K V γ) : (p.bind f).bind g = p.bind fun a => (f a).bind g := by
  induction p with
  | done a => rfl
  | fail e => rfl
  | read k next ih => simp only [bind]; congr 1; funext r; exact ih r
  | cancel next ih => simp only [bind]; congr 1

instance : LawfulMonad (Program K V) :=
  LawfulMonad.mk' (Program K V) (fun p => bind_done p) (fun _ _ => rfl)
    (fun p f g => bind_bind p f g)

/-- Reads a node and passes a failure on. -/
def get (k : K) : Program K V (V k) :=
  read k fun
    | .ok v => done v
    | .error e => fail e

def ofExcept : Except (Failure K) α → Program K V α
  | .ok a => done a
  | .error e => fail e

/-- Runs `handler` in place of the failure a program ends with. -/
def catching : Program K V α → (Failure K → Program K V α) → Program K V α
  | done a, _ => done a
  | fail e, handler => handler e
  | read k next, handler => read k fun r => (next r).catching handler
  | cancel next, handler => cancel (next.catching handler)

end Program

/-- What is known of the nodes of a graph: the name of the query a node belongs to, and the node as
messages show it. -/
class Node (K : Type) where
  queryName : K → String
  text : K → String

namespace Failure
variable {K : Type} [Node K]

def kind : Failure K → String
  | .declaration _ => "DeclarationError"
  | .raised kind _ => kind
  | .cycle _ => "CycleError"
  | .cancelled _ => "GenerationCancelled"
  | .locked => "GeneratorError"

def message : Failure K → String
  | .declaration d => d.text
  | .raised _ message => message
  | .cycle key => "Query cycle detected at " ++ Node.text key
  | .cancelled generation => "generation " ++ toString generation ++ " was cancelled"
  | .locked => "Inputs cannot change while a query is computing."

/-- Whether the error is of the generator's own kinds, which its callers report. -/
def isOwn : Failure K → Bool
  | .raised _ _ => false
  | _ => true

end Failure
end SceneCodegen.Graph
