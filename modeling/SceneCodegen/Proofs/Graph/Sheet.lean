import SceneCodegen.Graph.Stream
import SceneCodegen.Proofs.Graph.Consistency

/-!
# Sheets

Graphs of input streams, values derived by any programs, and streams whose items are computed each
from the item of an input stream, some of them with a derived value beside it. A handler may fail.
-/
namespace SceneCodegen.Graph

/-- A failure that is not of the kind by which passes end that were cancelled. -/
def IsOrdinary {K : Type} [Node K] (e : Failure K) : Prop :=
  ¬ ∃ g, SameKind e (.cancelled g)

section
variable {K : Type} {V : K → Type} [Node K] {β : Type}

/-- An ordinary failure becomes diagnostics. -/
theorem isolate_fail (label : String) {e : Failure K} (he : IsOrdinary e) :
    ∃ ds, (isolate label (.fail e) : Program K V (Outcome β)) = .done { diagnostics := ds } := by
  cases e with
  | declaration d => exact ⟨[d], rfl⟩
  | raised kind message => exact ⟨_, rfl⟩
  | cycle key => exact ⟨_, rfl⟩
  | cancelled g => exact absurd ⟨g, rfl⟩ he
  | locked => exact ⟨_, rfl⟩

theorem isolate_ofExcept (label : String) {r : Except (Failure K) (Outcome β)}
    (hr : ∀ e, r = .error e → IsOrdinary e) :
    ∃ outcome, (isolate label (.ofExcept r) : Program K V (Outcome β)) = .done outcome := by
  cases r with
  | ok outcome => exact ⟨outcome, rfl⟩
  | error e =>
    obtain ⟨ds, hds⟩ := isolate_fail (V := V) (β := β) label (hr e rfl)
    exact ⟨_, hds⟩

theorem isolate_relays (label : String) {p : Program K V (Outcome β)}
    (h : p.Relays IsCancellation) : (isolate label p).Relays IsCancellation := by
  refine h.catching ?_ ?_
  · rintro _ ⟨g, rfl⟩
    rfl
  · intro e
    cases e with
    | cancelled g => exact .fail _
    | _ => exact .done _

end

inductive SheetNode (S D M ι : Type)
  | source (s : S) (n : InputNode ι)
  | value (d : D)
  | mapped (m : M) (n : MapNode ι)
  deriving DecidableEq

abbrev SheetNode.Value {S D M ι : Type} (α : Type) : SheetNode S D M ι → Type
  | .source _ n => n.Value ι α
  | .value _ => α
  | .mapped _ n => n.Value ι α

/-- How the items of a mapped stream are computed. -/
inductive Operator (S D M ι α : Type)
  | map (handler : α → Except (Failure (SheetNode S D M ι)) (Outcome α))
  | combine (shared : D) (handler : α → α → Except (Failure (SheetNode S D M ι)) (Outcome α))

namespace Operator
variable {S D M ι α : Type}

/-- The derived value that is handed to the handler beside an item. -/
def shared? : Operator S D M ι α → Option D
  | map _ => none
  | combine d _ => some d

inductive Fails : Operator S D M ι α → Failure (SheetNode S D M ι) → Prop
  | map {handler : α → Except (Failure (SheetNode S D M ι)) (Outcome α)} {a : α}
      {e : Failure (SheetNode S D M ι)} (h : handler a = .error e) : Fails (.map handler) e
  | combine {shared : D} {handler : α → α → Except (Failure (SheetNode S D M ι)) (Outcome α)}
      {a y : α} {e : Failure (SheetNode S D M ι)} (h : handler a y = .error e) :
      Fails (.combine shared handler) e

end Operator

abbrev SheetProgram (S D M ι α : Type) : Type → Type :=
  Program (SheetNode S D M ι) (SheetNode.Value α)

structure Sheet (S D M ι α : Type) where
  source : M → S
  operator : M → Operator S D M ι α
  derived : D → SheetProgram S D M ι α α

namespace Sheet
variable {S D M ι α : Type}

def sourceFamily (s : S) :
    Family (SheetNode S D M ι) (SheetNode.Value α) (InputNode.Value ι α) where
  key := .source s
  encode _ w := w
  decode _ v := .ok v

def mappedFamily (m : M) : Family (SheetNode S D M ι) (SheetNode.Value α) (MapNode.Value ι α) where
  key := .mapped m
  encode _ w := w
  decode _ v := .ok v

/-- The input stream from whose items those of a mapped stream are computed. -/
def sourceStream (g : Sheet S D M ι α) (m : M) :
    Stream (SheetNode S D M ι) (SheetNode.Value α) ι α :=
  (sourceFamily (g.source m)).inputStream

/-- What is done for an item that is there. -/
def handle (g : Sheet S D M ι α) (m : M) (a : α) : SheetProgram S D M ι α (Outcome α) :=
  match g.operator m with
  | .map handler => .ofExcept (handler a)
  | .combine shared handler => do .ofExcept (handler a (← Program.get (.value shared)))

variable [Node (SheetNode S D M ι)] [ItemKey ι]

def program (g : Sheet S D M ι α) (m : M) (n : MapNode ι) :
    SheetProgram S D M ι α (SheetNode.Value α (.mapped m n : SheetNode S D M ι)) :=
  (mappedFamily m).rule n (mapProgram (mappedFamily m) (g.sourceStream m) (g.handle m) n)

def rules (g : Sheet S D M ι α) : Rules (SheetNode S D M ι) (SheetNode.Value α)
  | .source _ n => .input n.absent
  | .value d => .query (g.derived d)
  | .mapped m n => .query (g.program m n)

theorem program_outcome (g : Sheet S D M ι α) (m : M) (i : ι) :
    g.program m (.outcome i) = .read (.source (g.source m) (.item i)) fun
      | .ok none => .done {}
      | .ok (some a) => isolate (ItemKey.label i) (g.handle m a)
      | .error e => .fail e := by
  show Program.read _ _ = _
  congr 1
  funext r
  rcases r with e | _ | a
  · rfl
  · rfl
  · exact Program.bind_done _

theorem program_item (g : Sheet S D M ι α) (m : M) (i : ι) :
    g.program m (.item i) = .read (.mapped m (.outcome i)) fun
      | .ok outcome => .done outcome.value
      | .error e => .fail e := by
  show Program.read _ _ = _
  congr 1
  funext r
  cases r <;> rfl

end Sheet

namespace Sheet
variable {S D M ι α : Type} [Node (SheetNode S D M ι)] [ItemKey ι]
  [∀ k : SheetNode S D M ι, BEq (SheetNode.Value α k)]
  {L : Likeness (SheetNode S D M ι) (SheetNode.Value α)} {g : Sheet S D M ι α}

/-- Derived values pass on the failures they meet, handlers and derived values fail in ordinary ways
only, and none of them tells like values apart. -/
structure Ordinary (g : Sheet S D M ι α)
    (L : Likeness (SheetNode S D M ι) (SheetNode.Value α)) : Prop extends
    Extensional g.rules L where
  derived_relays : ∀ d, (g.derived d).Relays fun _ => True
  derived_fails : ∀ d inputs n e,
    settle g.rules inputs n (.value d) = .error (.failed e) → IsOrdinary e
  handler_fails : ∀ m e, (g.operator m).Fails e → IsOrdinary e

/-- Every value that a mapped stream shares among its items settles with a value. -/
def Calm (g : Sheet S D M ι α) (inputs : Inputs (SheetNode S D M ι) (SheetNode.Value α)) : Prop :=
  ∀ m d, (g.operator m).shared? = some d → ∃ n v, settle g.rules inputs n (.value d) = .ok v

end Sheet
end SceneCodegen.Graph
