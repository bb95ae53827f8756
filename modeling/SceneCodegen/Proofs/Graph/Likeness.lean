import Mathlib.Data.List.Forall2
import SceneCodegen.Proofs.Graph.Settling

/-!
# Likeness

When two values of a node count as the same for whoever reads it. Programs are alike if like values
read lead them to the same reads and to like ends; under like inputs, alike programs settle alike.
-/
namespace SceneCodegen.Graph

/-- Which values of a node count as the same. A value unlike itself is one the node never takes. -/
structure Likeness (K : Type) (V : K → Type) where
  like : (k : K) → V k → V k → Prop
  symm {k : K} {v w : V k} : like k v w → like k w v
  trans {k : K} {u v w : V k} : like k u v → like k v w → like k u w

/-- Failures of one class. -/
def SameKind {K : Type} [Node K] (e e' : Failure K) : Prop := e.kind = e'.kind

variable {K : Type} {V : K → Type} {α β : Type}

namespace Likeness

theorem left {L : Likeness K V} {k : K} {v w : V k} (h : L.like k v w) : L.like k v v :=
  L.trans h (L.symm h)

theorem right {L : Likeness K V} {k : K} {v w : V k} (h : L.like k v w) : L.like k w w :=
  L.trans (L.symm h) h

/-- Only equal values count as the same. -/
protected def eq : Likeness K V := ⟨fun _ => Eq, Eq.symm, Eq.trans⟩

end Likeness

/-- Programs that make the same reads and end alike when what they read is alike. -/
inductive Program.Alike (L : Likeness K V) (E : Failure K → Failure K → Prop) (R : α → α → Prop) :
    Program K V α → Program K V α → Prop
  | done {a b : α} (h : R a b) : Alike L E R (.done a) (.done b)
  | fail {e e' : Failure K} (h : E e e') : Alike L E R (.fail e) (.fail e')
  | read {k : K} {next next' : Except (Failure K) (V k) → Program K V α}
      (h : ∀ v w, L.like k v w → Alike L E R (next (.ok v)) (next' (.ok w))) :
      Alike L E R (.read k next) (.read k next')
  | cancel {p q : Program K V α} (h : Alike L E R p q) : Alike L E R (.cancel p) (.cancel q)

/-- Outcomes that are alike. -/
inductive Agree (E : Failure K → Failure K → Prop) (R : α → α → Prop) :
    Except (Halt K) α → Except (Halt K) α → Prop
  | ok {a b : α} (h : R a b) : Agree E R (.ok a) (.ok b)
  | failed {e e' : Failure K} (h : E e e') : Agree E R (.error (.failed e)) (.error (.failed e'))
  | tooDeep : Agree E R (.error .tooDeep) (.error .tooDeep)

namespace Agree
variable {E : Failure K → Failure K → Prop} {R : α → α → Prop} {S : β → β → Prop}

theorem map {r r' : Except (Halt K) α} (h : Agree E R r r') {f g : α → β}
    (hf : ∀ a b, R a b → S (f a) (g b)) : Agree E S (r.map f) (r'.map g) := by
  cases h with
  | ok h => exact .ok (hf _ _ h)
  | failed h => exact .failed h
  | tooDeep => exact .tooDeep

theorem of_ok {a : α} {r : Except (Halt K) α} (h : Agree E R (.ok a) r) :
    ∃ b, r = .ok b ∧ R a b := by
  cases h with
  | ok h => exact ⟨_, rfl, h⟩

theorem of_failed {e : Failure K} {r : Except (Halt K) α} (h : Agree E R (.error (.failed e)) r) :
    ∃ e', r = .error (.failed e') ∧ E e e' := by
  cases h with
  | failed h => exact ⟨_, rfl, h⟩

end Agree

namespace Program.Alike
variable {L : Likeness K V} {E E' : Failure K → Failure K → Prop}
  {R : α → α → Prop} {S : β → β → Prop}

theorem bind {p q : Program K V α} (h : p.Alike L E R q) {f g : α → Program K V β}
    (hf : ∀ a b, R a b → (f a).Alike L E S (g b)) : (p.bind f).Alike L E S (q.bind g) := by
  induction h with
  | done h => exact hf _ _ h
  | fail h => exact .fail h
  | read _ ih => exact .read fun v w hvw => ih v w hvw
  | cancel _ ih => exact .cancel ih

theorem catching {p q : Program K V α} (h : p.Alike L E R q)
    {f g : Failure K → Program K V α} (hf : ∀ e e', E e e' → (f e).Alike L E' R (g e')) :
    (p.catching f).Alike L E' R (q.catching g) := by
  induction h with
  | done h => exact .done h
  | fail h => exact hf _ _ h
  | read _ ih => exact .read fun v w hvw => ih v w hvw
  | cancel _ ih => exact .cancel ih

theorem mono {p q : Program K V α} {R' : α → α → Prop} (h : p.Alike L E R q)
    (he : ∀ e e', E e e' → E' e e') (hr : ∀ a b, R a b → R' a b) : p.Alike L E' R' q := by
  induction h with
  | done h => exact .done (hr _ _ h)
  | fail h => exact .fail (he _ _ h)
  | read _ ih => exact .read fun v w hvw => ih v w hvw
  | cancel _ ih => exact .cancel ih

theorem mapM {f g : α → Program K V β} {l : List α} (h : ∀ a ∈ l, (f a).Alike L E S (g a)) :
    (l.mapM f).Alike L E (List.Forall₂ S) (l.mapM g) := by
  induction l with
  | nil =>
    rw [List.mapM_nil, List.mapM_nil]
    exact .done .nil
  | cons a l ih =>
    rw [List.mapM_cons, List.mapM_cons]
    refine (h a List.mem_cons_self).bind fun b b' hb => ?_
    refine (ih fun a ha => h a (List.mem_cons_of_mem _ ha)).bind fun bs bs' hbs => ?_
    exact .done (.cons hb hbs)

theorem self {p : Program K V α} (he : ∀ e, E e e) (hr : ∀ a, R a a) :
    p.Alike Likeness.eq E R p := by
  induction p with
  | done a => exact .done (hr a)
  | fail e => exact .fail (he e)
  | read k next ih =>
    refine .read fun v w hvw => ?_
    obtain rfl : v = w := hvw
    exact ih (.ok v)
  | cancel next ih => exact .cancel ih

/-- Alike programs, given nodes of like outcomes, read the same nodes and end alike. -/
theorem settleWith {p q : Program K V α} (h : p.Alike L E R q)
    {below below' : (k : K) → Except (Halt K) (V k)}
    (hb : ∀ k, Agree E (L.like k) (below k) (below' k)) :
    Agree E (fun a b => a.1 = b.1 ∧ R a.2 b.2) (p.settleWith below) (q.settleWith below') := by
  induction h with
  | done h => exact .ok ⟨rfl, h⟩
  | fail h => exact .failed h
  | @read k next next' _ ih =>
    have hk := hb k
    simp only [Program.settleWith]
    generalize below k = r, below' k = r' at hk ⊢
    cases hk with
    | ok hvw => exact (ih _ _ hvw).map fun a b hab => ⟨by rw [hab.1], hab.2⟩
    | failed he => exact .failed he
    | tooDeep => exact .tooDeep
  | cancel _ ih => exact ih

end Program.Alike

section
variable [Node K] {rules : Rules K V} {L : Likeness K V}

/-- Inputs that are alike wherever they are read. -/
def LikeInputs (rules : Rules K V) (L : Likeness K V) (inputs inputs' : Inputs K V) : Prop :=
  ∀ k absent, rules k = .input absent →
    L.like k ((inputs k).getD absent) ((inputs' k).getD absent)

/-- Like inputs settle every node alike, at every depth. -/
theorem settle_alike (hrules : ∀ k p, rules k = .query p → p.Alike L SameKind (L.like k) p)
    {inputs inputs' : Inputs K V} (h : LikeInputs rules L inputs inputs') (n : Nat) (k : K) :
    Agree SameKind (L.like k) (settle rules inputs n k) (settle rules inputs' n k) := by
  induction n generalizing k with
  | zero =>
    cases hk : rules k with
    | input absent =>
      rw [settle_input hk, settle_input hk]
      exact .ok (h k absent hk)
    | refused e =>
      rw [settle_refused hk, settle_refused hk]
      exact .failed rfl
    | query p =>
      rw [settle_zero hk, settle_zero hk]
      exact .tooDeep
  | succ n ih =>
    cases hk : rules k with
    | input absent =>
      rw [settle_input hk, settle_input hk]
      exact .ok (h k absent hk)
    | refused e =>
      rw [settle_refused hk, settle_refused hk]
      exact .failed rfl
    | query p =>
      rw [settle_succ hk, settle_succ hk]
      exact ((hrules k p hk).settleWith ih).map fun a b hab => hab.2

end
end SceneCodegen.Graph
