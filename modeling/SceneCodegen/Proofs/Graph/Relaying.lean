import SceneCodegen.Graph.Program

/-!
# Relaying

Programs that end with a failed read as soon as they are told of it, for all failures or for some,
and programs that read only some nodes.
-/
namespace SceneCodegen.Graph

variable {K : Type} {V : K → Type} {α β : Type}

/-- A query that ends with a failed read of some kinds as soon as it is told of it. -/
inductive Program.Relays (F : Failure K → Prop) : Program K V α → Prop
  | done (a : α) : Relays F (.done a)
  | fail (e : Failure K) : Relays F (.fail e)
  | read {k : K} {next : Except (Failure K) (V k) → Program K V α}
      (failed : ∀ e, F e → next (.error e) = .fail e) (ok : ∀ v, Relays F (next (.ok v))) :
      Relays F (.read k next)
  | cancel {p : Program K V α} (h : Relays F p) : Relays F (.cancel p)

namespace Program

theorem relays_get (F : Failure K → Prop) (k : K) : (get k : Program K V (V k)).Relays F :=
  .read (fun _ _ => rfl) fun v => .done v

namespace Relays
variable {F G : Failure K → Prop} {p : Program K V α}

theorem mono (h : p.Relays F) (hG : ∀ e, G e → F e) : p.Relays G := by
  induction h with
  | done a => exact .done a
  | fail e => exact .fail e
  | read failed _ ih => exact .read (fun e he => failed e (hG e he)) ih
  | cancel _ ih => exact .cancel ih

theorem bind (h : p.Relays F) {f : α → Program K V β} (hf : ∀ a, (f a).Relays F) :
    (p.bind f).Relays F := by
  induction h with
  | done a => exact hf a
  | fail e => exact .fail e
  | @read k next failed _ ih =>
    refine .read (fun e he => ?_) ih
    show (next (.error e)).bind f = .fail e
    rw [failed e he]
    rfl
  | cancel _ ih => exact .cancel ih

theorem map (h : p.Relays F) (f : α → β) : (f <$> p).Relays F :=
  h.bind fun a => .done (f a)

theorem catching (h : p.Relays F) {handler : Failure K → Program K V α}
    (hpass : ∀ e, F e → handler e = .fail e) (hrelays : ∀ e, (handler e).Relays F) :
    (p.catching handler).Relays F := by
  induction h with
  | done a => exact .done a
  | fail e => exact hrelays e
  | @read k next failed _ ih =>
    refine .read (fun e he => ?_) ih
    show (next (.error e)).catching handler = .fail e
    rw [failed e he]
    exact hpass e he
  | cancel _ ih => exact .cancel ih

end Relays

theorem relays_ofExcept (F : Failure K → Prop) (r : Except (Failure K) α) :
    (ofExcept r : Program K V α).Relays F := by
  cases r with
  | ok a => exact .done a
  | error e => exact .fail e

theorem relays_mapM {F : Failure K → Prop} {f : α → Program K V β} (hf : ∀ a, (f a).Relays F)
    (l : List α) : (l.mapM f).Relays F := by
  induction l with
  | nil =>
    rw [List.mapM_nil]
    exact .done []
  | cons a l ih =>
    rw [List.mapM_cons]
    exact (hf a).bind fun b => ih.bind fun bs => .done (b :: bs)

end Program

/-- The failures by which a pass ends that was superseded. -/
def IsCancellation (e : Failure K) : Prop := ∃ g, e = .cancelled g

/-- A program that reads only nodes of a set. -/
inductive Program.Within (T : K → Prop) : Program K V α → Prop
  | done (a : α) : Within T (.done a)
  | fail (e : Failure K) : Within T (.fail e)
  | read {k : K} {next : Except (Failure K) (V k) → Program K V α} (hk : T k)
      (h : ∀ r, Within T (next r)) : Within T (.read k next)
  | cancel {p : Program K V α} (h : Within T p) : Within T (.cancel p)

theorem Program.Within.mono {T U : K → Prop} {p : Program K V α} (h : p.Within T)
    (hU : ∀ k, T k → U k) : p.Within U := by
  induction h with
  | done a => exact .done a
  | fail e => exact .fail e
  | read hk _ ih => exact .read (hU _ hk) ih
  | cancel _ ih => exact .cancel ih

theorem Program.within_get {T : K → Prop} {k : K} (hk : T k) :
    (get k : Program K V (V k)).Within T := by
  refine .read hk fun r => ?_
  cases r with
  | ok v => exact .done v
  | error e => exact .fail e

theorem Program.Within.bind {T : K → Prop} {p : Program K V α} (h : p.Within T)
    {f : α → Program K V β} (hf : ∀ a, (f a).Within T) : (p.bind f).Within T := by
  induction h with
  | done a => exact hf a
  | fail e => exact .fail e
  | read hk _ ih => exact .read hk ih
  | cancel _ ih => exact .cancel ih

theorem Program.Within.mapM {T : K → Prop} {f : α → Program K V β} {l : List α}
    (hf : ∀ a ∈ l, (f a).Within T) : (l.mapM f).Within T := by
  induction l with
  | nil =>
    rw [List.mapM_nil]
    exact .done []
  | cons a l ih =>
    rw [List.mapM_cons]
    have hrest := ih fun b hb => hf b (List.mem_cons_of_mem a hb)
    exact (hf a List.mem_cons_self).bind fun b => hrest.bind fun bs => .done (b :: bs)

theorem Program.within_univ (p : Program K V α) : p.Within fun _ => True := by
  induction p with
  | done a => exact .done a
  | fail e => exact .fail e
  | read k next ih => exact .read trivial ih
  | cancel next ih => exact .cancel ih

end SceneCodegen.Graph
