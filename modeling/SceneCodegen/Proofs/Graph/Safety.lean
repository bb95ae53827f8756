import SceneCodegen.Proofs.Graph.Soundness

/-!
# Safe programs

Programs that fail in some ways only while all they read has values. Where every query is safe and
reads only nodes of lower levels, every node settles with a value, at a depth given by its level.
-/
namespace SceneCodegen.Graph

variable {K : Type} {V : K → Type} {α β : Type}

/-- As long as what is read has values, only nodes of a set are read and only some failures arise. A
cancellation is passed on. -/
inductive Program.Safe (T : K → Prop) (E : Failure K → Prop) : Program K V α → Prop
  | done (a : α) : Safe T E (.done a)
  | fail {e : Failure K} (h : E e) : Safe T E (.fail e)
  | read {k : K} {next : Except (Failure K) (V k) → Program K V α} (hk : T k)
      (cancelled : ∀ e, IsCancellation e → next (.error e) = .fail e)
      (ok : ∀ v, Safe T E (next (.ok v))) : Safe T E (.read k next)

abbrev Unfailing (K : Type) : Failure K → Prop := fun _ => False

namespace Program

theorem safe_get {T : K → Prop} {E : Failure K → Prop} {k : K} (hk : T k) :
    (get k : Program K V (V k)).Safe T E :=
  .read hk (fun _ _ => rfl) fun v => .done v

namespace Safe
variable {T U : K → Prop} {E F : Failure K → Prop} {p : Program K V α}

theorem mono (h : p.Safe T E) (hT : ∀ k, T k → U k) (hE : ∀ e, E e → F e) : p.Safe U F := by
  induction h with
  | done a => exact .done a
  | fail h => exact .fail (hE _ h)
  | read hk hc _ ih => exact .read (hT _ hk) hc ih

theorem bind (h : p.Safe T E) {f : α → Program K V β} (hf : ∀ a, (f a).Safe T E) :
    (p.bind f).Safe T E := by
  induction h with
  | done a => exact hf a
  | fail h => exact .fail h
  | @read k next hk hc _ ih =>
    refine .read hk (fun e he => ?_) ih
    show (next (.error e)).bind f = .fail e
    rw [hc e he]
    rfl

theorem mapM {f : α → Program K V β} (hf : ∀ a, (f a).Safe T E) (l : List α) :
    (l.mapM f).Safe T E := by
  induction l with
  | nil =>
    rw [List.mapM_nil]
    exact .done []
  | cons a l ih =>
    rw [List.mapM_cons]
    exact (hf a).bind fun b => ih.bind fun bs => .done (b :: bs)

theorem relays (h : p.Safe T E) : p.Relays IsCancellation := by
  induction h with
  | done a => exact .done a
  | fail _ => exact .fail _
  | read _ hc _ ih => exact .read hc ih

theorem settleWith (h : p.Safe T (Unfailing K)) {below : (k : K) → Except (Halt K) (V k)}
    (hb : ∀ k, T k → ∃ v, below k = .ok v) : ∃ r, p.settleWith below = .ok r := by
  induction h with
  | done a => exact ⟨_, rfl⟩
  | fail h => exact h.elim
  | @read k next hk _ _ ih =>
    obtain ⟨v, hv⟩ := hb k hk
    obtain ⟨⟨ks, a⟩, hr⟩ := ih v
    exact ⟨(k :: ks, a), by simp only [Program.settleWith, hv, hr, Except.map]⟩

/-- Programs that read only nodes whose like values are equal are alike to themselves. -/
theorem alike (h : p.Safe T E) {L : Likeness K V} (hL : ∀ k, T k → ∀ v w, L.like k v w → v = w) :
    p.Alike L Eq Eq p := by
  induction h with
  | done a => exact .done rfl
  | fail _ => exact .fail rfl
  | @read k next hk _ _ ih =>
    refine .read fun v w hvw => ?_
    obtain rfl := hL k hk v w hvw
    exact ih v

end Safe
end Program

section
variable {rules : Rules K V}

/-- Every node is an input or a safe query that reads nodes of lower levels. -/
structure Leveled (rules : Rules K V) (level : K → Nat) : Prop where
  safe : ∀ k p, rules k = .query p → p.Safe (level · < level k) (Unfailing K)
  known : ∀ k e, rules k ≠ .refused e

namespace Leveled
variable {level : K → Nat} {inputs : Inputs K V}

theorem settles (h : Leveled rules level) {n : Nat} {k : K} (hn : level k < n) :
    ∃ v, settle rules inputs n k = .ok v := by
  induction n generalizing k with
  | zero => omega
  | succ n ih =>
    cases hk : rules k with
    | input absent => exact ⟨_, settle_input hk _⟩
    | refused e => exact absurd hk (h.known k e)
    | query p =>
      have hsafe := h.safe k p hk
      obtain ⟨⟨ks, v⟩, hr⟩ := hsafe.settleWith fun d (hd : level d < level k) =>
        ih (show level d < n by omega)
      exact ⟨v, by rw [settle_succ hk, hr]; rfl⟩

theorem steady (h : Leveled rules level) (inputs : Inputs K V) :
    Steady rules inputs fun _ => True where
  passes k _ _ _ := by
    have hsettles : ∃ v, settle rules inputs (level k + 1) k = .ok v :=
      h.settles (Nat.lt_succ_self (level k))
    exact .inr ⟨_, hsettles⟩
  closed _ _ _ _ _ _ _ _ := trivial

theorem relays (h : Leveled rules level) (k : K) (p : Program K V (V k))
    (hk : rules k = .query p) : p.Relays IsCancellation :=
  (h.safe k p hk).relays

end Leveled
end

end SceneCodegen.Graph
