import SceneCodegen.Proofs.Graph.Safety

/-!
# What programs come upon

Programs that are safe as long as the values they read are as expected of their nodes, such as lists
of keys that are all of a kind, and that end with what is expected of them. Where all queries of a
set of nodes do so, no read from within the set leads out of it.
-/
namespace SceneCodegen.Graph

variable {K : Type} {V : K → Type} {α β : Type}

/-- As long as what is read has values as expected, only nodes of a set are read, only some failures
arise and the end is as it should be. A cancellation is passed on. -/
inductive Program.Heeds (T : K → Prop) (Q : (k : K) → V k → Prop) (E : Failure K → Prop)
    (P : α → Prop) : Program K V α → Prop
  | done {a : α} (h : P a) : Heeds T Q E P (.done a)
  | fail {e : Failure K} (h : E e) : Heeds T Q E P (.fail e)
  | read {k : K} {next : Except (Failure K) (V k) → Program K V α} (hk : T k)
      (cancelled : ∀ e, IsCancellation e → next (.error e) = .fail e)
      (ok : ∀ v, Q k v → Heeds T Q E P (next (.ok v))) : Heeds T Q E P (.read k next)

/-- Nothing is expected of a value. -/
abbrev Anything {α : Type} : α → Prop := fun _ => True

/-- No node is read. -/
abbrev NoNode {K : Type} : K → Prop := fun _ => False

namespace Program

variable {T U : K → Prop} {Q : (k : K) → V k → Prop} {E F : Failure K → Prop} {P : α → Prop}

theorem heeds_get {k : K} (hk : T k) : (get k : Program K V (V k)).Heeds T Q E (Q k) :=
  .read hk (fun _ _ => rfl) fun _ hv => .done hv

theorem heeds_ofExcept {r : Except (Failure K) α} (h : ∃ a, r = .ok a ∧ P a) :
    (Program.ofExcept r : Program K V α).Heeds T Q E P := by
  obtain ⟨a, rfl, ha⟩ := h
  exact .done ha

namespace Heeds
variable {p : Program K V α}

theorem mono (h : p.Heeds T Q E P) (hT : ∀ k, T k → U k) (hE : ∀ e, E e → F e) {R : α → Prop}
    (hP : ∀ a, P a → R a) : p.Heeds U Q F R := by
  induction h with
  | done h => exact .done (hP _ h)
  | fail h => exact .fail (hE _ h)
  | read hk hc _ ih => exact .read (hT _ hk) hc ih

theorem widen (h : p.Heeds T Q E P) (hT : ∀ k, T k → U k) : p.Heeds U Q E P :=
  h.mono hT (fun _ h => h) fun _ h => h

theorem bind (h : p.Heeds T Q E P) {f : α → Program K V β} {R : β → Prop}
    (hf : ∀ a, P a → (f a).Heeds T Q E R) : (p.bind f).Heeds T Q E R := by
  induction h with
  | done h => exact hf _ h
  | fail h => exact .fail h
  | @read k next hk hc _ ih =>
    refine .read hk (fun e he => ?_) ih
    show (next (.error e)).bind f = .fail e
    rw [hc e he]
    rfl

theorem catching (h : p.Heeds T Q E P) {handler : Failure K → Program K V α}
    (hpass : ∀ e, IsCancellation e → handler e = .fail e)
    (hcatch : ∀ e, E e → (handler e).Heeds T Q F P) : (p.catching handler).Heeds T Q F P := by
  induction h with
  | done h => exact .done h
  | fail h => exact hcatch _ h
  | @read k next hk hc _ ih =>
    refine .read hk (fun e he => ?_) ih
    show (next (.error e)).catching handler = .fail e
    rw [hc e he]
    exact hpass e he

theorem mapM {f : α → Program K V β} {R : β → Prop} {l : List α}
    (hf : ∀ a ∈ l, (f a).Heeds T Q E R) : (l.mapM f).Heeds T Q E fun bs => ∀ b ∈ bs, R b := by
  induction l with
  | nil =>
    rw [List.mapM_nil]
    exact .done (by simp)
  | cons a l ih =>
    rw [List.mapM_cons]
    refine (hf a List.mem_cons_self).bind fun b hb => ?_
    refine (ih fun a ha => hf a (List.mem_cons_of_mem _ ha)).bind fun bs hbs => .done ?_
    intro x hx
    rcases List.mem_cons.mp hx with rfl | hx
    · exact hb
    · exact hbs x hx

/-- Where nothing is expected, what heeds that is safe. -/
theorem safe (h : p.Heeds T Q E P) (hQ : ∀ k v, Q k v) : p.Safe T E := by
  induction h with
  | done _ => exact .done _
  | fail h => exact .fail h
  | read hk hc _ ih => exact .read hk hc fun v => ih v (hQ _ v)

theorem settleWith (h : p.Heeds T Q E P) {below : (k : K) → Except (Halt K) (V k)}
    (hb : ∀ k, T k → ∀ v, below k = .ok v → Q k v) {ks : List K} {a : α}
    (hp : p.settleWith below = .ok (ks, a)) : (∀ d ∈ ks, T d) ∧ P a := by
  induction h generalizing ks with
  | done h =>
    cases hp
    exact ⟨by simp, h⟩
  | fail _ => cases hp
  | @read k next hk _ _ ih =>
    simp only [Program.settleWith] at hp
    cases hv : below k with
    | error halt => simp [hv] at hp
    | ok v =>
      simp only [hv] at hp
      obtain ⟨⟨ls, b⟩, hls, heq⟩ := map_eq_ok_iff.mp hp
      cases heq
      obtain ⟨hreads, hb⟩ := ih v (hb k hk v hv) hls
      refine ⟨fun d hd => ?_, hb⟩
      rcases List.mem_cons.mp hd with rfl | hd
      · exact hk
      · exact hreads d hd

end Heeds

/-- What is left of a program still heeds what it did. -/
theorem Reaches.heeds {rules : Rules K V} {inputs : Inputs K V} {p q : Program K V α} {ks : List K}
    (h : p.Reaches rules inputs ks q) (hp : p.Heeds T Q E P)
    (hsettle : ∀ k, T k → ∀ n v, settle rules inputs n k = .ok v → Q k v) : q.Heeds T Q E P := by
  induction h with
  | here p => exact hp
  | read hv _ ih =>
    cases hp with
    | read hk _ hnext => exact ih (hnext _ (hsettle _ hk _ _ hv))
  | cancel _ _ => cases hp

end Program

/-- No query of a set reads beyond it while values are as expected, and each gives what is expected
of its node, as the inputs do. -/
structure Heedful (rules : Rules K V) (inputs : Inputs K V) (T : K → Prop)
    (Q : (k : K) → V k → Prop) : Prop where
  input : ∀ k absent, T k → rules k = .input absent → Q k ((inputs k).getD absent)
  query : ∀ k p, T k → rules k = .query p → p.Heeds T Q (Unfailing K) (Q k)

namespace Heedful
variable {rules : Rules K V} {inputs : Inputs K V} {T : K → Prop} {Q : (k : K) → V k → Prop}

theorem settles (h : Heedful rules inputs T Q) {k : K} (hk : T k) {n : Nat} {v : V k}
    (hv : settle rules inputs n k = .ok v) : Q k v := by
  induction n generalizing k with
  | zero =>
    cases hrule : rules k with
    | input absent =>
      rw [settle_input hrule] at hv
      cases hv
      exact h.input k absent hk hrule
    | refused e =>
      rw [settle_refused hrule] at hv
      cases hv
    | query p =>
      rw [settle_zero hrule] at hv
      cases hv
  | succ n ih =>
    cases hrule : rules k with
    | input absent =>
      rw [settle_input hrule] at hv
      cases hv
      exact h.input k absent hk hrule
    | refused e =>
      rw [settle_refused hrule] at hv
      cases hv
    | query p =>
      rw [settle_succ hrule] at hv
      obtain ⟨⟨ks, a⟩, hp, rfl⟩ := map_eq_ok_iff.mp hv
      exact ((h.query k p hk hrule).settleWith (fun d hd w hw => ih hd hw) hp).2

/-- A set that no query leads out of, in a graph where all nodes settle. -/
theorem steady {level : K → Nat} (h : Heedful rules inputs T Q) (hlevel : Leveled rules level) :
    Steady rules inputs T where
  passes k p hk hrule := (hlevel.steady inputs).passes k p trivial hrule
  closed k p ks d next hk hrule hreach := by
    have hheeds := hreach.heeds (h.query k p hk hrule) fun e he n v hv => h.settles he hv
    cases hheeds with
    | read hd _ _ => exact hd

end Heedful

end SceneCodegen.Graph
