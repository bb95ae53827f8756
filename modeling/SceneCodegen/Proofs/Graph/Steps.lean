import SceneCodegen.Graph.Evaluation

/-!
# Steps of reads

What holds from before to after each change that reads make to a store holds from before to after
every read, and every program, whatever the rules are.
-/
namespace SceneCodegen.Graph

variable {K : Type} {V : K → Type} {α : Type} [BEq K] [Coherent K V]

/-- A relation that each change made to a store by reads respects. -/
structure Stepwise (P : Store K V → Store K V → Prop) : Prop where
  refl : ∀ s, P s s
  trans : ∀ {s s' s''}, P s s' → P s' s'' → P s s''
  noteRead : ∀ k s, P s (s.noteRead k)
  cancelPass : ∀ s, P s s.cancelPass
  start : ∀ k s, s.cancelled? = none → P s (s.start k)
  finish : ∀ s, P s s.finish
  keep : ∀ k m s, P s (s.keep k m)
  verify : ∀ {k m s s'}, s.memos.get? k = some m → P s s' → P s (s'.verify k m)

namespace Stepwise
variable {P : Store K V → Store K V → Prop} {below : (k : K) → Reader K V (Stamped (V k))}

section
variable (h : Stepwise P) (hb : ∀ k s, P s (below k s).2)
include h hb

theorem unchangedSince (r : Nat) (ks : List K) (s : Store K V) :
    P s (unchangedSince below r ks s).2 := by
  induction ks generalizing s with
  | nil => exact h.refl s
  | cons k ks ih =>
    have hk := hb k s
    simp only [Graph.unchangedSince]
    generalize below k s = out at hk
    obtain ⟨result, s'⟩ := out
    cases result with
    | error halt => exact hk
    | ok node =>
      simp only
      split
      · exact hk
      · exact h.trans hk (ih s')

theorem runWith (p : Program K V α) (s : Store K V) : P s (p.runWith below s).2 := by
  induction p generalizing s with
  | done a => exact h.refl s
  | fail e => exact h.refl s
  | read k next ih =>
    have hk := h.trans (h.noteRead k s) (hb k (s.noteRead k))
    simp only [Program.runWith]
    generalize below k (s.noteRead k) = out at hk
    obtain ⟨result, s'⟩ := out
    cases result with
    | ok node => exact h.trans hk (ih (.ok node.value) s')
    | error halt =>
      cases halt with
      | failed e => exact h.trans hk (ih (.error e) s')
      | tooDeep => exact hk
  | cancel next ih => exact h.trans (h.cancelPass s) (ih s.cancelPass)

variable [∀ k, BEq (V k)]

theorem execute (k : K) (p : Program K V (V k)) (previous : Option (Memo K (V k)))
    (s : Store K V) : P s (execute below k p previous s).2 := by
  simp only [Graph.execute]
  split
  · exact h.refl s
  · split
    · exact h.refl s
    · rename_i hg
      have hp := h.trans (h.start k s hg) (h.runWith hb p (s.start k))
      simp only [compute]
      generalize p.runWith below (s.start k) = out at hp
      obtain ⟨result, s'⟩ := out
      cases result with
      | error halt => exact h.trans hp (h.finish s')
      | ok v => exact h.trans (h.trans hp (h.finish s')) (h.keep k _ s'.finish)

theorem revalidate (k : K) (p : Program K V (V k)) {m : Memo K (V k)} {s : Store K V}
    (hm : s.memos.get? k = some m) : P s (revalidate below k p m s).2 := by
  have hu := h.unchangedSince hb m.verifiedAt m.reads s
  simp only [Graph.revalidate]
  split
  · exact h.refl s
  · generalize Graph.unchangedSince below m.verifiedAt m.reads s = out at hu
    obtain ⟨result, s'⟩ := out
    cases result with
    | error halt => exact hu
    | ok unchanged =>
      cases unchanged with
      | true => exact h.verify hm hu
      | false => exact h.trans hu (h.execute hb k p (some m) s')

end

variable [∀ k, BEq (V k)] (h : Stepwise P) (rules : Rules K V) (depth : Nat)
include h

theorem fetch (k : K) (s : Store K V) : P s (fetch rules depth k s).2 := by
  induction depth generalizing k s with
  | zero =>
    unfold Graph.fetch
    cases rules k <;> exact h.refl s
  | succ depth ih =>
    unfold Graph.fetch
    cases rules k with
    | input absent => exact h.refl s
    | refused e => exact h.refl s
    | query p =>
      simp only
      split
      · exact h.execute ih k p none s
      · rename_i m hm
        exact h.revalidate ih k p hm

theorem run (p : Program K V α) (s : Store K V) : P s (p.run rules depth s).2 :=
  h.runWith (h.fetch rules depth) p s

end Stepwise
end SceneCodegen.Graph
