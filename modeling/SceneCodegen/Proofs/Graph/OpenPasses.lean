import SceneCodegen.Proofs.Graph.Completion
import SceneCodegen.Proofs.Graph.Denotation

/-!
# Passes that nobody cancels

A pass under an open token, which no one cancels from outside, runs to its end where every query is
safe, and comes to what is read outside of all passes.
-/
namespace SceneCodegen.Graph

variable {K : Type} {V : K → Type} {α : Type}

/-- Not cancelled, and with no bound on the queries that may start. -/
structure Token.IsOpen (t : Token) : Prop where
  uncancelled : t.cancelled = false
  unbounded : t.startsLeft = none

/-- The token of the running pass is open, if there is one. -/
def Store.IsOpen (s : Store K V) : Prop := ∀ t, s.token = some t → t.IsOpen

theorem Token.IsOpen.countStart {t : Token} (h : t.IsOpen) : t.countStart.IsOpen := by
  refine ⟨h.uncancelled, ?_⟩
  rw [Token.countStart, h.unbounded]
  rfl

namespace Store.IsOpen
variable {s s' : Store K V}

theorem of_same (h : s.IsOpen) (hs : s'.token = s.token) : s'.IsOpen := fun t ht =>
  h t (hs ▸ ht)

theorem cancelled?_eq (h : s.IsOpen) : s.cancelled? = none := by
  unfold Store.cancelled?
  cases ht : s.token with
  | none => rfl
  | some t =>
    obtain ⟨hcancelled, hstarts⟩ := h t ht
    simp [Token.isCancelled, hcancelled, hstarts]

theorem noteRead (h : s.IsOpen) (k : K) : (s.noteRead k).IsOpen := h.of_same (by simp)

theorem start (h : s.IsOpen) (k : K) : (s.start k).IsOpen := by
  intro t ht
  obtain ⟨t', ht', rfl⟩ := Option.map_eq_some_iff.mp ht
  exact (h t' ht').countStart

end Store.IsOpen

/-- Whatever is read, the running pass is not cancelled. -/
inductive Program.Uncancelling : Program K V α → Prop
  | done (a : α) : Uncancelling (.done a)
  | fail (e : Failure K) : Uncancelling (.fail e)
  | read {k : K} {next : Except (Failure K) (V k) → Program K V α}
      (h : ∀ r, Uncancelling (next r)) : Uncancelling (.read k next)

theorem Program.Safe.uncancelling {T : K → Prop} {E : Failure K → Prop} {p : Program K V α}
    (h : p.Safe T E) : p.strict.Uncancelling := by
  induction h with
  | done a => exact .done a
  | fail _ => exact .fail _
  | read _ _ _ ih =>
    refine .read fun r => ?_
    cases r with
    | ok v => exact ih v
    | error e => exact .fail e

section
variable {below : (k : K) → Reader K V (Stamped (V k))}
  (hb : ∀ k s, Store.IsOpen s → (below k s).2.IsOpen) {s : Store K V}
include hb

theorem unchangedSince_isOpen (r : Nat) (ks : List K) (hs : s.IsOpen) :
    (unchangedSince below r ks s).2.IsOpen := by
  induction ks generalizing s with
  | nil => exact hs
  | cons k ks ih =>
    have hk := hb k s hs
    simp only [unchangedSince]
    generalize below k s = out at hk
    obtain ⟨result, s'⟩ := out
    cases result with
    | error halt => exact hk
    | ok node =>
      dsimp only
      split
      · exact hk
      · exact ih hk

theorem Program.Uncancelling.runWith {p : Program K V α} (hp : p.Uncancelling) (hs : s.IsOpen) :
    (p.runWith below s).2.IsOpen := by
  induction hp generalizing s with
  | done a => exact hs
  | fail e => exact hs
  | @read k next _ ih =>
    have hk := hb k (s.noteRead k) (hs.noteRead k)
    simp only [Program.runWith]
    generalize below k (s.noteRead k) = out at hk
    obtain ⟨result, s'⟩ := out
    cases result with
    | ok node => exact ih _ hk
    | error halt =>
      cases halt with
      | failed e => exact ih _ hk
      | tooDeep => exact hk

variable [BEq K] [∀ k, BEq (V k)] {k : K} {p : Program K V (V k)} (hp : p.Uncancelling)
include hp

theorem execute_isOpen (previous : Option (Memo K (V k))) (hs : s.IsOpen) :
    (execute below k p previous s).2.IsOpen := by
  simp only [execute]
  split
  · exact hs
  · split
    · exact hs
    · have hrun := hp.runWith hb (hs.start k)
      simp only [compute]
      generalize p.runWith below (s.start k) = out at hrun
      obtain ⟨result, s'⟩ := out
      cases result with
      | error halt => exact hrun.of_same rfl
      | ok v => exact hrun.of_same rfl

theorem revalidate_isOpen (m : Memo K (V k)) (hs : s.IsOpen) :
    (revalidate below k p m s).2.IsOpen := by
  have hu := unchangedSince_isOpen hb m.verifiedAt m.reads hs
  simp only [revalidate]
  split
  · exact hs
  · generalize unchangedSince below m.verifiedAt m.reads s = out at hu
    obtain ⟨result, s'⟩ := out
    cases result with
    | error halt => exact hu
    | ok unchanged =>
      cases unchanged with
      | true => exact hu.of_same rfl
      | false => exact execute_isOpen hb hp (some m) hu

end

variable [BEq K] [LawfulBEq K] [∀ k, BEq (V k)] {rules : Rules K V} {L : Likeness K V}
  {level : K → Nat} {s : Store K V} {depth : Nat}

/-- Reads leave a token open if no query cancels. -/
theorem fetch_isOpen (h : ∀ k p, rules k = .query p → p.Uncancelling) (depth : Nat) (k : K)
    (hs : s.IsOpen) : (fetch rules depth k s).2.IsOpen := by
  induction depth generalizing k s with
  | zero =>
    unfold fetch
    cases rules k <;> exact hs
  | succ depth ih =>
    unfold fetch
    cases hk : rules k with
    | input absent => exact hs
    | refused e => exact hs
    | query p =>
      dsimp only
      split
      · exact execute_isOpen (fun k s hs => ih k hs) (h k p hk) none hs
      · next m _ => exact revalidate_isOpen (fun k s hs => ih k hs) (h k p hk) m hs

omit [BEq K] [LawfulBEq K] [∀ k, BEq (V k)] in
theorem Leveled.uncancelling (h : Leveled rules level) (k : K) (p : Program K V (V k))
    (hk : Graph.strictly rules k = .query p) : p.Uncancelling := by
  obtain ⟨q, hq, rfl⟩ := strictly_query hk
  exact (h.safe k q hq).uncancelling

namespace AtRest
variable [Node K] (hO : Orderly rules L) (hlevel : Leveled rules level)
include hO hlevel

/-- A read under an open token gives a value and leaves the token open. -/
theorem fetch_open (h : AtRest rules L s) {k : K} (hk : level k < depth) (hs : s.IsOpen) :
    (Graph.fetch rules depth k s).2.IsOpen ∧
      ∃ node, (Graph.fetch rules depth k s).1 = .ok node := by
  have hopen : (Graph.fetch rules depth k s).2.IsOpen := by
    rw [h.fetch_strictly hO hlevel hk]
    exact fetch_isOpen hlevel.uncancelling depth k hs
  refine ⟨hopen, ?_⟩
  obtain ⟨n, v, hv⟩ : ∃ n v, settle rules s.input? n k = .ok v := ⟨depth, hlevel.settles hk⟩
  obtain ⟨past, hpast, hserved⟩ := h.served hO (hlevel.steady s.input?) (k := k) trivial depth
  cases hr : (Graph.fetch rules depth k s).1 with
  | ok node => exact ⟨node, rfl⟩
  | error halt =>
    have hhalts := hserved.halts _ hr
    rw [hpast] at hhalts
    cases halt with
    | failed e =>
      obtain ⟨g, rfl, hg⟩ := hhalts.exists_cancelled hv
      rw [hopen.cancelled?_eq] at hg
      cases hg
    | tooDeep => exact absurd (h.fetch_ends hO hlevel hk) (by simp [hr])

/-- A run under an open token ends with a value. -/
theorem run_open {p : Program K V α} (h : AtRest rules L s)
    (hp : p.Safe (level · < depth) (Unfailing K)) (hs : s.IsOpen) :
    ∃ a, (p.run rules depth s).1 = .ok a := by
  induction hp generalizing s with
  | done a => exact ⟨a, rfl⟩
  | fail hf => exact hf.elim
  | @read k next hk _ _ ih =>
    have hrest := (h.fetch hO (hlevel.steady s.input?) (k := k) trivial depth).1
    obtain ⟨hopen, node, hnode⟩ := h.fetch_open hO hlevel hk hs
    simp only [Program.run, Program.runWith, Store.noteRead_of_idle h.idle]
    generalize Graph.fetch rules depth k s = out at hrest hopen hnode
    obtain ⟨r, s'⟩ := out
    obtain rfl : r = .ok node := hnode
    exact ih node.value hrest hopen

omit hlevel in
theorem likeInputs_self (h : AtRest rules L s) : LikeInputs rules L s.input? s.input? := by
  intro k absent hk
  obtain ⟨past, hs⟩ := h.exists_sound
  cases hx : s.inputs.get? k with
  | none =>
    have habsent := hO.absent k absent hk
    simpa only [Store.input?, hx, Option.map_none, Option.getD_none] using habsent
  | some x =>
    have hvalue := hs.domain k x hx
    simpa only [Store.input?, hx, Option.map_some, Option.getD_some] using hvalue

/-- Runs of a program that end with a value agree, under whatever token. -/
theorem run_agrees {p : Program K V α} (h : AtRest rules L s)
    (hp : p.Safe (level · < depth) (Unfailing K)) (halike : p.Alike L Eq Eq p) :
    ∃ a, (p.run rules depth (s.beginPass none)).1 = .ok a ∧ ∀ token b,
      (p.run rules depth (s.beginPass token)).1 = .ok b → b = a := by
  have hsettles (k : K) : ∃ n v, settle rules s.input? n k = .ok v :=
    ⟨level k + 1, hlevel.settles (Nat.lt_succ_self (level k))⟩
  obtain ⟨⟨ks, a⟩, ha⟩ := hp.settleWith fun k hk =>
    show ∃ v, settle rules s.input? depth k = .ok v from hlevel.settles hk
  have hbelow (k : K) (v : V k) (hv : settle rules s.input? depth k = .ok v) :
      ∃ w, settle rules s.input? depth k = .ok w ∧ L.like k v w := by
    have hagree := settle_alike hO.alike (h.likeInputs_self hO) depth k
    rw [hv] at hagree
    obtain ⟨w, hw, hlike⟩ := hagree.of_ok
    exact ⟨w, hv.trans hw, hlike⟩
  have hrun (token : Option Token) := AtRest.run_settled (s := s.beginPass token) hO hsettles
    (h.beginPass token) hbelow halike hp ha (Nat.le_refl depth)
  refine ⟨a, ?_, fun token b hb => ?_⟩
  · rcases hrun none with ⟨b, hb, rfl⟩ | ⟨htoken, -⟩
    · exact hb
    · cases htoken
  · rcases hrun token with ⟨b', hb', rfl⟩ | ⟨-, g, hg⟩
    · exact Except.ok.inj (hb.symm.trans hb')
    · rw [hb] at hg
      cases hg

end AtRest
end SceneCodegen.Graph
