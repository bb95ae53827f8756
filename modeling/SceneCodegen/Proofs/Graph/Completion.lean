import SceneCodegen.Proofs.Graph.History
import SceneCodegen.Proofs.Graph.Recomputation
import SceneCodegen.Proofs.Graph.Safety

/-!
# Completed runs

Where every query is safe, a read ends with a value or because its pass was cancelled, so a run that
was not cancelled is the run of programs that pass every failure on. It is a visit of nodes that the
program comes upon, and leaves valid whatever it reads. Programs that are alike come to like results
on any two stores at rest whose inputs are alike, whatever was computed on either before.
-/
namespace SceneCodegen.Graph

variable {K : Type} {V : K → Type} {α β : Type}

theorem Program.settleWith_strict (below : (k : K) → Except (Halt K) (V k)) (p : Program K V α) :
    p.strict.settleWith below = p.settleWith below := by
  induction p with
  | done a => rfl
  | fail e => rfl
  | read k next ih =>
    simp only [strict, settleWith]
    cases below k with
    | ok v => exact congrArg (Except.map _) (ih (.ok v))
    | error halt => rfl
  | cancel next ih => exact ih

theorem Program.Safe.strict {T : K → Prop} {E : Failure K → Prop} {p : Program K V α}
    (h : p.Safe T E) : p.strict.Safe T E := by
  induction h with
  | done a => exact .done a
  | fail h => exact .fail h
  | read hk _ _ ih => exact .read hk (fun _ _ => rfl) ih

theorem Program.Alike.strict {L : Likeness K V} {E : Failure K → Failure K → Prop}
    {R : α → α → Prop} {p q : Program K V α} (h : p.Alike L E R q) :
    p.strict.Alike L E R q.strict := by
  induction h with
  | done h => exact .done h
  | fail h => exact .fail h
  | read _ ih => exact .read ih
  | cancel _ ih => exact .cancel ih

section
variable {rules : Rules K V} {inputs : Inputs K V} {k : K}

theorem strictly_of_query {p : Program K V (V k)} (h : rules k = .query p) :
    strictly rules k = .query p.strict := by simp [strictly, h]

theorem strictly_refused {e : Failure K} (h : rules k = .refused e) :
    strictly rules k = .refused e := by simp [strictly, h]

/-- Nodes settle alike, as failures are passed on in any case. -/
theorem settle_strictly (n : Nat) (k : K) :
    settle (strictly rules) inputs n k = settle rules inputs n k := by
  induction n generalizing k with
  | zero =>
    cases hk : rules k with
    | input absent => rw [settle_input hk, settle_input (strictly_input_iff.mpr hk)]
    | refused e => rw [settle_refused hk, settle_refused (strictly_refused hk)]
    | query p => rw [settle_zero hk, settle_zero (strictly_of_query hk)]
  | succ n ih =>
    cases hk : rules k with
    | input absent => rw [settle_input hk, settle_input (strictly_input_iff.mpr hk)]
    | refused e => rw [settle_refused hk, settle_refused (strictly_refused hk)]
    | query p =>
      have hbelow : settle (strictly rules) inputs n = settle rules inputs n := funext ih
      rw [settle_succ hk, settle_succ (strictly_of_query hk), p.settleWith_strict, hbelow]

theorem Leveled.strictly {level : K → Nat} (h : Leveled rules level) :
    Leveled (strictly rules) level where
  safe k p hk := by
    obtain ⟨q, hq, rfl⟩ := strictly_query hk
    exact (h.safe k q hq).strict
  known k e he := by
    cases hk : rules k with
    | input absent =>
      rw [strictly_input_iff.mpr hk] at he
      cases he
    | refused e => exact h.known k e hk
    | query p =>
      rw [strictly_of_query hk] at he
      cases he

theorem Orderly.strictly [Node K] [∀ k, BEq (V k)] {L : Likeness K V} (h : Orderly rules L) :
    Orderly (strictly rules) L where
  absent k a hk := h.absent k a (strictly_input_iff.mp hk)
  alike k p hk := by
    obtain ⟨q, hq, rfl⟩ := strictly_query hk
    exact (h.alike k q hq).strict
  relays k p hk := (relays_strictly rules k p hk).mono fun _ _ => trivial
  faithful k p v w hk := by
    obtain ⟨q, hq, -⟩ := strictly_query hk
    exact h.faithful k q v w hq

end

/-- Nothing failed but by a cancellation. -/
def Calm (r : Except (Halt K) α) : Prop := ∀ e, r = .error (.failed e) → IsCancellation e

theorem calm_ok (a : α) : Calm (.ok a : Except (Halt K) α) := by
  intro e he
  cases he

theorem calm_tooDeep : Calm (.error .tooDeep : Except (Halt K) α) := by
  intro e he
  cases he

section
variable {below below' : (k : K) → Reader K V (Stamped (V k))}
  (hb : ∀ k s, Calm (below' k s).1 → below k s = below' k s)
include hb

theorem Program.runWith_of_calm {p : Program K V α} (hp : p.Relays IsCancellation)
    {s : Store K V} (h : Calm (p.strict.runWith below' s).1) :
    p.runWith below s = p.strict.runWith below' s := by
  induction p generalizing s with
  | done a => rfl
  | fail e => rfl
  | read k next ih =>
    cases hp with
    | read hfail hok =>
      have hk := hb k (s.noteRead k)
      simp only [strict, runWith] at h ⊢
      generalize below' k (s.noteRead k) = out at h hk
      obtain ⟨r, s₁⟩ := out
      cases r with
      | ok node =>
        rw [hk (calm_ok node)]
        exact ih (.ok node.value) (hok node.value) h
      | error halt =>
        cases halt with
        | tooDeep => rw [hk calm_tooDeep]
        | failed e =>
          have he : IsCancellation e := h e rfl
          have hcalm : Calm (.error (.failed e) : Except (Halt K) (Stamped (V k))) := by
            intro e' heq
            cases heq
            exact he
          rw [hk hcalm]
          simp only [hfail e he, ofExcept, bind, runWith]
  | cancel next ih =>
    cases hp with
    | cancel hp => exact ih hp h

theorem unchangedSince_of_calm {r : Nat} {ks : List K} {s : Store K V}
    (h : Calm (unchangedSince below' r ks s).1) :
    unchangedSince below r ks s = unchangedSince below' r ks s := by
  induction ks generalizing s with
  | nil => rfl
  | cons k ks ih =>
    have hk := hb k s
    simp only [unchangedSince] at h ⊢
    generalize below' k s = out at h hk
    obtain ⟨result, s₁⟩ := out
    cases result with
    | ok node =>
      rw [hk (calm_ok node)]
      simp only at h ⊢
      split
      · rfl
      · rename_i hc
        rw [if_neg hc] at h
        exact ih h
    | error halt =>
      have hcalm : Calm (.error halt : Except (Halt K) (Stamped (V k))) := by
        intro e he
        cases he
        exact h e rfl
      rw [hk hcalm]

variable [BEq K] [∀ k, BEq (V k)] {k : K} {p : Program K V (V k)}
  (hp : p.Relays IsCancellation) {s : Store K V}
include hp

theorem execute_of_calm {previous : Option (Memo K (V k))}
    (h : Calm (execute below' k p.strict previous s).1) :
    execute below k p previous s = execute below' k p.strict previous s := by
  simp only [execute] at h ⊢
  split
  · rfl
  · rename_i hc
    split
    · rfl
    · rename_i hg
      simp only [hc, hg, compute] at h ⊢
      have hrun := Program.runWith_of_calm hb hp (s := s.start k)
      generalize p.strict.runWith below' (s.start k) = out at h hrun
      obtain ⟨result, s₁⟩ := out
      have hcalm : Calm result := by
        intro e he
        subst he
        exact h e rfl
      rw [hrun hcalm]

theorem revalidate_of_calm {m : Memo K (V k)} (h : Calm (revalidate below' k p.strict m s).1) :
    revalidate below k p m s = revalidate below' k p.strict m s := by
  simp only [revalidate] at h ⊢
  split
  · rfl
  · rename_i hv
    rw [if_neg hv] at h
    have hcheck : Calm (unchangedSince below' m.verifiedAt m.reads s).1 →
        unchangedSince below m.verifiedAt m.reads s =
          unchangedSince below' m.verifiedAt m.reads s := unchangedSince_of_calm hb
    generalize unchangedSince below' m.verifiedAt m.reads s = out at h hcheck
    obtain ⟨result, s₁⟩ := out
    cases result with
    | error halt =>
      have hcalm : Calm (.error halt : Except (Halt K) Bool) := by
        intro e he
        cases he
        exact h e rfl
      rw [hcheck hcalm]
    | ok unchanged =>
      rw [hcheck (calm_ok unchanged)]
      cases unchanged with
      | true => rfl
      | false => exact execute_of_calm hb hp h

end

variable [BEq K] [LawfulBEq K] [∀ k, BEq (V k)] {rules : Rules K V} {L : Likeness K V}
  {level : K → Nat} {s s' : Store K V} {depth : Nat} {k : K}

/-- A read through strict rules that is cancelled at most is the read through the rules. -/
theorem fetch_of_calm (hF : ∀ k p, rules k = .query p → p.Relays IsCancellation)
    (h : Calm (fetch (strictly rules) depth k s).1) :
    fetch rules depth k s = fetch (strictly rules) depth k s := by
  induction depth generalizing k s with
  | zero =>
    unfold fetch
    cases hk : rules k with
    | input absent => simp only [strictly_input_iff.mpr hk]
    | refused e => simp only [strictly_refused hk]
    | query p => simp only [strictly_of_query hk]
  | succ depth ih =>
    unfold fetch at h ⊢
    cases hk : rules k with
    | input absent => simp only [strictly_input_iff.mpr hk]
    | refused e => simp only [strictly_refused hk]
    | query p =>
      simp only [strictly_of_query hk] at h ⊢
      cases hm : s.memos.get? k with
      | none =>
        simp only [hm] at h
        exact execute_of_calm (fun k s => ih) (hF k p hk) h
      | some m =>
        simp only [hm] at h
        exact revalidate_of_calm (fun k s => ih) (hF k p hk) h

section
variable {past : Nat → Inputs K V}

omit [∀ k, BEq (V k)] in
theorem Sound.strictly (h : Sound rules L past s) : Sound (strictly rules) L past s where
  inputs := h.inputs
  absent := h.absent
  domain := h.domain
  memos k m hm := by
    have hb := h.memos k m hm
    obtain ⟨p, n, ks, v, hk, hp, hv, hreads, ht⟩ := hb.exists_run
    have hbelow : settle (Graph.strictly rules) (past m.verifiedAt) n =
        settle rules (past m.verifiedAt) n := funext (settle_strictly n)
    refine ⟨hb.le_revision, hb.changed_le, p.strict, n, ks, v, strictly_of_query hk, ?_, hv, hreads,
      fun d hd i w hw => ?_⟩
    · rw [p.settleWith_strict, hbelow]
      exact hp
    · rw [settle_strictly] at hw
      exact ht d hd i w hw

omit [∀ k, BEq (V k)] in
theorem Sound.tidy (h : Sound rules L past s) : Tidy rules s where
  query k m hm := by
    obtain ⟨p, n, ks, v, hk, -⟩ := (h.memos k m hm).exists_run
    exact ⟨p, hk⟩
  changed_le k m hm := (h.memos k m hm).changed_le
  le_revision k m hm := (h.memos k m hm).le_revision

end

namespace AtRest

omit [∀ k, BEq (V k)] in
theorem strictly (h : AtRest rules L s) : AtRest (strictly rules) L s := by
  obtain ⟨past, hs⟩ := h.exists_sound
  exact ⟨h.idle, past, hs.strictly⟩

omit [∀ k, BEq (V k)] in
theorem tidy (h : AtRest rules L s) : Tidy rules s := by
  obtain ⟨past, hs⟩ := h.exists_sound
  exact hs.tidy

variable [Node K] (hO : Orderly rules L) (hlevel : Leveled rules level)
include hO hlevel

/-- A read is cancelled at most. -/
theorem fetch_calm (h : AtRest rules L s) (hk : level k < depth) :
    Calm (Graph.fetch rules depth k s).1 := by
  intro e he
  obtain ⟨past, hpast, hserved⟩ := h.served hO (hlevel.steady s.input?) (k := k) trivial depth
  obtain ⟨v, hv⟩ : ∃ v, settle rules s.input? depth k = .ok v := hlevel.settles hk
  have hhalts := hserved.halts _ he
  rw [hpast] at hhalts
  exact hhalts.isCancellation hv

/-- A read gives what the store then holds, unless its pass is cancelled. -/
theorem fetch_ends (h : AtRest rules L s) (hk : level k < depth) :
    (∃ node, (Graph.fetch rules depth k s).1 = .ok node ∧
      Holds rules (Graph.fetch rules depth k s).2 k node) ∨
    ∃ g, (Graph.fetch rules depth k s).1 = .error (.failed (.cancelled g)) ∧ s.token ≠ none := by
  obtain ⟨past, hpast, hserved⟩ := h.served hO (hlevel.steady s.input?) (k := k) trivial depth
  obtain ⟨v, hv⟩ : ∃ v, settle rules s.input? depth k = .ok v := hlevel.settles hk
  cases hr : (Graph.fetch rules depth k s).1 with
  | ok node => exact .inl ⟨node, rfl, (hserved.ok node hr).1⟩
  | error halt =>
    have hhalts := hserved.halts _ hr
    rw [hpast] at hhalts
    cases halt with
    | failed e =>
      obtain ⟨g, rfl, hg⟩ := hhalts.exists_cancelled hv
      refine .inr ⟨g, rfl, fun ht => ?_⟩
      have hnone := hserved.advances.token ht
      simp [Store.cancelled?, hnone] at hg
    | tooDeep =>
      cases hhalts with
      | tooDeep hdeep => exact absurd (hv ▸ ended_ok v) (hdeep depth (Nat.le_refl depth))

/-- A run ends with a value, unless its pass is cancelled. -/
theorem run_ends {p : Program K V α} (h : AtRest rules L s)
    (hp : p.Safe (level · < depth) (Unfailing K)) :
    (∃ a, (p.run rules depth s).1 = .ok a) ∨
    s.token ≠ none ∧ wasCancelled (p.run rules depth s).1 = true := by
  induction hp generalizing s with
  | done a => exact .inl ⟨a, rfl⟩
  | fail hf => exact hf.elim
  | @read k next hk hc _ ih =>
    have hrest := (h.fetch hO (hlevel.steady s.input?) (k := k) trivial depth).1
    obtain ⟨past, -, hserved⟩ := h.served hO (hlevel.steady s.input?) (k := k) trivial depth
    have hends := h.fetch_ends hO hlevel hk
    simp only [Program.run, Program.runWith, Store.noteRead_of_idle h.idle]
    generalize Graph.fetch rules depth k s = out at hrest hserved hends
    obtain ⟨r, s₁⟩ := out
    rcases hends with ⟨node, hr, -⟩ | ⟨g, hr, ht⟩
    · obtain rfl : r = _ := hr
      rcases ih node.value hrest with hok | ⟨ht, hcancelled⟩
      · exact .inl hok
      · exact .inr ⟨fun hnone => ht (hserved.advances.token hnone), hcancelled⟩
    · obtain rfl : r = _ := hr
      refine .inr ⟨ht, ?_⟩
      simp only [hc _ ⟨g, rfl⟩, Program.runWith, wasCancelled]

theorem fetch_strictly (h : AtRest rules L s) (hk : level k < depth) :
    Graph.fetch rules depth k s = Graph.fetch (Graph.strictly rules) depth k s :=
  fetch_of_calm hlevel.relays (h.strictly.fetch_calm hO.strictly hlevel.strictly hk)

/-- A run that ends with a value meets no failure. -/
theorem undisturbed {p : Program K V α} (h : AtRest rules L s)
    (hp : p.Safe (level · < depth) (Unfailing K)) {a : α}
    (ha : (p.run rules depth s).1 = .ok a) : Undisturbed rules p depth s := by
  induction hp generalizing s with
  | done b => exact ⟨b, rfl⟩
  | fail hf => exact hf.elim
  | @read k next hk hc _ ih =>
    have hrest := (h.fetch hO (hlevel.steady s.input?) (k := k) trivial depth).1
    have hcalm := h.fetch_calm hO hlevel hk
    have hsame := h.fetch_strictly hO hlevel hk
    simp only [Program.run, Program.runWith, Store.noteRead_of_idle h.idle] at ha
    simp only [Undisturbed, Program.run, Program.strict, Program.runWith,
      Store.noteRead_of_idle h.idle, ← hsame]
    generalize Graph.fetch rules depth k s = out at ha hrest hcalm
    obtain ⟨r, s₁⟩ := out
    cases r with
    | ok node => exact ih node.value hrest ha
    | error halt =>
      cases halt with
      | tooDeep => cases ha
      | failed e =>
        simp only [hc e (hcalm e rfl), Program.runWith] at ha
        cases ha

omit hlevel in
/-- A run leaves alone what its program cannot come upon. -/
theorem run_spares {T : K → Prop} {p : Program K V α} (hp : p.Within T) (h : AtRest rules L s)
    (hT : Steady rules s.input? T) (hk : ¬ T k) :
    (p.run rules depth s).2.memos.get? k = s.memos.get? k := by
  induction hp generalizing s with
  | done a => rfl
  | fail e => rfl
  | @read d next hd _ ih =>
    obtain ⟨hrest, hinputs⟩ := h.fetch hO hT hd depth
    obtain ⟨past, -, hserved⟩ := h.served hO hT hd depth
    have hframe := hserved.advances.frame k (.inr hk)
    simp only [Program.run, Program.runWith, Store.noteRead_of_idle h.idle]
    generalize Graph.fetch rules depth d s = out at hrest hinputs hframe
    obtain ⟨r, s₁⟩ := out
    have hnext (r : Except (Failure K) (V d)) :
        ((next r).run rules depth s₁).2.memos.get? k = s.memos.get? k :=
      (ih r hrest (by rw [show s₁.input? = _ from hinputs]; exact hT)).trans hframe
    cases r with
    | ok node => exact hnext (.ok node.value)
    | error halt =>
      cases halt with
      | failed e => exact hnext (.error e)
      | tooDeep => exact hframe
  | cancel _ ih =>
    obtain ⟨past, hs⟩ := h.exists_sound
    exact ih (s := s.cancelPass) ⟨h.idle, past, hs.of_same rfl rfl rfl⟩ hT

end AtRest

section
variable [Node K]

/-- Outside a pass, a node is read as it settles, and the store stays at rest. -/
theorem AtRest.fetch_of_level (hO : Orderly rules L) (hlevel : Leveled rules level)
    (h : AtRest rules L s) (ht : s.token = none) {k : K} (hk : level k < depth) :
    ∃ v w after, settle rules s.input? depth k = .ok v ∧
      Graph.fetch rules depth k s = (.ok w, after) ∧
      L.like k v w.value ∧ AtRest rules L after ∧ after.input? = s.input? ∧ after.token = none := by
  have hsteady := hlevel.steady s.input?
  obtain ⟨v, hv⟩ : ∃ v, settle rules s.input? depth k = .ok v := hlevel.settles hk
  have hagree := h.agree_of_ended hO hsteady ht trivial (Nat.le_refl depth) (hv ▸ ended_ok v)
  obtain ⟨hrest, hinputs⟩ := h.fetch hO hsteady (k := k) trivial depth
  obtain ⟨past, -, hserved⟩ := h.served hO hsteady (k := k) trivial depth
  have htoken := hserved.advances.token ht
  rw [hv] at hagree
  obtain ⟨w, hw, hlike⟩ := hagree.of_ok
  generalize Graph.fetch rules depth k s = out at hw hrest hinputs htoken
  obtain ⟨r, after⟩ := out
  cases r with
  | error halt => cases hw
  | ok node =>
    cases hw
    exact ⟨v, node, after, hv, rfl, hlike, hrest, hinputs, htoken⟩

/-- Alike programs come to like results on stores of like inputs. -/
theorem AtRest.run_alike (hO : Orderly rules L) (hlevel : Leveled rules level)
    (h : AtRest rules L s) (h' : AtRest rules L s') (ht : s.token = none) (ht' : s'.token = none)
    (hin : LikeInputs rules L s.input? s'.input?) {E : Failure K → Failure K → Prop}
    {R : α → α → Prop} {p q : Program K V α} (hpq : p.Alike L E R q)
    (hp : p.Safe (level · < depth) (Unfailing K)) :
    ∃ a b, (p.run rules depth s).1 = .ok a ∧ (q.run rules depth s').1 = .ok b ∧ R a b := by
  induction hpq generalizing s s' with
  | done hab => exact ⟨_, _, rfl, rfl, hab⟩
  | fail he =>
    cases hp with
    | fail h => exact h.elim
  | cancel _ _ => cases hp
  | @read k next next' _ ih =>
    cases hp with
    | read hk _ hnext =>
      obtain ⟨v, w, after, hv, hfetch, hvw, hrest, hinputs, htoken⟩ :=
        h.fetch_of_level hO hlevel ht hk
      obtain ⟨v', w', after', hv', hfetch', hvw', hrest', hinputs', htoken'⟩ :=
        h'.fetch_of_level hO hlevel ht' hk
      have hsettle := settle_alike hO.alike hin depth k
      rw [hv, hv'] at hsettle
      cases hsettle with
      | ok hlike =>
        have hwords : L.like k w.value w'.value := L.trans (L.symm hvw) (L.trans hlike hvw')
        have hin' : LikeInputs rules L after.input? after'.input? := by
          rw [hinputs, hinputs']
          exact hin
        obtain ⟨a, b, ha, hb, hab⟩ :=
          ih w.value w'.value hwords hrest hrest' htoken htoken' hin' (hnext w.value)
        refine ⟨a, b, ?_, ?_, hab⟩
        · simp only [Program.run, Program.runWith, Store.noteRead_of_idle h.idle, hfetch]
          exact ha
        · simp only [Program.run, Program.runWith, Store.noteRead_of_idle h'.idle, hfetch']
          exact hb

end
end SceneCodegen.Graph
