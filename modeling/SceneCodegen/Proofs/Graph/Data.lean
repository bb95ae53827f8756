import SceneCodegen.Graph.Open
import SceneCodegen.Proofs.Graph.Respelling
import SceneCodegen.Proofs.Json.Equality

/-!
# Data as keys

Equality of data is an equivalence, so that a key of an open graph stands for one node whatever its
spelling. All spellings of a key are inputs, all are queries or all are refused.
-/
namespace SceneCodegen.Graph

namespace Datum
variable {x y z : Datum}

/-- Induction over data, where a table is told by its entries. -/
theorem entriesInduction {P : Datum → Prop} (scalar : ∀ x a, x.scalar? = some a → P x)
    (nil : P nil) (cons : ∀ x xs, P x → P xs → P (cons x xs)) (diagnostic : ∀ d, P (diagnostic d))
    (outcome : ∀ v ds, P v → P (outcome v ds)) (pair : ∀ x y, P x → P y → P (pair x y))
    (table : ∀ entries : Datum, (∀ a ∈ entries.items, P a) → P (table entries)) (x : Datum) :
    P x := by
  have hitems (x : Datum) : P x ∧ ∀ a ∈ x.items, P a := by
    induction x with
    | null | bool _ | int _ | float _ | text _ => exact ⟨scalar _ _ rfl, fun a ha => by cases ha⟩
    | nil => exact ⟨nil, fun a ha => by cases ha⟩
    | cons x xs ihx ihxs =>
      refine ⟨cons x xs ihx.1 ihxs.1, fun a ha => ?_⟩
      rcases List.mem_cons.mp ha with rfl | ha
      · exact ihx.1
      · exact ihxs.2 a ha
    | diagnostic d => exact ⟨diagnostic d, fun a ha => by cases ha⟩
    | outcome v ds ih => exact ⟨outcome v ds ih.1, fun a ha => by cases ha⟩
    | pair x y ihx ihy => exact ⟨pair x y ihx.1 ihy.1, fun a ha => by cases ha⟩
    | table entries ih => exact ⟨table entries ih.2, fun a ha => by cases ha⟩
  exact (hitems x).1

theorem included_iff {xs ys : Datum} :
    same.included xs ys = true ↔ ∀ a ∈ xs.items, ∃ b ∈ ys.items, same a b = true := by
  induction xs with
  | cons x xs _ ih =>
    have hcons : same.included (cons x xs) ys = (ys.items.any (same x) && same.included xs ys) :=
      rfl
    simp [hcons, ih]
  | _ => exact iff_of_true rfl fun a ha => by cases ha

theorem includes_iff {xs y : Datum} :
    same.includes xs y = true ↔ ∃ a ∈ xs.items, same a y = true := by
  induction xs with
  | cons x xs _ ih =>
    have hcons : same.includes (cons x xs) y = (same x y || same.includes xs y) := rfl
    simp [hcons, ih]
  | _ =>
    refine iff_of_false Bool.false_ne_true ?_
    rintro ⟨a, ha, -⟩
    cases ha

theorem isScalar_of_scalar? {a : Json} (h : x.scalar? = some a) : a.IsScalar := by
  cases x <;> cases h <;> trivial

theorem same_scalar_iff {a : Json} (h : x.scalar? = some a) :
    same x y = true ↔ ∃ b, y.scalar? = some b ∧ a.sameScalar b = true := by
  have hsame : same x y = (y.scalar?.map a.sameScalar).getD false := by
    cases x <;> cases h <;> cases y <;> rfl
  rw [hsame]
  cases y.scalar? <;> simp

theorem same_cons_iff {head tail : Datum} :
    same (cons head tail) y = true ↔
      ∃ head' tail', y = cons head' tail' ∧ same head head' = true ∧ same tail tail' = true := by
  constructor
  · intro h
    cases y with
    | cons head' tail' => exact ⟨head', tail', rfl, Bool.and_eq_true_iff.mp h⟩
    | _ => cases h
  · rintro ⟨head', tail', rfl, h⟩
    exact Bool.and_eq_true_iff.mpr h

theorem same_nil_iff : same nil y = true ↔ y = nil := by
  constructor
  · intro h
    cases y with
    | nil => rfl
    | _ => cases h
  · rintro rfl
    rfl

theorem same_diagnostic_iff {d : Diagnostic} : same (diagnostic d) y = true ↔ y = diagnostic d := by
  constructor
  · intro h
    cases y with
    | diagnostic e =>
      have hde : (d == e) = true := h
      rw [eq_of_beq hde]
    | _ => cases h
  · rintro rfl
    exact beq_self_eq_true d

theorem same_outcome_iff {v : Datum} {ds : List Diagnostic} :
    same (outcome v ds) y = true ↔ ∃ w, y = outcome w ds ∧ same v w = true := by
  constructor
  · intro h
    cases y with
    | outcome w es =>
      obtain ⟨hv, hds⟩ := Bool.and_eq_true_iff.mp h
      exact ⟨w, by rw [eq_of_beq hds], hv⟩
    | _ => cases h
  · rintro ⟨w, rfl, hv⟩
    exact Bool.and_eq_true_iff.mpr ⟨hv, beq_self_eq_true ds⟩

theorem same_pair_iff {left right : Datum} :
    same (pair left right) y = true ↔
      ∃ left' right', y = pair left' right' ∧ same left left' = true ∧
        same right right' = true := by
  constructor
  · intro h
    cases y with
    | pair left' right' => exact ⟨left', right', rfl, Bool.and_eq_true_iff.mp h⟩
    | _ => cases h
  · rintro ⟨left', right', rfl, h⟩
    exact Bool.and_eq_true_iff.mpr h

/-- Tables count as the same if each has an entry for each entry of the other. -/
theorem same_table_iff {entries : Datum} :
    same (table entries) y = true ↔ ∃ entries', y = table entries' ∧
      (∀ a ∈ entries.items, ∃ b ∈ entries'.items, same a b = true) ∧
      ∀ b ∈ entries'.items, ∃ a ∈ entries.items, same a b = true := by
  simp only [← included_iff, ← includes_iff, ← List.all_eq_true, ← Bool.and_eq_true_iff]
  constructor
  · intro h
    cases y with
    | table entries' => exact ⟨entries', rfl, h⟩
    | _ => cases h
  · rintro ⟨entries', rfl, h⟩
    exact h

theorem same_self (x : Datum) : same x x = true := by
  induction x using entriesInduction with
  | scalar x a h =>
    refine (same_scalar_iff h).mpr ⟨a, h, Json.sameScalar_iff.mpr ?_⟩
    cases hq : a.ratio? with
    | none => exact .inl ⟨rfl, rfl, isScalar_of_scalar? h⟩
    | some q => exact .inr ⟨q.1, q.2, q.1, q.2, hq, hq, rfl⟩
  | nil => exact same_nil_iff.mpr rfl
  | cons x xs ihx ihxs => exact same_cons_iff.mpr ⟨x, xs, rfl, ihx, ihxs⟩
  | diagnostic d => exact same_diagnostic_iff.mpr rfl
  | outcome v ds ih => exact same_outcome_iff.mpr ⟨v, rfl, ih⟩
  | pair x y ihx ihy => exact same_pair_iff.mpr ⟨x, y, rfl, ihx, ihy⟩
  | table entries ih =>
    exact same_table_iff.mpr ⟨entries, rfl, fun a ha => ⟨a, ha, ih a ha⟩, fun a ha =>
      ⟨a, ha, ih a ha⟩⟩

theorem same_symm (h : same x y = true) : same y x = true := by
  induction x using entriesInduction generalizing y with
  | scalar x a hx =>
    obtain ⟨b, hy, hab⟩ := (same_scalar_iff hx).mp h
    refine (same_scalar_iff hy).mpr ⟨a, hx, Json.sameScalar_iff.mpr ?_⟩
    exact (Json.sameScalar_iff.mp hab).imp (fun ⟨he, hq, hs⟩ => he ▸ ⟨rfl, hq, hs⟩) (·.symm)
  | nil => exact same_nil_iff.mp h ▸ same_self nil
  | cons x xs ihx ihxs =>
    obtain ⟨x', xs', rfl, hx, hxs⟩ := same_cons_iff.mp h
    exact same_cons_iff.mpr ⟨x, xs, rfl, ihx hx, ihxs hxs⟩
  | diagnostic d => exact same_diagnostic_iff.mp h ▸ same_self (diagnostic d)
  | outcome v ds ih =>
    obtain ⟨w, rfl, hv⟩ := same_outcome_iff.mp h
    exact same_outcome_iff.mpr ⟨v, rfl, ih hv⟩
  | pair x y ihx ihy =>
    obtain ⟨x', y', rfl, hx, hy⟩ := same_pair_iff.mp h
    exact same_pair_iff.mpr ⟨x, y, rfl, ihx hx, ihy hy⟩
  | table entries ih =>
    obtain ⟨entries', rfl, hleft, hright⟩ := same_table_iff.mp h
    refine same_table_iff.mpr ⟨entries, rfl, fun b hb => ?_, fun a ha => ?_⟩
    · obtain ⟨a, ha, hab⟩ := hright b hb
      exact ⟨a, ha, ih a ha hab⟩
    · obtain ⟨b, hb, hab⟩ := hleft a ha
      exact ⟨b, hb, ih a ha hab⟩

theorem same_trans (h : same x y = true) (h' : same y z = true) : same x z = true := by
  induction x using entriesInduction generalizing y z with
  | scalar x a hx =>
    obtain ⟨b, hy, hab⟩ := (same_scalar_iff hx).mp h
    obtain ⟨c, hz, hbc⟩ := (same_scalar_iff hy).mp h'
    refine (same_scalar_iff hx).mpr ⟨c, hz, ?_⟩
    rcases Json.sameScalar_iff.mp hab with ⟨rfl, -, -⟩ | hab
    · exact hbc
    · rcases Json.sameScalar_iff.mp hbc with ⟨rfl, -, -⟩ | hbc
      · exact Json.sameScalar_iff.mpr (.inr hab)
      · exact Json.sameScalar_iff.mpr (.inr (hab.trans hbc))
  | nil => exact same_nil_iff.mp h ▸ h'
  | cons x xs ihx ihxs =>
    obtain ⟨y, ys, rfl, hx, hxs⟩ := same_cons_iff.mp h
    obtain ⟨z, zs, rfl, hy, hys⟩ := same_cons_iff.mp h'
    exact same_cons_iff.mpr ⟨z, zs, rfl, ihx hx hy, ihxs hxs hys⟩
  | diagnostic d => exact same_diagnostic_iff.mp h ▸ h'
  | outcome v ds ih =>
    obtain ⟨w, rfl, hv⟩ := same_outcome_iff.mp h
    obtain ⟨u, rfl, hw⟩ := same_outcome_iff.mp h'
    exact same_outcome_iff.mpr ⟨u, rfl, ih hv hw⟩
  | pair x xs ihx ihxs =>
    obtain ⟨y, ys, rfl, hx, hxs⟩ := same_pair_iff.mp h
    obtain ⟨z, zs, rfl, hy, hys⟩ := same_pair_iff.mp h'
    exact same_pair_iff.mpr ⟨z, zs, rfl, ihx hx hy, ihxs hxs hys⟩
  | table entries ih =>
    obtain ⟨ys, rfl, hleft, hright⟩ := same_table_iff.mp h
    obtain ⟨zs, rfl, hleft', hright'⟩ := same_table_iff.mp h'
    refine same_table_iff.mpr ⟨zs, rfl, fun a ha => ?_, fun c hc => ?_⟩
    · obtain ⟨b, hb, hab⟩ := hleft a ha
      obtain ⟨c, hc, hbc⟩ := hleft' b hb
      exact ⟨c, hc, ih a ha hab hbc⟩
    · obtain ⟨b, hb, hbc⟩ := hright' c hc
      obtain ⟨a, ha, hab⟩ := hright b hb
      exact ⟨a, ha, ih a ha hab hbc⟩

instance : EquivBEq Datum where
  rfl := same_self _
  symm := same_symm
  trans := same_trans

/-- Whether a datum can be a key does not depend on how it is spelled. -/
theorem unkeyable?_isSome_of_same (h : same x y = true) :
    x.unkeyable?.isSome = y.unkeyable?.isSome := by
  induction x using entriesInduction generalizing y with
  | scalar x a hx =>
    obtain ⟨b, hy, -⟩ := (same_scalar_iff hx).mp h
    cases x <;> cases hx <;> cases y <;> cases hy <;> rfl
  | nil => rw [same_nil_iff.mp h]
  | cons x xs ihx ihxs =>
    obtain ⟨x', xs', rfl, hx, hxs⟩ := same_cons_iff.mp h
    simp only [unkeyable?, Option.isSome_or, ihx hx, ihxs hxs]
  | diagnostic d => rw [same_diagnostic_iff.mp h]
  | outcome v ds ih =>
    obtain ⟨w, rfl, hv⟩ := same_outcome_iff.mp h
    simp only [unkeyable?, ih hv]
  | pair x y ihx ihy =>
    obtain ⟨x', y', rfl, hx, hy⟩ := same_pair_iff.mp h
    simp only [unkeyable?, Option.isSome_or, ihx hx, ihy hy]
  | table entries =>
    obtain ⟨entries', rfl, -⟩ := same_table_iff.mp h
    rfl

theorem same_text_iff {s : String} : same (text s) y = true ↔ y = text s := by
  constructor
  · intro h
    cases y with
    | text t =>
      have hst : (s == t) = true := h
      rw [eq_of_beq hst]
    | _ => cases h
  · rintro rfl
    exact beq_self_eq_true s

end Datum

namespace Open
variable {k l : Key}

theorem checkKey_ok_iff : checkKey k = .ok () ↔ k.unkeyable?.isSome = false := by
  unfold checkKey Datum.checkKey
  cases k.unkeyable? <;> simp [Except.mapError]

/-- Keys that count as the same have first parts that do. -/
theorem headOf_ok_of_beq (h : k == l) {head : Datum} (hk : headOf k = .ok head) :
    ∃ head', headOf l = .ok head' ∧ head == head' := by
  cases k with
  | cons x xs =>
    obtain ⟨y, ys, rfl, hxy, -⟩ := Datum.same_cons_iff.mp h
    cases hk
    exact ⟨y, rfl, hxy⟩
  | text s =>
    rw [Datum.same_text_iff.mp h]
    exact ⟨head, hk, BEq.rfl⟩
  | _ => cases hk

theorem program?_of_beq (g : OpenGraph) {head head' : Datum} (h : head == head') :
    g.program? head = g.program? head' := by
  by_cases htext : ∃ name, head = .text name
  · obtain ⟨name, rfl⟩ := htext
    rw [Datum.same_text_iff.mp h]
  · have htext' : ¬ ∃ name, head' = .text name := by
      rintro ⟨name, rfl⟩
      exact htext ⟨name, Datum.same_text_iff.mp (BEq.symm h)⟩
    have hnone {d : Datum} (hd : ¬ ∃ name, d = .text name) : g.program? d = none := by
      cases d with
      | text name => exact absurd ⟨name, rfl⟩ hd
      | _ => rfl
    rw [hnone htext, hnone htext']

/-- Keys that count as the same and are not refused are found under one program, or none. -/
theorem exists_program_of_beq (g : OpenGraph) (h : k == l) (hk : ∀ e, g.rules k ≠ .refused e) :
    ∃ found : Option (List Datum → Query Datum), ∀ x : Key, x = k ∨ x = l →
      g.rules x = found.elim (.input .null) fun program => .query (program (argumentsOf x)) := by
  cases hhead : headOf k with
  | error e => exact absurd (by simp only [OpenGraph.rules, hhead]) (hk e)
  | ok head =>
    cases hcheck : checkKey k with
    | error e => exact absurd (by simp only [OpenGraph.rules, hhead, hcheck]) (hk e)
    | ok _ =>
      obtain ⟨head', hhead', hsame⟩ := headOf_ok_of_beq h hhead
      have hcheck' : checkKey l = .ok () := by
        rw [checkKey_ok_iff, ← Datum.unkeyable?_isSome_of_same h]
        exact checkKey_ok_iff.mp hcheck
      refine ⟨g.program? head, ?_⟩
      rintro x (rfl | rfl)
      · simp only [OpenGraph.rules, hhead, hcheck]
        cases g.program? head <;> rfl
      · simp only [OpenGraph.rules, hhead', hcheck', ← program?_of_beq g hsame]
        cases g.program? head <;> rfl

instance (g : OpenGraph) : OneSort g.rules where
  input {k l absent} h hk := by
    obtain ⟨found, hfound⟩ := exists_program_of_beq g h (by simp [hk])
    cases found with
    | some program =>
      rw [hfound k (.inl rfl)] at hk
      cases hk
    | none => exact ⟨.null, hfound l (.inr rfl)⟩
  query {k l p} h hk := by
    obtain ⟨found, hfound⟩ := exists_program_of_beq g h (by simp [hk])
    cases found with
    | some program => exact ⟨program (argumentsOf l), hfound l (.inr rfl)⟩
    | none =>
      rw [hfound k (.inl rfl)] at hk
      cases hk

end Open
end SceneCodegen.Graph
