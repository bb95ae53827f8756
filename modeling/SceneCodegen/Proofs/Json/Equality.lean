import Mathlib.Algebra.Order.Ring.Int
import SceneCodegen.Json.Basic

/-!
# Equality of JSON values

Values that count as the same are equally true. Among nulls, truth values and texts, no two count as
the same.
-/
namespace SceneCodegen

namespace Number.Binary
variable {x : Binary} {a : Int} {b : Nat}

theorem ratio?_pos (h : x.ratio? = some (a, b)) : 0 < b := by
  cases x with
  | finite negative m q =>
    cases h
    exact Nat.pow_pos (by decide)
  | _ => cases h

theorem isZero_of_ratio? (h : x.ratio? = some (a, b)) : x.isZero = (a == 0) := by
  cases x with
  | finite negative m q =>
    cases h
    rw [Bool.eq_iff_iff]
    cases negative <;> simp [isZero]
  | _ => cases h

end Number.Binary

namespace Json
variable {x y z : Json}

theorem ratio?_pos {a : Int} {b : Nat} (h : x.ratio? = some (a, b)) : 0 < b := by
  cases x with
  | bool _ | int _ =>
    cases h
    exact Nat.one_pos
  | float x => exact Number.Binary.ratio?_pos h
  | _ => cases h

theorem isTruthy_of_ratio? {a : Int} {b : Nat} (h : x.ratio? = some (a, b)) :
    x.isTruthy = (a != 0) := by
  cases x with
  | bool b =>
    cases h
    cases b <;> rfl
  | int m =>
    cases h
    rfl
  | float x => simp [isTruthy, Number.Binary.isZero_of_ratio? h, bne]
  | _ => cases h

/-- Values that are neither lists nor objects. -/
def IsScalar : Json → Prop
  | .list _ | .object _ => False
  | _ => True

/-- Finite numbers and truth values of one quotient. -/
def SameRatio (x y : Json) : Prop :=
  ∃ a b c d, x.ratio? = some (a, b) ∧ y.ratio? = some (c, d) ∧ a * d = c * b

theorem SameRatio.symm (h : SameRatio x y) : SameRatio y x := by
  obtain ⟨a, b, c, d, hx, hy, he⟩ := h
  exact ⟨c, d, a, b, hy, hx, he.symm⟩

theorem SameRatio.trans (h : SameRatio x y) (h' : SameRatio y z) : SameRatio x z := by
  obtain ⟨a, b, c, d, hx, hy, he⟩ := h
  obtain ⟨c', d', e, f, hy', hz, he'⟩ := h'
  rw [hy] at hy'
  cases hy'
  refine ⟨a, b, e, f, hx, hz, ?_⟩
  have hd : (d : Int) ≠ 0 := by exact_mod_cast Nat.ne_of_gt (ratio?_pos hy)
  refine Int.eq_of_mul_eq_mul_right hd ?_
  calc a * f * d = a * d * f := by ac_rfl
    _ = c * b * f := by rw [he]
    _ = c * f * b := by ac_rfl
    _ = e * d * b := by rw [he']
    _ = e * b * d := by ac_rfl

theorem sameRatio_iff {a c : Int} {b d : Nat} (hx : x.ratio? = some (a, b))
    (hy : y.ratio? = some (c, d)) : SameRatio x y ↔ a * d = c * b := by
  constructor
  · rintro ⟨a', b', c', d', hx', hy', he⟩
    rw [hx] at hx'
    rw [hy] at hy'
    cases hx'
    cases hy'
    exact he
  · exact fun he => ⟨a, b, c, d, hx, hy, he⟩

theorem not_sameRatio (h : x.ratio? = none ∨ y.ratio? = none) : ¬ SameRatio x y := by
  rintro ⟨a, b, c, d, hx, hy, -⟩
  rcases h with h | h
  · rw [h] at hx
    cases hx
  · rw [h] at hy
    cases hy

theorem sameScalar_of_ratios {a c : Int} {b d : Nat} (hx : x.ratio? = some (a, b))
    (hy : y.ratio? = some (c, d)) : sameScalar x y = (a * d == c * b) := by
  unfold sameScalar
  cases x with
  | bool _ | int _ =>
    cases y with
    | bool _ | int _ | float _ => simp only [hx, hy]
    | _ => cases hy
  | float x =>
    cases y with
    | bool _ | int _ => simp only [hx, hy]
    | float y =>
      have hx : x.ratio? = some (a, b) := hx
      have hy : y.ratio? = some (c, d) := hy
      simp only [Number.Binary.sameValue, hx, hy]
    | _ => cases hy
  | _ => cases hx

theorem sameScalar_iff_of_left_none (hx : x.ratio? = none) :
    sameScalar x y = true ↔ x = y ∧ x.IsScalar := by
  cases x with
  | null =>
    cases y with
    | null => exact iff_of_true rfl ⟨rfl, trivial⟩
    | _ => exact iff_of_false Bool.false_ne_true fun h => by cases h.1
  | bool _ | int _ => cases hx
  | float x =>
    have hx : x.ratio? = none := hx
    cases y with
    | float y => simp [sameScalar, Number.Binary.sameValue, IsScalar, hx]
    | _ => simp [sameScalar, IsScalar, ratio?, hx]
  | text s =>
    cases y with
    | text t => simp [sameScalar, IsScalar]
    | _ => exact iff_of_false Bool.false_ne_true fun h => by cases h.1
  | list _ | object _ => exact iff_of_false Bool.false_ne_true fun h => h.2

theorem sameScalar_of_right_none {a : Int} {b : Nat} (hx : x.ratio? = some (a, b))
    (hy : y.ratio? = none) : sameScalar x y = false := by
  unfold sameScalar
  cases x with
  | bool _ | int _ =>
    cases y with
    | bool _ | int _ => cases hy
    | _ => simp only [hx, hy]
  | float x =>
    cases y with
    | bool _ | int _ => cases hy
    | float y =>
      have hx : x.ratio? = some (a, b) := hx
      have hy : y.ratio? = none := hy
      have hne : x ≠ y := by
        rintro rfl
        rw [hx] at hy
        cases hy
      simp [Number.Binary.sameValue, hx, hy, hne]
    | _ => simp only [hx, hy]
  | _ => cases hx

/-- Scalars count as the same as numbers of one quotient, or if they are equal and not
such numbers. -/
theorem sameScalar_iff :
    sameScalar x y = true ↔ (x = y ∧ x.ratio? = none ∧ x.IsScalar) ∨ SameRatio x y := by
  cases hx : x.ratio? with
  | none =>
    simp [sameScalar_iff_of_left_none hx, not_sameRatio (y := y) (.inl hx)]
  | some q =>
    cases hy : y.ratio? with
    | none => simp [sameScalar_of_right_none hx hy, not_sameRatio (x := x) (.inr hy)]
    | some r => simp [sameScalar_of_ratios hx hy, sameRatio_iff hx hy]

theorem isTruthy_of_sameScalar (h : sameScalar x y = true) : x.isTruthy = y.isTruthy := by
  rcases sameScalar_iff.mp h with ⟨rfl, -, -⟩ | ⟨a, b, c, d, hx, hy, he⟩
  · rfl
  · have hb : (b : Int) ≠ 0 := by exact_mod_cast Nat.ne_of_gt (ratio?_pos hx)
    have hd : (d : Int) ≠ 0 := by exact_mod_cast Nat.ne_of_gt (ratio?_pos hy)
    have hzero : a = 0 ↔ c = 0 := by
      rw [← mul_eq_zero_iff_right hd, he, mul_eq_zero_iff_right hb]
    rw [isTruthy_of_ratio? hx, isTruthy_of_ratio? hy, Bool.eq_iff_iff]
    simp [hzero]

theorem isTruthy_of_same (h : x == y) : x.isTruthy = y.isTruthy := by
  replace h : same x y = true := h
  cases x with
  | list xs =>
    cases y with
    | list ys => cases xs <;> cases ys <;> first | rfl | cases h
    | _ => cases h
  | object xs =>
    cases y with
    | object ys =>
      have hl : (xs.length == ys.length) = true := ((Bool.and_eq_true _ _).mp h).1
      cases xs <;> cases ys <;> first | rfl | cases hl
    | _ => cases h
  | _ => exact isTruthy_of_sameScalar (by cases y <;> exact h)

theorem eq_null_iff_of_same (h : x == y) : x = .null ↔ y = .null := by
  have h : same x y = true := h
  constructor
  · rintro rfl
    cases y with
    | null => rfl
    | _ => cases h
  · rintro rfl
    cases x with
    | null => rfl
    | bool _ | int _ | text _ | list _ | object _ => cases h
    | float x =>
      rcases sameScalar_iff.mp (show sameScalar (.float x) .null = true from h) with ⟨hx, -⟩ | hx
      · exact hx
      · exact absurd hx (not_sameRatio (.inr rfl))

/-- Nulls, truth values and texts. -/
def IsPlain : Json → Prop
  | .null | .bool _ | .text _ => True
  | _ => False

theorem eq_of_same (hx : x.IsPlain) (hy : y.IsPlain) (h : x == y) : x = y := by
  have h : same x y = true := h
  cases x with
  | null =>
    cases y with
    | null => rfl
    | bool _ | text _ => cases h
    | _ => exact hy.elim
  | text s =>
    cases y with
    | text t => rw [eq_of_beq (show (s == t) = true from h)]
    | null | bool _ => cases h
    | _ => exact hy.elim
  | bool b =>
    cases y with
    | bool b' => cases b <;> cases b' <;> first | rfl | cases h
    | null | text _ => cases h
    | _ => exact hy.elim
  | _ => exact hx.elim

end Json
end SceneCodegen
