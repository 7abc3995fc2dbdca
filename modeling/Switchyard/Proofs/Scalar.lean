import Mathlib.Tactic.Common
import Switchyard.Scalar

/-!
# Scalars that pass for each other

Change detection compares numbers as binary64 numbers. Such a comparison takes the two zeros for one
number and a NaN for none, so it is no equality, and not even reflexive. What publishers rely on is
that it is transitive: along a chain of writes none of which counts as a change, the last value
passes for the first one (`Scalar.Same.alike`).

* `Scalar.alike_iff`: two scalars are alike as numbers, or they are one scalar and no number.
* `Scalar.Same`: identical, or alike.
-/

namespace Switchyard

namespace Binary64

open Float.Model (UnpackedFloat)

/-- Two numbers compare as equal if they are one number, or both are zeros. -/
theorem eq_or_zeros_of_compare {x y : UnpackedFloat} (h : x.compare y = some .eq) :
    x = y ∨ ∃ s t, x = .zero s ∧ y = .zero t := by
  cases x with
  | notANumber => cases h
  | infinity s =>
    cases y with
    | infinity t => cases s <;> cases t <;> first | exact Or.inl rfl | cases h
    | notANumber | zero t | finite t m e hm => cases s <;> cases h
  | zero s =>
    cases y with
    | zero t => exact Or.inr ⟨s, t, rfl, rfl⟩
    | notANumber => cases h
    | infinity t | finite t m e hm => cases t <;> cases h
  | finite s m e hm =>
    cases y with
    | finite t m' e' hm' =>
      -- of one sign: exponents and mantissas are compared, for negative numbers the other way
      have hsame (hc : (compare e e').then (compare m m') = .eq) : e = e' ∧ m = m' := by
        obtain ⟨he, hm⟩ := Ordering.then_eq_eq.1 hc
        exact ⟨Std.LawfulEqOrd.eq_of_compare he, Nat.compare_eq_eq.1 hm⟩
      left
      cases s <;> cases t
      · obtain ⟨rfl, rfl⟩ := hsame (Ordering.swap_eq_eq.1 (Option.some.inj h))
        rfl
      · cases h
      · cases h
      · obtain ⟨rfl, rfl⟩ := hsame (Option.some.inj h)
        rfl
    | notANumber | zero t => cases s <;> cases h
    | infinity t => cases s <;> cases t <;> cases h

theorem beq_iff {x y : Float} : (x == y) = true ↔ x.toModel.unpack.compare y.toModel.unpack = some .eq := by
  show (x.toModel.unpack.compare y.toModel.unpack == some .eq) = true ↔ _
  exact beq_iff_eq

/-- **The comparison of binary64 numbers is transitive.** -/
theorem beq_trans {x y z : Float} (h : (x == y) = true) (h' : (y == z) = true) : (x == z) = true := by
  rw [beq_iff] at h h' ⊢
  rcases eq_or_zeros_of_compare h with hxy | ⟨s, t, hx, hy⟩
  · rw [hxy]; exact h'
  rcases eq_or_zeros_of_compare h' with hyz | ⟨t', u, -, hz⟩
  · rw [← hyz]; exact h
  · rw [hx, hz]; rfl

end Binary64

namespace Scalar

variable {a b c : Scalar}

/-- Two scalars are alike if they compare as numbers, or are no numbers and one scalar. -/
theorem alike_iff :
    a.alike b = true ↔
      (∃ x y, a.toFloat? = some x ∧ b.toFloat? = some y ∧ (x == y) = true) ∨ (a.toFloat? = none ∧ a = b) := by
  cases a <;> cases b <;> simp [alike, toFloat?]

theorem alike_trans (h : a.alike b = true) (h' : b.alike c = true) : a.alike c = true := by
  rw [alike_iff] at h h' ⊢
  rcases h with ⟨x, y, hx, hy, hxy⟩ | ⟨hnone, rfl⟩
  · rcases h' with ⟨y', z, hy', hz, hyz⟩ | ⟨hnone, -⟩
    · obtain rfl : y = y' := Option.some.inj (hy.symm.trans hy')
      exact Or.inl ⟨x, z, hx, hz, Binary64.beq_trans hxy hyz⟩
    · rw [hy] at hnone; cases hnone
  · exact h'

/-- **One value passes for another**: it is the same, or change detection sees no difference. -/
def Same (a b : Scalar) : Prop := a = b ∨ a.alike b = true

theorem Same.refl (a : Scalar) : a.Same a := Or.inl rfl

theorem Same.trans (h : a.Same b) (h' : b.Same c) : a.Same c := by
  rcases h with rfl | h
  · exact h'
  rcases h' with rfl | h'
  · exact Or.inr h
  · exact Or.inr (alike_trans h h')

end Scalar
end Switchyard
