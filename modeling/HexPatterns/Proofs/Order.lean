import Mathlib
import HexPatterns.Proofs.Estimate
import HexPatterns.Proofs.FloatLaws

/-!
# The order of numbers

A search keeps the nearest state that it has come to, and for that it only compares numbers. What it
needs of the comparison is said here (`Scalar.Ordered`) and holds of the rational numbers and of
doubles alike. A double that is a number has a place in a linear order, and doubles are compared by
their places; what is not a number has none, and is neither below nor equal to anything.
-/

namespace HexPatterns.Scalar

/-- Being below is a strict order, equal numbers are below the same ones, and the distance of a
number from zero is its magnitude. -/
class Ordered (α : Type) [Scalar α] : Prop where
  lt_irrefl (x : α) : lt x x = false
  lt_trans {x y z : α} : lt x y = true → lt y z = true → lt x z = true
  lt_of_eq_of_lt {x y z : α} : eq x y = true → lt y z = true → lt x z = true
  distance_zero (x : α) : distance zero x = abs x

instance : Ordered Rat where
  lt_irrefl x := by simp [lt]
  lt_trans hxy hyz := by
    rw [lt_rat] at hxy hyz ⊢
    exact hxy.trans hyz
  lt_of_eq_of_lt hxy hyz := by
    rw [lt_rat] at hyz ⊢
    exact (beq_iff_eq.1 hxy).trans_lt hyz
  distance_zero x := by
    have hzero : (zero : Rat) = 0 := rfl
    rw [distance_rat, abs_rat, hzero, zero_sub, abs_neg]

section Places

open Float.Model (UnpackedFloat)

/-- Where a double stands: by its sign, then by its exponent, then by its mantissa. What is not a
number stands nowhere. -/
def place : UnpackedFloat → Option (ℤ ×ₗ ℤ ×ₗ ℤ)
  | .notANumber => none
  | .infinity .negative => some (toLex (-2, toLex (0, 0)))
  | .finite .negative m e _ => some (toLex (-1, toLex (-e, -m)))
  | .zero _ => some (toLex (0, toLex (0, 0)))
  | .finite .positive m e _ => some (toLex (1, toLex (e, m)))
  | .infinity .positive => some (toLex (2, toLex (0, 0)))

theorem lt_iff_place {x y : UnpackedFloat} :
    x.lt y = true ↔ ∃ a b, place x = some a ∧ place y = some b ∧ a < b := by
  have hsigns : compare UnpackedFloat.Sign.negative .positive = .lt := rfl
  rcases x with (_ | _) | _ | s | ⟨_ | _, m, e, hm⟩ <;>
    rcases y with (_ | _) | _ | s' | ⟨_ | _, m', e', hm'⟩ <;>
    simp [UnpackedFloat.lt, UnpackedFloat.compare, place, Prod.Lex.toLex_lt_toLex, hsigns,
      Ordering.then_eq_lt, Ordering.then_eq_gt, compare_lt_iff_lt, compare_gt_iff_gt]

theorem beq_iff_place {x y : UnpackedFloat} :
    x.beq y = true ↔ place x = place y ∧ place x ≠ none := by
  have hsigns : ∀ s : UnpackedFloat.Sign, compare s s = .eq := by
    intro s
    cases s <;> rfl
  rcases x with (_ | _) | _ | s | ⟨_ | _, m, e, hm⟩ <;>
    rcases y with (_ | _) | _ | s' | ⟨_ | _, m', e', hm'⟩ <;>
    simp [UnpackedFloat.beq, UnpackedFloat.compare, place, hsigns, Ordering.then_eq_eq]

theorem lt_float {x y : Float} :
    lt x y = true ↔ x.toModel.unpack.lt y.toModel.unpack = true := by
  change decide (x.lt y = true) = true ↔ _
  rw [decide_eq_true_iff, Float.lt, decide_eq_true_iff]
  rfl

theorem eq_float {x y : Float} :
    eq x y = true ↔ x.toModel.unpack.beq y.toModel.unpack = true :=
  Iff.rfl

instance : Ordered Float where
  lt_irrefl x := by
    rw [Bool.eq_false_iff, ne_eq, lt_float, lt_iff_place]
    rintro ⟨a, b, ha, hb, hlt⟩
    cases ha.symm.trans hb
    exact lt_irrefl a hlt
  lt_trans hxy hyz := by
    rw [lt_float, lt_iff_place] at hxy hyz ⊢
    obtain ⟨a, b, ha, hb, hab⟩ := hxy
    obtain ⟨b', d, hb', hd, hbd⟩ := hyz
    cases hb.symm.trans hb'
    exact ⟨a, d, ha, hd, hab.trans hbd⟩
  lt_of_eq_of_lt hxy hyz := by
    rw [eq_float, beq_iff_place] at hxy
    rw [lt_float, lt_iff_place] at hyz ⊢
    rw [hxy.1]
    exact hyz
  distance_zero := distance_zero

end Places

end HexPatterns.Scalar
