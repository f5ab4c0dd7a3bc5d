import Mathlib
import HexPatterns.Proofs.Approach
import HexPatterns.Proofs.Doubles
import HexPatterns.Proofs.Order

/-!
# Approaching a target in doubles

Doubles have ends where rational numbers go on. A positive double that is doubled again and again
comes to infinity, after at most 2098 times, and a finite one that is halved again and again comes
to zero, after at most 2099: each halving leaves at most half of the least units, rounded up, and
the last one is rounded down. At infinity no doubling is due any more, and at zero no halving. So an
approach that starts from a finite magnitude ends, whatever its target is, zero and infinity
included.

It is the other end that is missed: half of infinity is infinity. An approach from infinity to a
target whose double is finite goes on for ever (`isFarAbove_iterate_halve`).
-/

namespace HexPatterns

open Float.Model (UnpackedFloat Format totalExponent)
open Float.Model.UnpackedFloat
open Scalar

section Shape

variable {x : Float} {s : Sign} {m : ℕ} {e : ℤ} {hm : 0 < m}

/-- The digits of a double fill the places, or they stand on the least scale. -/
theorem shape_of_unpack (h : x.toModel.unpack = .finite s m e hm) :
    -1074 ≤ e ∧ e ≤ 971 ∧ (m.log2 = 52 ∨ m.log2 < 52 ∧ e = -1074) := by
  have htarget := targetExponent_unpack h
  rw [targetExponent_eq, totalExponent] at htarget
  have hscale : e ≤ 971 := by
    obtain ⟨_, hu | hu⟩ | ⟨_, _, hu⟩ | ⟨hfin, _, hu⟩ := Binary64.unpack_cases x <;> rw [hu] at h
    · cases h
    · cases h
    · cases h
    · obtain ⟨-, -, rfl⟩ := finite.inj h
      rw [Binary64.isFinite, decide_eq_true_iff] at hfin
      rw [Binary64.scale]
      split <;> omega
  omega

theorem unpack_pack_of_shape (s : Sign) (hm : 0 < m) (hlo : -1074 ≤ e) (hhi : e ≤ 971)
    (h : m.log2 = 52 ∨ m.log2 < 52 ∧ e = -1074) :
    unpack .binary64 (pack .binary64 (.finite s m e hm)) = .finite s m e hm := by
  rcases h with hlog | ⟨hlog, rfl⟩
  · exact unpack_pack_normal s hm hlog hlo hhi
  · exact unpack_pack_subnormal s hm ((Nat.log2_lt hm.ne').1 hlog)

theorem standsFor_pack (hm : 0 < m) (hlo : -1074 ≤ e) (hhi : e ≤ 971)
    (h : m.log2 = 52 ∨ m.log2 < 52 ∧ e = -1074) :
    StandsFor (Float.ofModel (.pack (.finite .positive m e hm))) (m * 2 ^ e) := by
  rw [standsFor_iff]
  change number? (unpack .binary64 (pack .binary64 (.finite .positive m e hm))) = _
  rw [unpack_pack_of_shape .positive hm hlo hhi h]
  rfl

/-- What stands for a positive number has digits, and no other sign. -/
theorem StandsFor.exists_unpack {q : ℚ} (h : StandsFor x q) (hq : 0 < q) :
    ∃ m e hm, x.toModel.unpack = .finite .positive m e hm ∧ q = m * 2 ^ e := by
  obtain ⟨_, -, hzero⟩ | ⟨s, m, e, hm, hu, hq'⟩ := h.cases
  · exact absurd hzero hq.ne'
  · cases s with
    | positive => exact ⟨m, e, hm, hu, hq'⟩
    | negative =>
      have hpos : (0 : ℚ) < m * 2 ^ e := by positivity
      simp only [Sign.apply, Int.cast_neg, Int.cast_natCast, neg_mul] at hq'
      linarith

end Shape

section Doubling

variable {x : Float} {q : ℚ}

theorem pack_of_large {m : ℕ} {e : ℤ} (hm : 0 < m) (he : 971 < e) :
    pack .binary64 (.finite .positive m e hm) = packedInfinity .binary64 .positive := by
  have hroom : 2 ^ 11 ≤ (e + 1023 + 52).toNat + 1 := by omega
  simp only [pack]
  exact if_pos hroom

/-- Twice a positive double is exact or infinite. -/
theorem StandsFor.double_cases (hx : StandsFor x q) (hq : 0 < q) :
    StandsFor (double x) (q * 2) ∨ (double x).toModel.unpack = .infinity .positive := by
  obtain ⟨m, e, hm, hu, rfl⟩ := hx.exists_unpack hq
  obtain ⟨hlo, hhi, hshape⟩ := shape_of_unpack hu
  have htwice : (m * 2 ^ e * 2 : ℚ) = m * 2 ^ e + m * 2 ^ e := mul_two _
  have hscale : (m * 2 ^ e * 2 : ℚ) = m * 2 ^ (e + 1) := by
    rw [zpow_add_one₀ two_ne_zero, mul_assoc]
  have hdigits : ((2 * m : ℕ) : ℚ) * 2 ^ e = m * 2 ^ e * 2 := by
    push_cast
    ring
  by_cases hroom : m.log2 < 52 ∨ e < 971
  · left
    have hrepresentable : Representable (m * 2 ^ e * 2) := by
      rcases hshape with hlog | ⟨hlog, rfl⟩
      · rw [hscale]
        exact ⟨_, standsFor_pack hm (by omega) (by omega) (.inl hlog)⟩
      · rw [← hdigits]
        have hlog₂ : (2 * m).log2 = m.log2 + 1 := Nat.log2_two_mul hm.ne'
        exact ⟨_, standsFor_pack (by omega) le_rfl (by omega) (by omega)⟩
    rw [htwice] at hrepresentable ⊢
    exact hx.add hx hrepresentable
  · right
    have hlog : m.log2 = 52 := by omega
    have htarget : Format.binary64.targetExponent (totalExponent m (e + 1)) = e + 1 := by
      rw [targetExponent_eq, totalExponent]
      omega
    have hsum : UnpackedFloat.add .binary64 x.toModel.unpack x.toModel.unpack
        = .finite .positive m (e + 1) hm := by
      rw [hu, ← round_eq_finite .positive hm htarget (hdigits.trans hscale),
        ← normalize_apply .positive (by omega) e]
      simp [UnpackedFloat.add, decreaseExponent, Sign.apply, two_mul]
    change unpack .binary64 (pack .binary64 (UnpackedFloat.add .binary64 x.toModel.unpack
      x.toModel.unpack)) = _
    rw [hsum, pack_of_large hm (by omega), unpack_packedInfinity]

theorem unpack_double_infinity (h : x.toModel.unpack = .infinity .positive) :
    (double x).toModel.unpack = .infinity .positive := by
  change unpack .binary64 (pack .binary64 (UnpackedFloat.add .binary64 x.toModel.unpack
    x.toModel.unpack)) = _
  rw [h]
  rfl

theorem unpack_double_notANumber (h : x.toModel.unpack = .notANumber) :
    (double x).toModel.unpack = .notANumber := by
  change unpack .binary64 (pack .binary64 (UnpackedFloat.add .binary64 x.toModel.unpack
    x.toModel.unpack)) = _
  rw [h]
  exact unpack_packedNaN

theorem StandsFor.iterate_double (hx : StandsFor x q) (hq : 0 < q) : ∀ j,
    StandsFor (double^[j] x) (q * 2 ^ j) ∨ (double^[j] x).toModel.unpack = .infinity .positive
  | 0 => .inl (by simpa using hx)
  | j + 1 => by
    rw [Function.iterate_succ_apply', pow_succ, ← mul_assoc]
    rcases hx.iterate_double hq j with h | h
    · exact h.double_cases (by positivity)
    · exact .inr (unpack_double_infinity h)

/-- A positive double is at least the least one, and below the power of two behind the largest. -/
theorem StandsFor.bounds (hx : StandsFor x q) (hq : 0 < q) :
    2 ^ (-1074 : ℤ) ≤ q ∧ q < 2 ^ (1024 : ℤ) := by
  obtain ⟨m, e, hm, hu, rfl⟩ := hx.exists_unpack hq
  obtain ⟨hlo, hhi, hshape⟩ := shape_of_unpack hu
  have hone : (1 : ℚ) ≤ m := by exact_mod_cast hm
  have hlt : (m : ℚ) < 2 ^ (53 : ℤ) := by
    exact_mod_cast (Nat.log2_lt hm.ne').1 (show m.log2 < 53 by omega)
  constructor
  · calc (2 : ℚ) ^ (-1074 : ℤ) ≤ 2 ^ e := zpow_le_zpow_right₀ one_le_two hlo
      _ ≤ m * 2 ^ e := le_mul_of_one_le_left (by positivity) hone
  · calc (m : ℚ) * 2 ^ e < 2 ^ (53 : ℤ) * 2 ^ e := by gcongr
      _ ≤ 2 ^ (53 : ℤ) * 2 ^ (971 : ℤ) := by gcongr; exact one_le_two
      _ = 2 ^ (1024 : ℤ) := by rw [← zpow_add₀ two_ne_zero]; norm_num

theorem StandsFor.exists_iterate_double (hx : StandsFor x q) (hq : 0 < q) :
    ∃ j ≤ 2098, (double^[j] x).toModel.unpack = .infinity .positive := by
  refine ⟨2098, le_rfl, ?_⟩
  rcases hx.iterate_double hq 2098 with h | h
  · have hlt := (h.bounds (by positivity)).2
    have hle : (2 : ℚ) ^ (1024 : ℤ) ≤ q * 2 ^ 2098 := by
      calc (2 : ℚ) ^ (1024 : ℤ) = 2 ^ (-1074 : ℤ) * 2 ^ (2098 : ℤ) := by
            rw [← zpow_add₀ two_ne_zero]; norm_num
        _ ≤ q * 2 ^ (2098 : ℤ) := by gcongr; exact (hx.bounds hq).1
        _ = q * 2 ^ 2098 := by norm_cast
    exact absurd hlt (not_lt.2 hle)
  · exact h

end Doubling

section Halving

variable {x : Float} {q : ℚ}

theorem shiftToTargetExponent_least {m : ℕ} (h : m.log2 < 53) (acc : Accuracy) :
    shiftToTargetExponent .binary64 m (-1074) acc
      = (ExtendedMantissa.ofMantissaAndAccuracy m acc, -1074) := by
  have htarget : Format.binary64.targetExponent (totalExponent m (-1074)) = -1074 := by
    rw [targetExponent_eq, totalExponent]
    omega
  rw [shiftToTargetExponent, htarget]
  rfl

/-- Half of an odd number of least units lies in the middle between two of them. -/
theorem divCore_two_odd {k : ℕ} (h : (2 * k + 1).log2 < 53) :
    divCore .binary64 (2 * k + 1) (-1074) (2 ^ 52) (-51) = (k, -1074, .inexact .eq) := by
  have htwo : totalExponent (2 ^ 52) (-51) = 2 := by
    rw [totalExponent, Nat.log2_two_pow]
    rfl
  have hscale : min (-1074 - -51) (Format.binary64.targetExponent
      (totalExponent (2 * k + 1) (-1074) - totalExponent (2 ^ 52) (-51))) = -1074 := by
    rw [htwo, targetExponent_eq, totalExponent]
    omega
  have hshift : ((-1074 : ℤ) - -51 - -1074).toNat = 51 := rfl
  have hdiv : (2 * k + 1) * 2 ^ 51 / 2 ^ 52 = k := by omega
  have hmod : (2 * k + 1) * 2 ^ 51 % 2 ^ 52 = 2 ^ 51 := by omega
  rw [divCore, hscale]
  simp only [hshift, Nat.shiftLeft_eq, hdiv, hmod]
  rfl

/-- In the middle, the even neighbour is taken. -/
theorem roundWithAccuracy_middle {k : ℕ} (h : k < 2 ^ 52) :
    roundWithAccuracy .binary64 .positive k (-1074) (.inexact .eq)
      = if hr : k + k % 2 = 0 then .zero .positive
        else .finite .positive (k + k % 2) (-1074) (Nat.pos_of_ne_zero hr) := by
  have hlog : ∀ n ≤ 2 ^ 52, n.log2 < 53 := by
    intro n hn
    rcases Nat.eq_zero_or_pos n with rfl | hpos
    · decide
    · exact (Nat.log2_lt hpos.ne').2 (by omega)
  have hround : (ExtendedMantissa.ofMantissaAndAccuracy k (.inexact .eq)).roundedMantissa
      = k + k % 2 := rfl
  simp only [roundWithAccuracy, shiftToTargetExponent_least (hlog k h.le), hround,
    shiftToTargetExponent_least (hlog (k + k % 2) (by omega))]
  rfl

/-- A positive number of least units as the digits of its double. -/
theorem StandsFor.exists_unpack_units {n : ℕ} (hx : StandsFor x (n * 2 ^ (-1074 : ℤ)))
    (hn : 0 < n) : ∃ (m d : ℕ) (hm : 0 < m), x.toModel.unpack = .finite .positive m (d - 1074) hm
      ∧ n = m * 2 ^ d ∧ d ≤ 2045 ∧ (m.log2 = 52 ∨ m.log2 < 52 ∧ d = 0) := by
  obtain ⟨m, e, hm, hu, hq⟩ := hx.exists_unpack (by positivity)
  obtain ⟨hlo, hhi, hshape⟩ := shape_of_unpack hu
  obtain ⟨d, hd⟩ := Int.eq_ofNat_of_zero_le (show 0 ≤ e - -1074 by omega)
  obtain rfl : e = d - 1074 := by omega
  have hdigits := eq_mul_two_pow hq hlo
  rw [hd, Int.toNat_natCast] at hdigits
  exact ⟨m, d, hm, hu, hdigits, by omega, by omega⟩

theorem StandsFor.halve_odd {k : ℕ} (hx : StandsFor x ((2 * k + 1 : ℕ) * 2 ^ (-1074 : ℤ))) :
    StandsFor (Scalar.halve x) ((k + k % 2 : ℕ) * 2 ^ (-1074 : ℤ)) := by
  obtain ⟨m, d, hm, hu, hdigits, -, hshape⟩ := hx.exists_unpack_units (by omega)
  obtain rfl : d = 0 := by
    rcases d with _ | d
    · rfl
    · rw [pow_succ, ← mul_assoc] at hdigits
      omega
  obtain rfl : m = 2 * k + 1 := by omega
  have hk : k < 2 ^ 52 := by
    have hlt := (Nat.log2_lt hm.ne').1 (show (2 * k + 1).log2 < 53 by omega)
    omega
  change StandsFor (Float.ofModel (.pack (UnpackedFloat.div .binary64 x.toModel.unpack
    floatTwo.toModel.unpack))) _
  rw [hu, unpack_floatTwo]
  change StandsFor (Float.ofModel (.pack (match divCore .binary64 (2 * k + 1) (-1074) (2 ^ 52) (-51)
    with | (m, e, acc) => roundWithAccuracy .binary64 .positive m e acc))) _
  rw [divCore_two_odd (by omega)]
  simp only [roundWithAccuracy_middle hk]
  split
  · rename_i hr
    rw [hr, Nat.cast_zero, zero_mul]
    exact standsFor_pack_zero _
  · rename_i hr
    refine standsFor_pack (Nat.pos_of_ne_zero hr) le_rfl (by omega) ?_
    have hlog : (k + k % 2).log2 < 53 := (Nat.log2_lt hr).2 (by omega)
    omega

theorem StandsFor.halve_even {k : ℕ} (hx : StandsFor x ((2 * k : ℕ) * 2 ^ (-1074 : ℤ))) :
    StandsFor (Scalar.halve x) (k * 2 ^ (-1074 : ℤ)) := by
  have hhalf : ((2 * k : ℕ) * 2 ^ (-1074 : ℤ) : ℚ) / 2 = k * 2 ^ (-1074 : ℤ) := by
    rw [Nat.cast_mul, Nat.cast_ofNat, mul_assoc, mul_div_cancel_left₀ _ two_ne_zero]
  rw [← hhalf]
  refine hx.halve ?_
  rw [hhalf]
  rcases Nat.eq_zero_or_pos k with rfl | hk
  · rw [Nat.cast_zero, zero_mul]
    exact ⟨_, standsFor_pack_zero .positive⟩
  obtain ⟨m, d, hm, -, hdigits, hd, hshape⟩ := hx.exists_unpack_units (by omega)
  rcases d with _ | d
  · obtain rfl : m = 2 * k := by omega
    have hlog : (2 * k).log2 = k.log2 + 1 := Nat.log2_two_mul hk.ne'
    exact ⟨_, standsFor_pack hk le_rfl (by omega) (by omega)⟩
  · have hscale : (k : ℚ) * 2 ^ (-1074 : ℤ) = m * 2 ^ ((d : ℤ) - 1074) := by
      have hk : k = m * 2 ^ d := by
        rw [pow_succ, ← mul_assoc] at hdigits
        omega
      rw [hk, Nat.cast_mul, Nat.cast_pow, Nat.cast_ofNat, mul_assoc, ← zpow_natCast,
        ← zpow_add₀ two_ne_zero]
      rfl
    rw [hscale]
    exact ⟨_, standsFor_pack hm (by omega) (by omega) (by omega)⟩

/-- Half of some least units, rounded, is at most half as many, rounded up. -/
theorem StandsFor.halve_units {n : ℕ} (hx : StandsFor x (n * 2 ^ (-1074 : ℤ))) :
    ∃ k : ℕ, StandsFor (Scalar.halve x) (k * 2 ^ (-1074 : ℤ)) ∧ 2 * k ≤ n + 1
      ∧ (n ≤ 1 → k = 0) := by
  obtain ⟨k, rfl | rfl⟩ := n.even_or_odd'
  · exact ⟨k, hx.halve_even, by omega, by omega⟩
  · exact ⟨k + k % 2, hx.halve_odd, by omega, by omega⟩

theorem StandsFor.exists_units (hx : StandsFor x q) (hq : 0 ≤ q) :
    ∃ n j : ℕ, q = n * 2 ^ (-1074 : ℤ) ∧ n ≤ 2 ^ j ∧ j ≤ 2098 := by
  rcases hq.eq_or_lt with rfl | hq
  · exact ⟨0, 0, by simp, by simp, by simp⟩
  obtain ⟨m, e, hm, hu, rfl⟩ := hx.exists_unpack hq
  obtain ⟨hlo, hhi, hshape⟩ := shape_of_unpack hu
  have hlt := (Nat.log2_lt hm.ne').1 (show m.log2 < 53 by omega)
  refine ⟨m * 2 ^ (e - -1074).toNat, 53 + (e - -1074).toNat, ?_, ?_, by omega⟩
  · rw [two_zpow_eq hlo, Nat.cast_mul, Nat.cast_pow, Nat.cast_ofNat, mul_assoc]
  · rw [pow_add]
    exact Nat.mul_le_mul_right _ hlt.le

theorem StandsFor.iterate_halve : ∀ {j n : ℕ} {x : Float},
    StandsFor x (n * 2 ^ (-1074 : ℤ)) → n ≤ 2 ^ j → StandsFor (Scalar.halve^[j + 1] x) 0
  | 0, n, x, hx, hn => by
    obtain ⟨k, hk, -, hzero⟩ := hx.halve_units
    rw [hzero (by simpa using hn), Nat.cast_zero, zero_mul] at hk
    exact hk
  | j + 1, n, x, hx, hn => by
    obtain ⟨k, hk, hle, -⟩ := hx.halve_units
    rw [Function.iterate_succ_apply]
    refine hk.iterate_halve ?_
    rw [pow_succ] at hn
    omega

theorem unpack_halve_infinity (h : x.toModel.unpack = .infinity .positive) :
    (Scalar.halve x).toModel.unpack = .infinity .positive := by
  change unpack .binary64 (pack .binary64 (UnpackedFloat.div .binary64 x.toModel.unpack
    floatTwo.toModel.unpack)) = _
  rw [h]
  rfl

theorem unpack_iterate_halve_infinity (h : x.toModel.unpack = .infinity .positive) : ∀ j,
    (Scalar.halve^[j] x).toModel.unpack = .infinity .positive
  | 0 => h
  | j + 1 => by
    rw [Function.iterate_succ_apply']
    exact unpack_halve_infinity (unpack_iterate_halve_infinity h j)

end Halving

section Order

variable {x y : Float} {q : ℚ}

theorem lt_eq_false_of_infinity (h : x.toModel.unpack = .infinity .positive) : lt x y = false := by
  rw [Bool.eq_false_iff, ne_eq, lt_float, h]
  rcases y.toModel.unpack with (_ | _) | _ | s | ⟨_ | _, m, e, hm⟩ <;>
    simp [UnpackedFloat.lt, UnpackedFloat.compare]

theorem lt_eq_false_of_notANumber
    (h : x.toModel.unpack = .notANumber ∨ y.toModel.unpack = .notANumber) : lt x y = false := by
  rw [Bool.eq_false_iff, ne_eq, lt_float, lt_iff_place]
  rintro ⟨a, b, ha, hb, -⟩
  rcases h with h | h
  · rw [h] at ha
    cases ha
  · rw [h] at hb
    cases hb

theorem StandsFor.lt_infinity (hx : StandsFor x q) (h : y.toModel.unpack = .infinity .positive) :
    lt x y = true := by
  rw [lt_float, h]
  obtain ⟨s, hu, -⟩ | ⟨s, m, e, hm, hu, -⟩ := hx.cases
  · rw [hu]
    cases s <;> rfl
  · rw [hu]
    cases s <;> rfl

theorem StandsFor.exists_zero (hx : StandsFor x 0) : ∃ s, x.toModel.unpack = .zero s := by
  obtain ⟨s, hu, -⟩ | ⟨s, m, e, hm, -, hq⟩ := hx.cases
  · exact ⟨s, hu⟩
  · have hne : (s.apply m : ℚ) * 2 ^ e ≠ 0 := by
      cases s <;> simp [Sign.apply, hm.ne', zpow_ne_zero]
    exact absurd hq.symm hne

theorem StandsFor.lt_zero (hx : StandsFor x q) (hq : 0 ≤ q) (hy : StandsFor y 0) :
    lt x y = false := by
  obtain ⟨s, hzero⟩ := hy.exists_zero
  rw [Bool.eq_false_iff, ne_eq, lt_float, hzero]
  rcases hq.eq_or_lt with rfl | hq
  · obtain ⟨s', hu⟩ := hx.exists_zero
    rw [hu]
    cases s <;> cases s' <;> decide
  · obtain ⟨m, e, hm, hu, -⟩ := hx.exists_unpack hq
    rw [hu]
    simp [UnpackedFloat.lt, UnpackedFloat.compare]

end Order

section Magnitudes

theorem unpack_abs (x : Float) : (abs x).toModel.unpack = x.toModel.unpack.abs := by
  change unpack .binary64 (pack .binary64 x.toModel.unpack.abs) = x.toModel.unpack.abs
  rcases hu : x.toModel.unpack with s | _ | s | ⟨s, m, e, hm⟩
  · exact unpack_packedInfinity .positive
  · exact unpack_packedNaN
  · exact unpack_packedZero
  · exact unpack_pack_finite x.toModel.valid hu

/-- A magnitude is not a number, or infinite, or a number that is not negative. -/
theorem abs_cases (x : Float) :
    ((abs x).toModel.unpack = .notANumber ∧ x.isInf = false)
      ∨ ((abs x).toModel.unpack = .infinity .positive ∧ x.isInf = true)
      ∨ ∃ q, 0 ≤ q ∧ StandsFor (abs x) q ∧ x.isInf = false ∧ (q = 0 → isZero x = true) := by
  have hinf : x.isInf = x.toModel.unpack.isInf := rfl
  rcases hu : x.toModel.unpack with s | _ | s | ⟨s, m, e, hm⟩
  · exact .inr (.inl ⟨by rw [unpack_abs, hu]; rfl, by rw [hinf, hu]; rfl⟩)
  · exact .inl ⟨by rw [unpack_abs, hu]; rfl, by rw [hinf, hu]; rfl⟩
  · refine .inr (.inr ⟨0, le_rfl, ?_, by rw [hinf, hu]; rfl, fun _ => (isZero_iff x).2 ⟨s, hu⟩⟩)
    rw [standsFor_iff, unpack_abs, hu]
    rfl
  · have hpos : (0 : ℚ) < m * 2 ^ e := by positivity
    refine .inr (.inr ⟨m * 2 ^ e, hpos.le, ?_, by rw [hinf, hu]; rfl, fun h => absurd h hpos.ne'⟩)
    rw [standsFor_iff, unpack_abs, hu]
    rfl

theorem unpack_abs_of_isInf {x : Float} (h : x.isInf = true) :
    (abs x).toModel.unpack = .infinity .positive := by
  rcases abs_cases x with ⟨-, hfin⟩ | ⟨hu, -⟩ | ⟨_, -, -, hfin, -⟩
  · simp [h] at hfin
  · exact hu
  · simp [h] at hfin

theorem isZero_of_isInf {x : Float} (h : x.isInf = true) : isZero x = false := by
  rw [Bool.eq_false_iff, ne_eq, isZero_iff]
  rintro ⟨s, hs⟩
  change x.toModel.unpack.isInf = true at h
  rw [hs] at h
  cases h

theorem double_abs_cases (x : Float) :
    (double (abs x)).toModel.unpack = .notANumber
      ∨ (double (abs x)).toModel.unpack = .infinity .positive
      ∨ ∃ q, 0 ≤ q ∧ StandsFor (double (abs x)) q := by
  rcases abs_cases x with ⟨h, -⟩ | ⟨h, -⟩ | ⟨q, hq, hx, -, -⟩
  · exact .inl (unpack_double_notANumber h)
  · exact .inr (.inl (unpack_double_infinity h))
  · right
    rcases hq.eq_or_lt with rfl | hq
    · have hzero : Representable (0 + 0) := ⟨abs x, by rwa [add_zero]⟩
      exact .inr ⟨_, (add_zero 0).ge, hx.add hx hzero⟩
    · exact (hx.double_cases hq).symm.imp id fun h => ⟨_, by positivity, h⟩

/-- What is infinite is infinitely far from what is not. -/
theorem unpack_distance_infinity {x y : Float} {q : ℚ} (hx : StandsFor x q)
    (hy : y.toModel.unpack = .infinity .positive) :
    (distance x y).toModel.unpack = .infinity .positive := by
  have hneg : (-y).toModel.unpack = .infinity .negative := by
    rw [unpack_neg, hy]
    rfl
  have hsum : UnpackedFloat.add .binary64 x.toModel.unpack (-y).toModel.unpack
      = .infinity .negative := by
    obtain ⟨s, hu, -⟩ | ⟨s, m, e, hm, hu, -⟩ := hx.cases <;> rw [hu, hneg] <;> rfl
  change (abs (x - y)).toModel.unpack = _
  rw [unpack_abs, float_sub_eq]
  change (unpack .binary64 (pack .binary64 (UnpackedFloat.add .binary64 x.toModel.unpack
    (-y).toModel.unpack))).abs = _
  rw [hsum]
  rfl

end Magnitudes

namespace Synthesis

section Ends

variable {target value x : Float} {q : ℚ}

theorem isFarAbove_zero (target : Float) (hx : StandsFor x 0) :
    isFarAbove (abs target) x = false := by
  rcases double_abs_cases target with h | h | ⟨q, hq, h⟩
  · exact lt_eq_false_of_notANumber (.inl h)
  · exact lt_eq_false_of_infinity h
  · exact h.lt_zero hq hx

/-- From a positive number an approach ends, at infinity or at zero if not before. -/
theorem exists_arrives_of_pos (target : Float) (hx : StandsFor x q) (hq : 0 < q) :
    ∃ k ≤ 2099, ∃ y, Arrives (abs target) x k y := by
  by_cases hbelow : lt x (abs target) = true
  · obtain ⟨j, hj, hinfinity⟩ := hx.exists_iterate_double hq
    have hnear : isFarBelow (abs target) (double^[j] x) = false :=
      lt_eq_false_of_infinity hinfinity
    obtain ⟨k, hk, y, h⟩ := exists_halts hnear
    refine ⟨k, by omega, y, ?_⟩
    rwa [Arrives, if_pos hbelow]
  · obtain ⟨n, j, rfl, hn, hj⟩ := hx.exists_units hq.le
    have hnear : isFarAbove (abs target) (halve^[j + 1] x) = false :=
      isFarAbove_zero target (hx.iterate_halve hn)
    obtain ⟨k, hk, y, h⟩ := exists_halts hnear
    refine ⟨k, by omega, y, ?_⟩
    rwa [Arrives, if_neg hbelow]

theorem arrives_of_not_far (hbelow : lt x target = false) (habove : isFarAbove target x = false) :
    Arrives target x 0 x := by
  rw [Arrives, if_neg (Bool.eq_false_iff.1 hbelow)]
  exact ⟨by omega, habove, rfl⟩

/-- Halving infinity, one never comes near a target whose double is finite. -/
theorem isFarAbove_iterate_halve (hx : x.toModel.unpack = .infinity .positive)
    (htarget : (double target).isFinite = true) (j : ℕ) :
    isFarAbove target (halve^[j] x) = true := by
  have hfinite : StandsFor (double target) _ := ⟨Binary64.isFinite_iff.1 htarget, rfl⟩
  exact hfinite.lt_infinity (unpack_iterate_halve_infinity hx j)

theorem not_arrives_of_infinity (hx : x.toModel.unpack = .infinity .positive)
    (htarget : (double target).isFinite = true) {k : ℕ} {y : Float} : ¬ Arrives target x k y := by
  rw [Arrives, if_neg (by simp [lt_eq_false_of_infinity hx])]
  intro h
  have hdone := h.done
  rw [h.reached, isFarAbove_iterate_halve hx htarget] at hdone
  cases hdone

theorem exists_arrives_or (target : Float) (hvalue : isZero value = false) :
    (∃ k ≤ 2099, ∃ y, Arrives (abs target) (abs value) k y)
      ∨ value.isInf = true ∧ (double (abs target)).isFinite = true := by
  rcases abs_cases value with ⟨h, -⟩ | ⟨h, hinf⟩ | ⟨q, hq, hx, -, hzero⟩
  · exact .inl ⟨0, by omega, _, arrives_of_not_far (lt_eq_false_of_notANumber (.inl h))
      (lt_eq_false_of_notANumber (.inr h))⟩
  · have harrives : isFarAbove (abs target) (abs value) = false →
        ∃ k ≤ 2099, ∃ y, Arrives (abs target) (abs value) k y := fun habove =>
      ⟨0, by omega, _, arrives_of_not_far (lt_eq_false_of_infinity h) habove⟩
    rcases double_abs_cases target with ht | ht | ⟨q, -, ht⟩
    · exact .inl (harrives (lt_eq_false_of_notANumber (.inl ht)))
    · exact .inl (harrives (lt_eq_false_of_infinity ht))
    · exact .inr ⟨hinf, Binary64.isFinite_iff.2 ht.1⟩
  · have hpos : 0 < q := lt_of_le_of_ne hq fun h => by simp [hzero h.symm] at hvalue
    exact .inl (exists_arrives_of_pos target hx hpos)

/-- A target whose double is finite is finite, hence nothing infinite is near it. -/
theorem isNear_of_isInf (precision : Float) (hvalue : value.isInf = true)
    (htarget : (double (abs target)).isFinite = true) :
    isNear target value precision = false := by
  have hfinite : ∃ q, StandsFor (abs target) q := by
    change (double (abs target)).toModel.unpack.isFinite = true at htarget
    rcases abs_cases target with ⟨h, -⟩ | ⟨h, -⟩ | ⟨q, -, h, -⟩
    · rw [unpack_double_notANumber h] at htarget
      cases htarget
    · rw [unpack_double_infinity h] at htarget
      cases htarget
    · exact ⟨q, h⟩
  obtain ⟨q, hq⟩ := hfinite
  have hgap := unpack_distance_infinity hq (unpack_abs_of_isInf hvalue)
  have hinf : (distance (abs target) (abs value)).isInf = true := by
    change (distance (abs target) (abs value)).toModel.unpack.isInf = true
    rw [hgap]
    rfl
  rw [isNear, lt_eq_false_of_infinity hgap, isZero_of_isInf hinf]
  rfl

theorem not_returns_of_isInf (precision : Float) (hvalue : value.isInf = true)
    (htarget : (double (abs target)).isFinite = true) {k n : ℕ} :
    ¬ Returns target value precision k n := by
  have hfar := isNear_of_isInf precision hvalue htarget
  intro h
  cases h with
  | near hnear =>
    rw [hfar] at hnear
    cases hnear
  | zero _ hzero =>
    rw [isZero_of_isInf hvalue] at hzero
    cases hzero
  | far _ _ harrives =>
    exact not_arrives_of_infinity (unpack_abs_of_isInf hvalue) htarget harrives

theorem exists_returns_or (target value precision : Float) :
    (∃ k ≤ 2099, ∃ n, Returns target value precision k n)
      ∨ value.isInf = true ∧ (double (abs target)).isFinite = true := by
  cases hnear : isNear target value precision with
  | true => exact .inl ⟨0, Nat.zero_le _, 0, .near hnear⟩
  | false =>
    cases hzero : isZero value with
    | true => exact .inl ⟨0, Nat.zero_le _, _, .zero hnear hzero⟩
    | false =>
      refine (exists_arrives_or target hzero).imp_left ?_
      rintro ⟨k, hk, y, h⟩
      exact ⟨k, hk, _, .far hnear hzero h⟩

/-- An estimate of doubles comes to its end, within 2099 rounds, except that of an infinite value
for a target whose double is finite. -/
theorem exists_returns_iff (target value precision : Float) :
    ((∃ k n, Returns target value precision k n)
        ↔ ¬ (value.isInf = true ∧ (double (abs target)).isFinite = true))
      ∧ ∀ k n, Returns target value precision k n →
        k ≤ 2099 ∧ estimate target value precision = n := by
  refine ⟨⟨?_, fun hends => ?_⟩, fun k n h => ⟨?_, h.estimate_eq⟩⟩
  · rintro ⟨k, n, h⟩ ⟨hvalue, htarget⟩
    exact not_returns_of_isInf precision hvalue htarget h
  · obtain ⟨k, -, n, h⟩ := (exists_returns_or target value precision).resolve_right hends
    exact ⟨k, n, h⟩
  · cases h with
    | near => exact Nat.zero_le _
    | zero => exact Nat.zero_le _
    | far _ hzero h =>
      rcases exists_arrives_or target hzero with ⟨k', hk', y, h'⟩ | ⟨hvalue, htarget⟩
      · exact (h.le h').trans hk'
      · exact absurd h (not_arrives_of_infinity (unpack_abs_of_isInf hvalue) htarget)

/-- Halving infinity goes on for ever: no estimate of an infinite value for the target one. -/
theorem not_returns_infinity_one :
    ¬ ∃ k n, Returns (1.0 : Float) (1.0 / 0.0) 0.001 k n := by
  rintro ⟨k, n, h⟩
  exact not_returns_of_isInf _ rfl rfl h

end Ends

end Synthesis

end HexPatterns
