import Mathlib
import HexPatterns.Grid.Move
import HexPatterns.Proofs.FloatLaws
import HexPatterns.Scalar.Rational

/-!
# Doubles and the numbers they stand for

A finite double stands for one rational number, its significand scaled by a power of two
(`Binary64.value`). Addition, subtraction and halving round, but they round nothing away where the
exact result is the number of some double (`StandsFor.add`, `StandsFor.sub`, `StandsFor.halve`). And
a number with at most fifty-three binary digits is the number of a double unless it is too large or
too small (`representable_of_abs_eq`).

All of this rests on one lemma about rounding: digits that are exactly those of a double are rounded
to that double, however they are scaled (`round_eq_unpack`).
-/

namespace HexPatterns

open Float.Model (UnpackedFloat Format totalExponent)
open Float.Model.UnpackedFloat

namespace Binary64

/-- The number that a finite double stands for. -/
def value (b : Binary64) : ℚ :=
  (if b.negative then -1 else 1) * b.significand * 2 ^ b.scale

def sign (b : Binary64) : Sign :=
  if b.negative then .negative else .positive

section Fields

variable {b : Binary64}

theorem significand_subnormal (h : b.exponent = 0) : b.significand = b.fraction :=
  if_pos h

theorem significand_normal (h : b.exponent ≠ 0) : b.significand = 2 ^ 52 + b.fraction := by
  rw [significand, if_neg h, Nat.one_shiftLeft]

theorem scale_subnormal (h : b.exponent = 0) : b.scale = -1074 :=
  if_pos h

theorem scale_normal (h : b.exponent ≠ 0) : b.scale = b.exponent - 1075 :=
  if_neg h

variable (x : Float)

theorem exponent_ofFloat :
    (ofFloat x).exponent = (@unpackExponent .binary64 x.toModel.toBits.toBitVec).toNat := by
  have hmask : (0x7ff : UInt64).toNat = 2 ^ 11 - 1 := rfl
  simp only [ofFloat, unpackExponent_def, BitVec.extractLsb'_toNat, UInt64.toNat_and,
    UInt64.toNat_shiftRight]
  rw [hmask, Nat.and_two_pow_sub_one_eq_mod]
  rfl

theorem fraction_ofFloat :
    (ofFloat x).fraction = (@unpackMantissa .binary64 x.toModel.toBits.toBitVec).toNat := by
  have hmask : (0xfffffffffffff : UInt64).toNat = 2 ^ 52 - 1 := rfl
  simp only [ofFloat, unpackMantissa_def, BitVec.extractLsb'_toNat, UInt64.toNat_and]
  rw [hmask, Nat.and_two_pow_sub_one_eq_mod]
  rfl

theorem sign_ofFloat :
    (ofFloat x).sign = Sign.ofBitVec (@unpackSign .binary64 x.toModel.toBits.toBitVec) := by
  have hlt : x.toBits.toNat < 2 ^ 64 := x.toBits.toNat_lt
  have hshift : x.toBits >>> 63 = 0 ↔ x.toBits.toNat / 2 ^ 63 = 0 := by
    rw [← UInt64.toNat_inj, UInt64.toNat_shiftRight, Nat.shiftRight_eq_div_pow]
    rfl
  have hbit : @unpackSign .binary64 x.toModel.toBits.toBitVec = 0#1
      ↔ x.toBits.toNat / 2 ^ 63 % 2 = 0 := by
    rw [← BitVec.toNat_inj, unpackSign_def, BitVec.extractLsb'_toNat, Nat.shiftRight_eq_div_pow]
    rfl
  have hsame : x.toBits >>> 63 = 0 ↔ @unpackSign .binary64 x.toModel.toBits.toBitVec = 0#1 := by
    rw [hshift, hbit]
    omega
  by_cases h : x.toBits >>> 63 = 0
  · simp [sign, ofFloat, Sign.ofBitVec, h, hsame.1 h]
  · simp [sign, ofFloat, Sign.ofBitVec, h, mt hsame.2 h]

theorem exponent_lt : (ofFloat x).exponent < 2 ^ 11 := by
  rw [exponent_ofFloat]
  exact BitVec.isLt _

theorem fraction_lt : (ofFloat x).fraction < 2 ^ 52 := by
  rw [fraction_ofFloat]
  exact BitVec.isLt _

/-- A double is infinite or not a number, or zero, or it has digits, and its fields tell. -/
theorem unpack_cases :
    ((ofFloat x).isFinite = false
        ∧ (x.toModel.unpack = .infinity (ofFloat x).sign ∨ x.toModel.unpack = .notANumber))
      ∨ ((ofFloat x).isFinite = true ∧ (ofFloat x).significand = 0
        ∧ x.toModel.unpack = .zero (ofFloat x).sign)
      ∨ ((ofFloat x).isFinite = true ∧ ∃ h : 0 < (ofFloat x).significand, x.toModel.unpack
        = .finite (ofFloat x).sign (ofFloat x).significand (ofFloat x).scale h) := by
  have hE := exponent_ofFloat x
  have hF := fraction_ofFloat x
  have hall : @unpackExponent .binary64 x.toModel.toBits.toBitVec = -1#_
      ↔ (ofFloat x).exponent = 2047 := by
    rw [hE, ← BitVec.toNat_inj]
    rfl
  have hnone : @unpackExponent .binary64 x.toModel.toBits.toBitVec = 0#_
      ↔ (ofFloat x).exponent = 0 := by
    rw [hE, ← BitVec.toNat_inj]
    rfl
  have hempty : @unpackMantissa .binary64 x.toModel.toBits.toBitVec = 0#_
      ↔ (ofFloat x).fraction = 0 := by
    rw [hF, ← BitVec.toNat_inj]
    rfl
  have hlt := exponent_lt x
  have hunpack : x.toModel.unpack = unpack .binary64 x.toModel.toBits.toBitVec := rfl
  simp only [unpack, ← sign_ofFloat, hall, hnone, hempty, ← hE, ← hF] at hunpack
  split_ifs at hunpack with h2047 hfrac h0 hfrac
  · exact .inl ⟨by simp [isFinite, h2047], .inl hunpack⟩
  · exact .inl ⟨by simp [isFinite, h2047], .inr hunpack⟩
  · exact .inr (.inl ⟨by simp [isFinite, h0], by rw [significand_subnormal h0, hfrac], hunpack⟩)
  · have hsig := significand_subnormal h0
    refine .inr (.inr ⟨by simp [isFinite, h0], by omega, ?_⟩)
    rw [hunpack, finite.injEq]
    refine ⟨rfl, hsig.symm, ?_⟩
    rw [scale_subnormal h0, h0]
    rfl
  · have hsig := significand_normal h0
    refine .inr (.inr ⟨by simp [isFinite]; omega, by omega, ?_⟩)
    rw [hunpack, finite.injEq]
    refine ⟨rfl, ?_, (scale_normal h0).symm⟩
    rw [BitVec.toNat_append, ← Nat.shiftLeft_add_eq_or_of_lt (BitVec.isLt _), ← hF, hsig]
    rfl

variable {x}

theorem unpack_of_pos (hfin : (ofFloat x).isFinite = true) (hpos : 0 < (ofFloat x).significand) :
    x.toModel.unpack = .finite (ofFloat x).sign (ofFloat x).significand (ofFloat x).scale hpos := by
  obtain ⟨h, _⟩ | ⟨_, h, _⟩ | ⟨_, _, h⟩ := unpack_cases x
  · simp [hfin] at h
  · omega
  · exact h

theorem isFinite_iff : x.isFinite = true ↔ (ofFloat x).isFinite = true := by
  change x.toModel.unpack.isFinite = true ↔ _
  obtain ⟨hfin, hu | hu⟩ | ⟨hfin, _, hu⟩ | ⟨hfin, _, hu⟩ := unpack_cases x <;>
    simp [hfin, hu, UnpackedFloat.isFinite]

end Fields

end Binary64

section StandsFor

/-- The number of a float that is taken apart, if it is one. -/
def number? : UnpackedFloat → Option ℚ
  | .zero _ => some 0
  | .finite s m e _ => some (s.apply m * 2 ^ e)
  | _ => none

/-- The double is finite and stands for the number. -/
def StandsFor (x : Float) (q : ℚ) : Prop :=
  (Binary64.ofFloat x).isFinite = true ∧ (Binary64.ofFloat x).value = q

/-- Some double stands for the number. -/
def Representable (q : ℚ) : Prop :=
  ∃ x, StandsFor x q

variable {x y z : Float} {q r : ℚ}

theorem standsFor_iff : StandsFor x q ↔ number? x.toModel.unpack = some q := by
  obtain ⟨hfin, hu | hu⟩ | ⟨hfin, hzero, hu⟩ | ⟨hfin, hpos, hu⟩ := Binary64.unpack_cases x
  · simp [StandsFor, hfin, hu, number?]
  · simp [StandsFor, hfin, hu, number?]
  · simp [StandsFor, hfin, hu, number?, Binary64.value, hzero]
  · rw [StandsFor, hu, hfin, number?, Binary64.value, Binary64.sign]
    cases (Binary64.ofFloat x).negative <;> simp [Sign.apply]

/-- A double that stands for a number is a zero or has digits. -/
theorem StandsFor.cases (h : StandsFor x q) :
    (∃ s, x.toModel.unpack = .zero s ∧ q = 0)
      ∨ ∃ s m e hm, x.toModel.unpack = .finite s m e hm ∧ q = s.apply m * 2 ^ e := by
  rw [standsFor_iff] at h
  rcases hu : x.toModel.unpack with s | _ | s | ⟨s, m, e, hm⟩ <;> rw [hu] at h
  · cases h
  · cases h
  · cases h
    exact .inl ⟨s, rfl, rfl⟩
  · cases h
    exact .inr ⟨s, m, e, hm, rfl, rfl⟩

theorem ofModel_pack_unpack (x : Float) : Float.ofModel (.pack x.toModel.unpack) = x :=
  Float.ofBits_toBits x

theorem standsFor_pack_zero (s : Sign) : StandsFor (Float.ofModel (.pack (.zero s))) 0 := by
  rw [standsFor_iff]
  cases s <;> rfl

end StandsFor

section Rounding

theorem two_zpow_eq {e t : ℤ} (h : e ≤ t) : (2 : ℚ) ^ t = 2 ^ (t - e).toNat * 2 ^ e := by
  rw [← zpow_natCast, ← zpow_add₀ two_ne_zero]
  congr 1
  omega

/-- Digits of one number on two scales: those on the lower one are shifted. -/
theorem eq_mul_two_pow {m m' : ℕ} {e t : ℤ} (h : (m : ℚ) * 2 ^ e = m' * 2 ^ t) (hle : e ≤ t) :
    m = m' * 2 ^ (t - e).toNat := by
  rw [two_zpow_eq hle, ← mul_assoc] at h
  exact_mod_cast mul_right_cancel₀ (zpow_ne_zero e two_ne_zero) h

theorem log2_mul_two_pow {m : ℕ} (hm : 0 < m) : ∀ d, (m * 2 ^ d).log2 = m.log2 + d
  | 0 => by simp
  | d + 1 => by
    have hpos : m * 2 ^ d ≠ 0 := by positivity
    rw [pow_succ', mul_left_comm, Nat.log2_two_mul hpos, log2_mul_two_pow hm d, add_assoc]

/-- The leading digit does not depend on the scale. -/
theorem totalExponent_eq {m m' : ℕ} {e t : ℤ} (hm' : 0 < m')
    (h : (m : ℚ) * 2 ^ e = m' * 2 ^ t) : totalExponent m e = totalExponent m' t := by
  rcases le_total e t with hle | hle
  · rw [eq_mul_two_pow h hle, totalExponent, totalExponent, log2_mul_two_pow hm']
    omega
  · have hm : 0 < m := by
      rcases Nat.eq_zero_or_pos m with rfl | hm
      · have hne : (m' : ℚ) * 2 ^ t ≠ 0 := by positivity
        simp [hne.symm] at h
      · exact hm
    rw [eq_mul_two_pow h.symm hle, totalExponent, totalExponent, log2_mul_two_pow hm]
    omega

theorem targetExponent_eq (n : ℤ) : Format.binary64.targetExponent n = max (n - 53) (-1074) := rfl

/-- The digits of a double fill fifty-three places, unless its scale is the least one. -/
theorem targetExponent_unpack {y : Float} {s : Sign} {m : ℕ} {t : ℤ} {hm : 0 < m}
    (hy : y.toModel.unpack = .finite s m t hm) :
    Format.binary64.targetExponent (totalExponent m t) = t := by
  obtain ⟨_, hu | hu⟩ | ⟨_, _, hu⟩ | ⟨_, _, hu⟩ := Binary64.unpack_cases y <;> rw [hu] at hy
  · cases hy
  · cases hy
  · cases hy
  obtain ⟨-, rfl, rfl⟩ := finite.inj hy
  have hlt := Binary64.fraction_lt y
  rw [targetExponent_eq, totalExponent]
  by_cases h0 : (Binary64.ofFloat y).exponent = 0
  · have hsig := Binary64.significand_subnormal h0
    have hlog : (Binary64.ofFloat y).significand.log2 < 52 :=
      (Nat.log2_lt hm.ne').2 (by omega)
    rw [Binary64.scale_subnormal h0]
    omega
  · have hsig := Binary64.significand_normal h0
    have hlog : (Binary64.ofFloat y).significand.log2 = 52 :=
      (Nat.log2_eq_iff hm.ne').2 ⟨by omega, by omega⟩
    rw [hlog, Binary64.scale_normal h0]
    omega

theorem shiftRight_exact (m : ℕ) : ∀ d, (⟨m * 2 ^ d, false, false⟩ : ExtendedMantissa) >>> d
    = ⟨m, false, false⟩
  | 0 => by
    rw [pow_zero, mul_one]
    rfl
  | d + 1 => by
    have ih := shiftRight_exact (m * 2) d
    rw [pow_succ', ← mul_assoc]
    change ((⟨m * 2 * 2 ^ d, false, false⟩ : ExtendedMantissa) >>> d).shiftRightOne = _
    rw [ih]
    simp [ExtendedMantissa.shiftRightOne]

/-- Digits that stand on their own scale, further down, are shifted to it, and nothing is lost. -/
theorem shiftToTargetExponent_eq {m' : ℕ} {t : ℤ} (hm' : 0 < m')
    (htarget : Format.binary64.targetExponent (totalExponent m' t) = t) {m : ℕ} {e : ℤ}
    (h : (m : ℚ) * 2 ^ e = m' * 2 ^ t) (hle : e ≤ t) :
    shiftToTargetExponent .binary64 m e .exact = (⟨m', false, false⟩, t) := by
  rw [shiftToTargetExponent, totalExponent_eq hm' h, htarget, shiftToExponent,
    ExtendedMantissa.ofMantissaAndAccuracy, eq_mul_two_pow h hle, shiftRight_exact]
  simp [hle]

/-- Digits that stand on their own scale, further down, are rounded to it. -/
theorem roundWithAccuracy_eq_finite (s : Sign) {m' : ℕ} {t : ℤ} (hm' : 0 < m')
    (htarget : Format.binary64.targetExponent (totalExponent m' t) = t) {m : ℕ} {e : ℤ}
    (h : (m : ℚ) * 2 ^ e = m' * 2 ^ t) (hle : e ≤ t) :
    roundWithAccuracy .binary64 s m e .exact = .finite s m' t hm' := by
  have hround : (⟨m', false, false⟩ : ExtendedMantissa).roundedMantissa = m' := rfl
  simp only [roundWithAccuracy, shiftToTargetExponent_eq hm' htarget h hle, hround,
    shiftToTargetExponent_eq hm' htarget rfl le_rfl, hm'.ne', dite_false]

/-- Digits are rounded to the scale on which they are their own. -/
theorem round_eq_finite (s : Sign) {m' : ℕ} {t : ℤ} (hm' : 0 < m')
    (htarget : Format.binary64.targetExponent (totalExponent m' t) = t) {m : ℕ} {e : ℤ}
    (h : (m : ℚ) * 2 ^ e = m' * 2 ^ t) :
    UnpackedFloat.round .binary64 s m e = .finite s m' t hm' := by
  rw [UnpackedFloat.round, totalExponent_eq hm' h, htarget, decreaseExponent]
  rcases le_total e t with hle | hle
  · have hnone : (e - t).toNat = 0 := by omega
    simpa [hnone] using roundWithAccuracy_eq_finite s hm' htarget h hle
  · have hdigits : m <<< (e - t).toNat = m' := by
      rw [Nat.shiftLeft_eq, ← eq_mul_two_pow h.symm hle]
    have hscale : e - (e - t).toNat = t := by omega
    simp only [hdigits, hscale]
    exact roundWithAccuracy_eq_finite s hm' htarget rfl le_rfl

/-- Digits that are those of a double, further down, are rounded to that double. -/
theorem roundWithAccuracy_eq_unpack {y : Float} {s : Sign} {m' : ℕ} {t : ℤ} {hm' : 0 < m'}
    (hy : y.toModel.unpack = .finite s m' t hm') {m : ℕ} {e : ℤ}
    (h : (m : ℚ) * 2 ^ e = m' * 2 ^ t) (hle : e ≤ t) :
    roundWithAccuracy .binary64 s m e .exact = y.toModel.unpack := by
  rw [hy]
  exact roundWithAccuracy_eq_finite s hm' (targetExponent_unpack hy) h hle

/-- Digits that are those of a double are rounded to that double. -/
theorem round_eq_unpack {y : Float} {s : Sign} {m' : ℕ} {t : ℤ} {hm' : 0 < m'}
    (hy : y.toModel.unpack = .finite s m' t hm') {m : ℕ} {e : ℤ}
    (h : (m : ℚ) * 2 ^ e = m' * 2 ^ t) :
    UnpackedFloat.round .binary64 s m e = y.toModel.unpack := by
  rw [hy]
  exact round_eq_finite s hm' (targetExponent_unpack hy) h

theorem normalize_apply (s : Sign) {m : ℕ} (hm : 0 < m) (e : ℤ) :
    UnpackedFloat.normalize .binary64 (s.apply m) e .positive
      = UnpackedFloat.round .binary64 s m e := by
  cases s with
  | positive =>
    have hpos : compare (m : ℤ) 0 = .gt := by
      rw [compare_gt_iff_gt]
      omega
    simp [UnpackedFloat.normalize, Sign.apply, hpos]
  | negative =>
    have hneg : compare (-m : ℤ) 0 = .lt := by
      rw [compare_lt_iff_lt]
      omega
    simp [UnpackedFloat.normalize, Sign.apply, hneg]

/-- Digits that have a number with a sign have that sign. -/
theorem exists_eq_apply {s : Sign} {m e t : ℤ} {m' : ℕ} (hm' : 0 < m')
    (h : (m : ℚ) * 2 ^ e = s.apply m' * 2 ^ t) :
    ∃ n : ℕ, 0 < n ∧ m = s.apply n ∧ (n : ℚ) * 2 ^ e = m' * 2 ^ t := by
  have hpos : (0 : ℚ) < m' * 2 ^ t := by positivity
  have hpow : (0 : ℚ) ≤ 2 ^ e := by positivity
  cases s with
  | positive =>
    simp only [Sign.apply, Int.cast_natCast] at h
    have hm : 0 < m := by exact_mod_cast pos_of_mul_pos_left (h ▸ hpos) hpow
    lift m to ℕ using hm.le
    exact ⟨m, by omega, rfl, by simpa using h⟩
  | negative =>
    simp only [Sign.apply, Int.cast_neg, Int.cast_natCast, neg_mul] at h
    have hdigits : ((-m : ℤ) : ℚ) * 2 ^ e = m' * 2 ^ t := by
      rw [Int.cast_neg, neg_mul, h, neg_neg]
    have hm : 0 < -m := by exact_mod_cast pos_of_mul_pos_left (hdigits ▸ hpos) hpow
    obtain ⟨n, hn⟩ := Int.eq_ofNat_of_zero_le hm.le
    refine ⟨n, by omega, by simp [Sign.apply, ← hn], ?_⟩
    rw [← hdigits, hn]
    simp

/-- A sum of digits is rounded to the double that stands for it, if there is one. -/
theorem standsFor_normalize {m e : ℤ} (h : Representable (m * 2 ^ e)) :
    StandsFor (Float.ofModel (.pack (UnpackedFloat.normalize .binary64 m e .positive)))
      (m * 2 ^ e) := by
  obtain ⟨y, hy⟩ := h
  obtain ⟨s, _, hzero⟩ | ⟨s, m', t, hm', hu, hq⟩ := hy.cases
  · have hm : m = 0 := by
      simpa [zpow_ne_zero e (two_ne_zero' ℚ)] using hzero
    rw [hm, Int.cast_zero, zero_mul]
    exact standsFor_pack_zero .positive
  · obtain ⟨n, hn, hm, hdigits⟩ := exists_eq_apply hm' hq
    rw [hm, normalize_apply s hn, round_eq_unpack hu hdigits, ofModel_pack_unpack, ← hm]
    exact hy

end Rounding

section Arithmetic

variable {x y z : Float} {q r : ℚ}

theorem sign_apply_shiftLeft (s : Sign) (m d : ℕ) :
    s.apply (m <<< d : ℕ) = s.apply m * 2 ^ d := by
  cases s <;> simp [Sign.apply, Nat.shiftLeft_eq]

theorem sign_apply_decreaseExponent (s : Sign) (m : ℕ) {e t : ℤ} (h : t ≤ e) :
    (s.apply (decreaseExponent m e t).1 : ℚ) * 2 ^ t = s.apply m * 2 ^ e := by
  rw [decreaseExponent, sign_apply_shiftLeft, two_zpow_eq h]
  push_cast
  ring

theorem StandsFor.add (hx : StandsFor x q) (hz : StandsFor z r) (h : Representable (q + r)) :
    StandsFor (x + z) (q + r) := by
  change StandsFor (Float.ofModel (.pack (UnpackedFloat.add .binary64 x.toModel.unpack
    z.toModel.unpack))) (q + r)
  obtain ⟨s, hu, hq⟩ | ⟨s, m, e, hm, hu, hq⟩ := hx.cases <;>
    obtain ⟨s', hu', hr⟩ | ⟨s', m', e', hm', hu', hr⟩ := hz.cases
  · rw [hu, hu', hq, hr, add_zero]
    cases s <;> cases s' <;> exact standsFor_pack_zero _
  · have hadd : UnpackedFloat.add .binary64 x.toModel.unpack z.toModel.unpack
        = z.toModel.unpack := by
      rw [hu, hu']
      rfl
    rw [hadd, ofModel_pack_unpack, hq, zero_add]
    exact hz
  · have hadd : UnpackedFloat.add .binary64 x.toModel.unpack z.toModel.unpack
        = x.toModel.unpack := by
      rw [hu, hu']
      rfl
    rw [hadd, ofModel_pack_unpack, hr, add_zero]
    exact hx
  · have hsum : q + r = ((s.apply (decreaseExponent m e (min e e')).1
        + s'.apply (decreaseExponent m' e' (min e e')).1 : ℤ) : ℚ) * 2 ^ min e e' := by
      rw [Int.cast_add, add_mul, sign_apply_decreaseExponent s m (min_le_left e e'),
        sign_apply_decreaseExponent s' m' (min_le_right e e'), hq, hr]
    rw [hu, hu', hsum]
    exact standsFor_normalize (hsum ▸ h)

theorem sign_apply_neg (s : Sign) (n : ℤ) : (-s).apply n = -s.apply n := by
  cases s
  · exact (neg_neg n).symm
  · rfl

theorem unpack_neg (x : Float) : (-x).toModel.unpack = x.toModel.unpack.neg := by
  change unpack .binary64 (pack .binary64 x.toModel.unpack.neg) = x.toModel.unpack.neg
  rcases hu : x.toModel.unpack with s | _ | s | ⟨s, m, e, hm⟩
  · exact Scalar.unpack_packedInfinity (-s)
  · exact unpack_packedNaN
  · exact unpack_packedZero
  · exact Scalar.unpack_pack_finite x.toModel.valid hu

theorem StandsFor.neg (h : StandsFor x q) : StandsFor (-x) (-q) := by
  rw [standsFor_iff, unpack_neg]
  obtain ⟨s, hu, rfl⟩ | ⟨s, m, e, hm, hu, rfl⟩ := h.cases
  · rw [hu, neg_zero]
    rfl
  · rw [hu, UnpackedFloat.neg, number?, sign_apply_neg, Int.cast_neg, neg_mul]

/-- Subtracting is adding what has the other sign. -/
theorem float_sub_eq (x z : Float) : x - z = x + -z := by
  have hsub : UnpackedFloat.sub .binary64 x.toModel.unpack z.toModel.unpack
      = UnpackedFloat.add .binary64 x.toModel.unpack z.toModel.unpack.neg := by
    rcases x.toModel.unpack with s | _ | s | ⟨s, m, e, hm⟩ <;>
      rcases z.toModel.unpack with s' | _ | s' | ⟨s', m', e', hm'⟩ <;> try rfl
    simp only [UnpackedFloat.sub, UnpackedFloat.neg, UnpackedFloat.add, sign_apply_neg,
      sub_eq_add_neg]
  change Float.ofModel (.pack (UnpackedFloat.sub .binary64 x.toModel.unpack z.toModel.unpack))
    = Float.ofModel (.pack (UnpackedFloat.add .binary64 x.toModel.unpack (-z).toModel.unpack))
  rw [hsub, unpack_neg]

theorem StandsFor.sub (hx : StandsFor x q) (hz : StandsFor z r) (h : Representable (q - r)) :
    StandsFor (x - z) (q - r) := by
  rw [float_sub_eq, sub_eq_add_neg]
  exact hx.add hz.neg (sub_eq_add_neg q r ▸ h)

theorem unpack_floatTwo :
    Scalar.floatTwo.toModel.unpack = .finite .positive (2 ^ 52) (-51) (by decide) :=
  rfl

/-- The division by two is exact on a scale that is not above that of the result. On the scale that
the division works on, the double two is `2 ^ 52`, which divides the shifted digits because the
result needs no scale below it. -/
theorem divCore_two {y : Float} {s : Sign} {m m' : ℕ} {e t : ℤ} {hm' : 0 < m'}
    (hy : y.toModel.unpack = .finite s m' t hm') (h : (m : ℚ) * 2 ^ (e - 1) = m' * 2 ^ t) :
    ∃ n d, divCore .binary64 m e (2 ^ 52) (-51) = (n, d, .exact) ∧ d ≤ t
      ∧ (n : ℚ) * 2 ^ d = m' * 2 ^ t := by
  have htwo : totalExponent (2 ^ 52) (-51) = 2 := by
    rw [totalExponent, Nat.log2_two_pow]
    rfl
  have htarget := targetExponent_unpack hy
  rw [← totalExponent_eq hm' h, targetExponent_eq, totalExponent] at htarget
  obtain ⟨d, hd⟩ : ∃ d, d = min (e - -51) (Format.binary64.targetExponent
    (totalExponent m e - totalExponent (2 ^ 52) (-51))) := ⟨_, rfl⟩
  have hdt : d ≤ t := by
    rw [htwo, targetExponent_eq, totalExponent] at hd
    omega
  have hde : d ≤ e - -51 := by omega
  have hshift : ((m * 2 ^ (e - -51 - d).toNat : ℕ) : ℚ) * 2 ^ d = m' * 2 ^ (t + 52) := by
    have hexp : e - -51 = e - 1 + 52 := by omega
    rw [Nat.cast_mul, Nat.cast_pow, Nat.cast_ofNat, mul_assoc, ← two_zpow_eq hde, hexp,
      zpow_add₀ two_ne_zero, zpow_add₀ two_ne_zero, ← mul_assoc, ← mul_assoc, h]
  have hdigits : m * 2 ^ (e - -51 - d).toNat = m' * 2 ^ (t - d).toNat * 2 ^ 52 := by
    have hsum : (t + 52 - d).toNat = (t - d).toNat + 52 := by omega
    rw [eq_mul_two_pow hshift (by omega), hsum, pow_add, mul_assoc]
  refine ⟨m' * 2 ^ (t - d).toNat, d, ?_, hdt, ?_⟩
  · rw [divCore, ← hd]
    simp only [Nat.shiftLeft_eq, hdigits]
    rw [Nat.mul_div_cancel _ (by positivity), Nat.mul_mod_left]
    rfl
  · rw [Nat.cast_mul, Nat.cast_pow, Nat.cast_ofNat, mul_assoc, ← two_zpow_eq hdt]

theorem sign_apply_inj {s s' : Sign} {m n : ℕ} (hn : 0 < n) (h : s.apply m = s'.apply n) :
    s = s' ∧ m = n := by
  cases s <;> cases s' <;> simp only [Sign.apply] at h <;> simp <;> omega

theorem StandsFor.halve (hx : StandsFor x q) (h : Representable (q / 2)) :
    StandsFor (x / Scalar.floatTwo) (q / 2) := by
  obtain ⟨y, hy⟩ := h
  change StandsFor (Float.ofModel (.pack (UnpackedFloat.div .binary64 x.toModel.unpack
    Scalar.floatTwo.toModel.unpack))) (q / 2)
  obtain ⟨s, hu, hq⟩ | ⟨s, m, e, hm, hu, hq⟩ := hx.cases
  · rw [hu, unpack_floatTwo, hq, zero_div]
    exact standsFor_pack_zero _
  have hhalf : q / 2 = s.apply m * 2 ^ (e - 1) := by
    rw [hq, zpow_sub_one₀ two_ne_zero]
    ring
  obtain ⟨_, _, hzero⟩ | ⟨s', m', t, hm', hu', hq'⟩ := hy.cases
  · have hpos : (s.apply m : ℚ) * 2 ^ (e - 1) ≠ 0 := by
      cases s <;> simp [Sign.apply, hm.ne', zpow_ne_zero]
    exact absurd (hhalf.symm.trans hzero) hpos
  · obtain ⟨n, hn, hsame, hdigits⟩ := exists_eq_apply hm' (hhalf.symm.trans hq')
    obtain ⟨rfl, rfl⟩ := sign_apply_inj hn hsame
    obtain ⟨k, d, hdiv, hle, hk⟩ := divCore_two (e := e) hu' hdigits
    have hsign : s / Sign.positive = s := by cases s <;> rfl
    have hround : UnpackedFloat.div .binary64 x.toModel.unpack Scalar.floatTwo.toModel.unpack
        = y.toModel.unpack := by
      rw [hu, unpack_floatTwo, UnpackedFloat.div, hdiv, hsign]
      exact roundWithAccuracy_eq_unpack hu' hk hle
    rw [hround, ofModel_pack_unpack]
    exact hy

/-- Digits that fill the fifty-three places are kept by packing. -/
theorem unpack_pack_normal (s : Sign) {m : ℕ} {e : ℤ} (hm : 0 < m) (hlog : m.log2 = 52)
    (hlo : -1074 ≤ e) (hhi : e ≤ 971) :
    unpack .binary64 (pack .binary64 (.finite s m e hm)) = .finite s m e hm := by
  obtain ⟨hle, hlt⟩ := (Nat.log2_eq_iff hm.ne').1 hlog
  have hE : (BitVec.ofNat 11 (e + 1023 + 52).toNat).toNat = (e + 1023 + 52).toNat := by
    rw [BitVec.toNat_ofNat, Nat.mod_eq_of_lt]
    omega
  have hF : (1#1 ++ BitVec.ofNat 52 m).toNat = m := by
    rw [BitVec.toNat_append, ← Nat.shiftLeft_add_eq_or_of_lt (BitVec.isLt _), BitVec.toNat_ofNat]
    change 1 <<< 52 + m % 2 ^ 52 = m
    omega
  have hpack : pack .binary64 (.finite s m e hm) = packComponents .binary64 s
      (BitVec.ofNat 11 (e + 1023 + 52).toNat) (BitVec.ofNat 52 m) := by
    have hroom : ¬ 2 ^ 11 ≤ (e + 1023 + 52).toNat + 1 := by omega
    have hplaces : m.log2 + 1 = Format.binary64.mantissaBits := by rw [hlog]; rfl
    simp only [pack]
    exact (if_neg hroom).trans (if_pos hplaces)
  have hall : BitVec.ofNat 11 (e + 1023 + 52).toNat ≠ -1#11 := by
    rw [ne_eq, ← BitVec.toNat_inj, hE]
    change ¬ (e + 1023 + 52).toNat = 2047
    omega
  have hnone : BitVec.ofNat 11 (e + 1023 + 52).toNat ≠ 0#11 := by
    rw [ne_eq, ← BitVec.toNat_inj, hE]
    change ¬ (e + 1023 + 52).toNat = 0
    omega
  rw [hpack]
  simp only [unpack, unpackExponent_packComponents, unpackMantissa_packComponents,
    unpackSign_packComponents, Sign.ofBitVec_toBitVec]
  rw [if_neg hall, if_neg hnone, finite.injEq, hE]
  refine ⟨rfl, hF, ?_⟩
  change ((e + 1023 + 52).toNat : ℤ) - (1023 + 52) = e
  omega

/-- On the least scale, fewer digits are kept by packing, too. -/
theorem unpack_pack_subnormal (s : Sign) {m : ℕ} (hm : 0 < m) (hlt : m < 2 ^ 52) :
    unpack .binary64 (pack .binary64 (.finite s m (-1074) hm)) = .finite s m (-1074) hm := by
  have hlog : m.log2 < 52 := (Nat.log2_lt hm.ne').2 hlt
  have hF : (BitVec.ofNat 52 m).toNat = m := by
    rw [BitVec.toNat_ofNat, Nat.mod_eq_of_lt hlt]
  have hpack : pack .binary64 (.finite s m (-1074) hm)
      = packComponents .binary64 s 0#11 (BitVec.ofNat 52 m) := by
    have hroom : ¬ 2 ^ 11 ≤ (-1074 + 1023 + 52 : ℤ).toNat + 1 := by decide
    have hplaces : ¬ m.log2 + 1 = Format.binary64.mantissaBits := by
      change ¬ m.log2 + 1 = 53
      omega
    simp only [pack]
    exact (if_neg hroom).trans (if_neg hplaces)
  have hsome : BitVec.ofNat 52 m ≠ 0#52 := by
    rw [ne_eq, ← BitVec.toNat_inj, hF]
    exact hm.ne'
  rw [hpack]
  simp only [unpack, unpackExponent_packComponents, unpackMantissa_packComponents,
    unpackSign_packComponents, Sign.ofBitVec_toBitVec]
  rw [if_neg (by decide), if_pos trivial, dif_neg hsome, finite.injEq]
  exact ⟨rfl, hF, rfl⟩

/-- A number of at most fifty-three digits, neither too large nor too small. -/
theorem representable_of_abs_eq {k : ℕ} {j : ℤ} (h : |q| = k * 2 ^ j) (hk : k < 2 ^ 53)
    (hlo : -1022 ≤ k.log2 + j) (hhi : k.log2 + j ≤ 1023) : Representable q := by
  suffices hpos : Representable |q| by
    obtain ⟨y, hy⟩ := hpos
    rcases abs_choice q with habs | habs <;> rw [habs] at hy
    · exact ⟨y, hy⟩
    · exact ⟨-y, by simpa using hy.neg⟩
  rcases Nat.eq_zero_or_pos k with rfl | hk0
  · rw [h, Nat.cast_zero, zero_mul]
    exact ⟨_, standsFor_pack_zero .positive⟩
  · have hlog : k.log2 < 53 := (Nat.log2_lt hk0.ne').2 hk
    have hm : 0 < k * 2 ^ (52 - k.log2) := by positivity
    have hfull : (k * 2 ^ (52 - k.log2)).log2 = 52 := by
      rw [log2_mul_two_pow hk0]
      omega
    refine ⟨Float.ofModel (.pack (.finite .positive _ (j - (52 - k.log2 : ℕ)) hm)), ?_⟩
    rw [standsFor_iff]
    change number? (unpack .binary64 (pack .binary64 (.finite .positive _ _ hm))) = _
    rw [unpack_pack_normal .positive hm hfull (by omega) (by omega), number?, Sign.apply, h,
      Int.cast_natCast, Nat.cast_mul, Nat.cast_pow, Nat.cast_ofNat, mul_assoc, ← zpow_natCast,
      ← zpow_add₀ two_ne_zero, add_sub_cancel]

end Arithmetic

section Moves

open Grid

/-- The steps of counting are numbers of doubles. -/
theorem standsFor_ofNat {n : ℕ} (hn : n ∈ [1, 5, 10]) : StandsFor (Scalar.ofNat n) n := by
  have hone : (Scalar.ofNat 1 : Float).toModel.unpack
      = .finite .positive (2 ^ 52) (-52) (by decide) := rfl
  have hfive : (Scalar.ofNat 5 : Float).toModel.unpack
      = .finite .positive (5 * 2 ^ 50) (-50) (by decide) := rfl
  have hten : (Scalar.ofNat 10 : Float).toModel.unpack
      = .finite .positive (5 * 2 ^ 50) (-49) (by decide) := rfl
  rw [standsFor_iff]
  simp only [List.mem_cons, List.not_mem_nil, or_false] at hn
  rcases hn with rfl | rfl | rfl
  · norm_num [hone, number?, UnpackedFloat.Sign.apply]
  · norm_num [hfive, number?, UnpackedFloat.Sign.apply]
  · norm_num [hten, number?, UnpackedFloat.Sign.apply]

variable {x : Float} {q : ℚ}

theorem StandsFor.advance (hx : StandsFor x q) (s : Grid.Sign) {n : ℕ} (hn : n ∈ [1, 5, 10])
    (h : Representable (s.advance q n)) : StandsFor (s.advance x n) (s.advance q n) := by
  cases s with
  | positive => exact hx.add (standsFor_ofNat hn) h
  | negative => exact hx.sub (standsFor_ofNat hn) h

/-- A move is exact if some double stands for what it comes to. -/
theorem StandsFor.apply (hx : StandsFor x q) (s : Grid.Sign) (m : Move)
    (h : Representable (m.apply s q)) : StandsFor (m.apply s x) (m.apply s q) := by
  cases m with
  | double =>
    have htwice : Move.double.apply s q = q + q := mul_two q
    rw [htwice] at h ⊢
    exact hx.add hx h
  | addFive => exact hx.advance s (by simp) h
  | addOne => exact hx.advance s (by simp) h
  | addTen => exact hx.advance s (by simp) h
  | halve => exact hx.halve h

end Moves

end HexPatterns
