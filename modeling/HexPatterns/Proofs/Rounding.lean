import Mathlib
import HexPatterns.Proofs.Scaling
import HexPatterns.Proofs.Walk

/-!
# What rounding cannot exceed

Rounding takes digits to a scale and there to one of the two neighbours, so it does not pass a bound
that stands on that scale (`roundedMantissa_shiftRight_le`). A sum of doubles is therefore finite
and within any bound that the exact sum is within, if the bound has at most fifty-three digits and
is itself not too large (`StandsFor.exists_add`). Half of a double is no larger than the double
(`StandsFor.exists_halve`).

A move at most doubles a number, or adds ten to it (`StandsFor.exists_apply`). After `d` moves from
zero a walk has come to no more than `5 * 2 ^ d`, which is finite as long as there are no more than
1021 moves (`exists_standsFor_valueOf`).
-/

namespace HexPatterns

open Float.Model (UnpackedFloat Format totalExponent)
open Float.Model.UnpackedFloat
open Scalar

section Rounding

theorem mantissa_shiftRight (em : ExtendedMantissa) :
    ∀ d : ℕ, (em >>> d).mantissa = em.mantissa / 2 ^ d
  | 0 => by
    rw [pow_zero, Nat.div_one]
    rfl
  | d + 1 => by
    change (em >>> d).mantissa / 2 = _
    rw [mantissa_shiftRight em d, Nat.div_div_eq_div_mul, pow_succ]

theorem roundedMantissa_bounds (em : ExtendedMantissa) :
    em.mantissa ≤ em.roundedMantissa ∧ em.roundedMantissa ≤ em.mantissa + 1 := by
  obtain ⟨m, r, s⟩ := em
  cases r <;> cases s <;>
    simp only [ExtendedMantissa.roundedMantissa, ExtendedMantissa.accuracy,
      Accuracy.roundToNearestEven] <;> omega

/-- Rounding does not pass a bound that needs no rounding. -/
theorem roundedMantissa_shiftRight_le {m d b : ℕ} (h : m ≤ b * 2 ^ d) :
    ((⟨m, false, false⟩ : ExtendedMantissa) >>> d).roundedMantissa ≤ b := by
  rcases h.eq_or_lt with rfl | hlt
  · rw [shiftRight_exact]
    exact le_rfl
  · have hdown : m / 2 ^ d < b := (Nat.div_lt_iff_lt_mul (by positivity)).2 hlt
    have hup := (roundedMantissa_bounds ((⟨m, false, false⟩ : ExtendedMantissa) >>> d)).2
    rw [mantissa_shiftRight] at hup
    exact hup.trans hdown

/-- Digits above the least scale that fill the places are rounded to digits that do. -/
theorem le_roundedMantissa_shiftRight {m d : ℕ} (hm : 0 < m) (h : m.log2 = 52 + d) :
    2 ^ 52 ≤ ((⟨m, false, false⟩ : ExtendedMantissa) >>> d).roundedMantissa := by
  have hdown : 2 ^ 52 ≤ m / 2 ^ d := by
    rw [Nat.le_div_iff_mul_le (by positivity), ← pow_add, ← h]
    exact Nat.log2_self_le hm.ne'
  have hup := (roundedMantissa_bounds ((⟨m, false, false⟩ : ExtendedMantissa) >>> d)).1
  rw [mantissa_shiftRight] at hup
  exact hdown.trans hup

/-- Digits not above the scale of a double come to digits `r` on it, which are then those of a
double. -/
theorem roundWithAccuracy_of_le (s : Sign) {m : ℕ} {e t : ℤ} (hm : 0 < m)
    (ht : Format.binary64.targetExponent (totalExponent m e) = t) (hle : e ≤ t) :
    ∃ r : ℕ, (∀ b : ℕ, (m : ℚ) * 2 ^ e ≤ b * 2 ^ t → r ≤ b) ∧ (-1074 < t → 2 ^ 52 ≤ r)
      ∧ (e = t → m ≤ r) ∧ ∀ {m' : ℕ} {t' : ℤ} (hm' : 0 < m'),
        Format.binary64.targetExponent (totalExponent m' t') = t' → (r : ℚ) * 2 ^ t = m' * 2 ^ t' →
        t ≤ t' → roundWithAccuracy .binary64 s m e .exact = .finite s m' t' hm' := by
  have hshift : shiftToTargetExponent .binary64 m e .exact
      = ((⟨m, false, false⟩ : ExtendedMantissa) >>> (t - e).toNat, t) := by
    rw [shiftToTargetExponent, ht, shiftToExponent, ExtendedMantissa.ofMantissaAndAccuracy]
    simp [hle]
  refine ⟨((⟨m, false, false⟩ : ExtendedMantissa) >>> (t - e).toNat).roundedMantissa,
    fun b hb => ?_, fun hlo => ?_, ?_, fun hm' htarget hdigits hscale => ?_⟩
  · rw [two_zpow_eq hle, ← mul_assoc] at hb
    have hb' := le_of_mul_le_mul_right hb (by positivity)
    exact roundedMantissa_shiftRight_le (by exact_mod_cast hb')
  · rw [targetExponent_eq, totalExponent] at ht
    exact le_roundedMantissa_shiftRight hm (by omega)
  · rintro rfl
    rw [sub_self]
    exact le_rfl
  · simp only [roundWithAccuracy, hshift, shiftToTargetExponent_eq hm' htarget hdigits hscale,
      hm'.ne', dite_false]

/-- Digits are rounded on the scale of a double, to which they are brought down first. -/
theorem exists_round_eq (s : Sign) {m : ℕ} (hm : 0 < m) {e t : ℤ} (he : -1074 ≤ e)
    (ht : Format.binary64.targetExponent (totalExponent m e) = t) :
    ∃ r : ℕ, 0 < r ∧ (∀ b : ℕ, (m : ℚ) * 2 ^ e ≤ b * 2 ^ t → r ≤ b) ∧ (-1074 < t → 2 ^ 52 ≤ r)
      ∧ ∀ {m' : ℕ} {t' : ℤ} (hm' : 0 < m'),
        Format.binary64.targetExponent (totalExponent m' t') = t' → (r : ℚ) * 2 ^ t = m' * 2 ^ t' →
        t ≤ t' → UnpackedFloat.round .binary64 s m e = .finite s m' t' hm' := by
  have hscale : e - (e - t).toNat = min e t := by omega
  have hpos : 0 < m <<< (e - t).toNat := by
    rw [Nat.shiftLeft_eq]
    positivity
  have hdigits : ((m <<< (e - t).toNat : ℕ) : ℚ) * 2 ^ min e t = m * 2 ^ e := by
    rw [← hscale, Nat.shiftLeft_eq, Nat.cast_mul, mul_assoc, Nat.cast_pow, Nat.cast_ofNat,
      ← zpow_natCast, ← zpow_add₀ two_ne_zero]
    congr 2
    omega
  have htarget : Format.binary64.targetExponent (totalExponent (m <<< (e - t).toNat) (min e t))
      = t := by
    rw [totalExponent_eq hm hdigits, ht]
  obtain ⟨r, hbound, hfull, hexact, hround⟩ :=
    roundWithAccuracy_of_le s hpos htarget (min_le_right e t)
  rw [hdigits] at hbound
  refine ⟨r, ?_, hbound, hfull, fun hm' hm't hr hle => ?_⟩
  · by_cases hlo : -1074 < t
    · exact lt_of_lt_of_le (by positivity) (hfull hlo)
    · have hleast : -1074 ≤ t := by
        rw [← ht, targetExponent_eq]
        exact le_max_right _ _
      exact hpos.trans_le (hexact (by omega))
  · rw [← hround hm' hm't hr hle, UnpackedFloat.round, ht, decreaseExponent]
    simp only [hscale]

/-- Digits on the scale of a double, rounded up to one place more at most, are those of a double. -/
theorem exists_shape {r : ℕ} {t : ℤ} (hr : 0 < r) (hlo : -1074 ≤ t) (hfull : -1074 < t → 2 ^ 52 ≤ r)
    (hle : r ≤ 2 ^ 53) (hhi : (r : ℚ) * 2 ^ t < 2 ^ (1024 : ℤ)) :
    ∃ (m' : ℕ) (t' : ℤ), 0 < m' ∧ -1074 ≤ t' ∧ t' ≤ 971 ∧ (m'.log2 = 52 ∨ m'.log2 < 52 ∧ t' = -1074)
      ∧ (r : ℚ) * 2 ^ t = m' * 2 ^ t' ∧ t ≤ t' := by
  have hroom : ∀ {m' : ℕ} {t' : ℤ}, 2 ^ 52 ≤ m' → (r : ℚ) * 2 ^ t = m' * 2 ^ t' → t' ≤ 971 := by
    intro m' t' hm' hdigits
    have hlt : (2 : ℚ) ^ (52 + t') < 2 ^ (1024 : ℤ) := by
      calc (2 : ℚ) ^ (52 + t') = 2 ^ 52 * 2 ^ t' := by
            rw [zpow_add₀ two_ne_zero]
            norm_cast
        _ ≤ m' * 2 ^ t' := by
            gcongr
            exact_mod_cast hm'
        _ < 2 ^ (1024 : ℤ) := hdigits ▸ hhi
    have := (zpow_lt_zpow_iff_right₀ one_lt_two).1 hlt
    omega
  rcases hle.eq_or_lt with rfl | hlt
  · have hdigits : ((2 ^ 53 : ℕ) : ℚ) * 2 ^ t = (2 ^ 52 : ℕ) * 2 ^ (t + 1) := by
      rw [zpow_add_one₀ two_ne_zero]
      push_cast
      ring
    exact ⟨2 ^ 52, t + 1, by positivity, by omega, hroom le_rfl hdigits,
      .inl (Nat.log2_two_pow), hdigits, by omega⟩
  · have hlog : r.log2 < 53 := (Nat.log2_lt hr.ne').2 hlt
    by_cases hleast : t = -1074
    · exact ⟨r, t, hr, hlo, by omega, by omega, rfl, le_rfl⟩
    · have h52 := hfull (by omega)
      have hlog' : 52 ≤ r.log2 := (Nat.le_log2 hr.ne').2 h52
      exact ⟨r, t, hr, hlo, hroom h52 rfl, by omega, rfl, le_rfl⟩

theorem two_zpow_log2_le {m : ℕ} (hm : 0 < m) (e : ℤ) : (2 : ℚ) ^ (m.log2 + e) ≤ m * 2 ^ e := by
  rw [zpow_add₀ two_ne_zero, zpow_natCast]
  gcongr
  exact_mod_cast Nat.log2_self_le hm.ne'

theorem lt_two_zpow_log2 (m : ℕ) (e : ℤ) : (m : ℚ) * 2 ^ e < 2 ^ (m.log2 + 1 + e) := by
  rw [zpow_add₀ two_ne_zero]
  gcongr
  exact_mod_cast Nat.lt_log2_self

theorem abs_sign_apply (s : Sign) (m : ℕ) : |(s.apply m : ℚ)| = m := by
  cases s <;> simp [Sign.apply]

/-- Digits within a bound of at most fifty-three digits are rounded to a double within it. -/
theorem exists_standsFor_round (s : Sign) {m b : ℕ} {e j : ℤ} (hm : 0 < m) (he : -1074 ≤ e)
    (hb : b < 2 ^ 53) (hlo : -1074 ≤ j) (hhi : (b : ℚ) * 2 ^ j < 2 ^ (1024 : ℤ))
    (hle : (m : ℚ) * 2 ^ e ≤ b * 2 ^ j) :
    ∃ p : ℚ, StandsFor (Float.ofModel (.pack (UnpackedFloat.round .binary64 s m e))) p
      ∧ |p| ≤ b * 2 ^ j := by
  obtain ⟨t, ht⟩ : ∃ t, Format.binary64.targetExponent (totalExponent m e) = t := ⟨_, rfl⟩
  obtain ⟨r, hr, hbound, hfull, hround⟩ := exists_round_eq s hm he ht
  rw [targetExponent_eq, totalExponent] at ht
  have hscale : t ≤ j := by
    have hlt : (2 : ℚ) ^ (m.log2 + e) < 2 ^ (53 + j) := by
      refine (two_zpow_log2_le hm e).trans_lt (hle.trans_lt ?_)
      rw [zpow_add₀ two_ne_zero]
      gcongr
      exact_mod_cast hb
    have := (zpow_lt_zpow_iff_right₀ one_lt_two).1 hlt
    omega
  have hrb : (r : ℚ) * 2 ^ t ≤ b * 2 ^ j := by
    rw [two_zpow_eq hscale, ← mul_assoc] at hle ⊢
    gcongr
    exact_mod_cast hbound (b * 2 ^ (j - t).toNat) (by exact_mod_cast hle)
  have hr53 : r ≤ 2 ^ 53 := by
    refine hbound _ ((lt_two_zpow_log2 m e).le.trans ?_)
    calc (2 : ℚ) ^ (m.log2 + 1 + e) ≤ 2 ^ (53 + t) :=
          zpow_le_zpow_right₀ one_le_two (by omega)
      _ = (2 ^ 53 : ℕ) * 2 ^ t := by
          rw [zpow_add₀ two_ne_zero]
          norm_cast
  obtain ⟨m', t', hm', hlo', hhi', hshape, hdigits, htt'⟩ :=
    exists_shape hr (by omega) hfull hr53 (hrb.trans_lt hhi)
  have htarget : Format.binary64.targetExponent (totalExponent m' t') = t' := by
    rw [targetExponent_eq, totalExponent]
    omega
  refine ⟨s.apply m' * 2 ^ t', ?_, ?_⟩
  · rw [hround hm' htarget hdigits htt', standsFor_iff]
    change number? (unpack .binary64 (pack .binary64 (.finite s m' t' hm'))) = _
    rw [unpack_pack_of_shape s hm' hlo' hhi' hshape]
    rfl
  · rw [abs_mul, abs_sign_apply, abs_of_pos (by positivity), ← hdigits]
    exact hrb

end Rounding

section Sums

variable {x z : Float} {q r : ℚ} {b : ℕ} {j : ℤ}

theorem exists_sign_apply {n : ℤ} (hn : n ≠ 0) : ∃ (s : Sign) (m : ℕ), 0 < m ∧ n = s.apply m := by
  rcases lt_or_gt_of_ne hn with hneg | hpos
  · exact ⟨.negative, n.natAbs, by omega, by simp only [Sign.apply]; omega⟩
  · exact ⟨.positive, n.natAbs, by omega, by simp only [Sign.apply]; omega⟩

/-- A sum of doubles is within the bounds that the exact sum is within. -/
theorem StandsFor.exists_add (hx : StandsFor x q) (hz : StandsFor z r) (hb : b < 2 ^ 53)
    (hlo : -1074 ≤ j) (hhi : (b : ℚ) * 2 ^ j < 2 ^ (1024 : ℤ)) (hle : |q + r| ≤ b * 2 ^ j) :
    ∃ p, StandsFor (x + z) p ∧ |p| ≤ b * 2 ^ j := by
  by_cases hexact : Representable (q + r)
  · exact ⟨q + r, hx.add hz hexact, hle⟩
  obtain ⟨s, -, rfl⟩ | ⟨s, m, e, hm, hu, hq⟩ := hx.cases
  · exact absurd ⟨z, by rwa [zero_add]⟩ hexact
  obtain ⟨s', -, rfl⟩ | ⟨s', m', e', hm', hu', hr⟩ := hz.cases
  · exact absurd ⟨x, by rwa [add_zero]⟩ hexact
  have hsum : q + r = ((s.apply (decreaseExponent m e (min e e')).1
      + s'.apply (decreaseExponent m' e' (min e e')).1 : ℤ) : ℚ) * 2 ^ min e e' := by
    rw [Int.cast_add, add_mul, sign_apply_decreaseExponent s m (min_le_left e e'),
      sign_apply_decreaseExponent s' m' (min_le_right e e'), hq, hr]
  have hne : s.apply (decreaseExponent m e (min e e')).1
      + s'.apply (decreaseExponent m' e' (min e e')).1 ≠ 0 := by
    intro hzero
    rw [hzero, Int.cast_zero, zero_mul] at hsum
    exact hexact ⟨_, hsum ▸ standsFor_pack_zero .positive⟩
  obtain ⟨s'', n, hn, hdigits⟩ := exists_sign_apply hne
  have hscale : -1074 ≤ min e e' := le_min (shape_of_unpack hu).1 (shape_of_unpack hu').1
  rw [hsum, hdigits, abs_mul, abs_sign_apply, abs_of_pos (by positivity)] at hle
  obtain ⟨p, hp, hpb⟩ := exists_standsFor_round s'' hn hscale hb hlo hhi hle
  refine ⟨p, ?_, hpb⟩
  rw [← normalize_apply s'' hn, ← hdigits] at hp
  change StandsFor (Float.ofModel (.pack (UnpackedFloat.add .binary64 x.toModel.unpack
    z.toModel.unpack))) p
  rw [hu, hu']
  exact hp

end Sums

section Halves

variable {x : Float} {q : ℚ}

theorem unpack_pack_neg (u : UnpackedFloat) :
    unpack .binary64 (pack .binary64 u.neg) = (unpack .binary64 (pack .binary64 u)).neg := by
  rcases u with s | _ | s | ⟨s, m, e, hm⟩
  · rw [UnpackedFloat.neg, pack, pack, unpack_packedInfinity, unpack_packedInfinity]
    rfl
  · rfl
  · cases s <;> rfl
  · obtain ⟨exponent, mantissa, hpack⟩ := exists_pack_finite m e hm
    rw [UnpackedFloat.neg, hpack, hpack]
    simp only [unpack, unpackExponent_packComponents, unpackMantissa_packComponents,
      unpackSign_packComponents, Sign.ofBitVec_toBitVec]
    split_ifs <;> rfl

theorem roundWithAccuracy_neg (s : Sign) (m : ℕ) (e : ℤ) (acc : Accuracy) :
    roundWithAccuracy .binary64 (-s) m e acc = (roundWithAccuracy .binary64 s m e acc).neg := by
  unfold roundWithAccuracy
  simp only []
  split <;> rfl

theorem div_two_neg (u : UnpackedFloat) :
    UnpackedFloat.div .binary64 u.neg floatTwo.toModel.unpack
      = (UnpackedFloat.div .binary64 u floatTwo.toModel.unpack).neg := by
  rw [unpack_floatTwo]
  rcases u with s | _ | s | ⟨s, m, e, hm⟩
  · cases s <;> rfl
  · rfl
  · cases s <;> rfl
  · have hsign : -s / Sign.positive = -(s / Sign.positive) := by cases s <;> rfl
    simp only [UnpackedFloat.neg, UnpackedFloat.div, hsign]
    exact roundWithAccuracy_neg _ _ _ _

theorem number?_neg (u : UnpackedFloat) : number? u.neg = (number? u).map (-·) := by
  rcases u with s | _ | s | ⟨s, m, e, hm⟩
  · rfl
  · rfl
  · simp [UnpackedFloat.neg, number?]
  · simp [UnpackedFloat.neg, number?, sign_apply_neg]

theorem standsFor_halve_neg (h : StandsFor (halve (-x)) q) : StandsFor (halve x) (-q) := by
  have hneg : (halve (-x)).toModel.unpack = (halve x).toModel.unpack.neg := by
    change unpack .binary64 (pack .binary64 (UnpackedFloat.div .binary64 (-x).toModel.unpack
      floatTwo.toModel.unpack)) = (unpack .binary64 (pack .binary64 (UnpackedFloat.div .binary64
        x.toModel.unpack floatTwo.toModel.unpack))).neg
    rw [unpack_neg, div_two_neg, unpack_pack_neg]
  rw [standsFor_iff, hneg, number?_neg, Option.map_eq_some_iff] at h
  obtain ⟨p, hp, rfl⟩ := h
  rw [neg_neg, standsFor_iff, hp]

theorem StandsFor.exists_halve_of_nonneg (hx : StandsFor x q) (hq : 0 ≤ q) :
    ∃ p, StandsFor (Scalar.halve x) p ∧ |p| ≤ |q| := by
  obtain ⟨n, -, rfl, -⟩ := hx.exists_units hq
  obtain ⟨k, hk, hle, hnone⟩ := hx.halve_units
  have hkn : k ≤ n := by omega
  refine ⟨_, hk, ?_⟩
  rw [abs_of_nonneg (by positivity), abs_of_nonneg (by positivity)]
  exact mul_le_mul_of_nonneg_right (Nat.cast_le.2 hkn) (by positivity)

/-- Half of a double is no larger than the double. -/
theorem StandsFor.exists_halve (hx : StandsFor x q) :
    ∃ p, StandsFor (Scalar.halve x) p ∧ |p| ≤ |q| := by
  rcases le_total 0 q with hq | hq
  · exact hx.exists_halve_of_nonneg hq
  · obtain ⟨p, hp, hle⟩ := hx.neg.exists_halve_of_nonneg (neg_nonneg.2 hq)
    exact ⟨-p, standsFor_halve_neg hp, by rwa [abs_neg, ← abs_neg q]⟩

end Halves

section Moves

open Grid

variable {x : Float} {q : ℚ}

theorem StandsFor.exists_add_le (hx : StandsFor x q) {z : Float} {r : ℚ} (hz : StandsFor z r)
    {j : ℕ} (hj : j ≤ 1021) (hle : |q + r| ≤ 5 * 2 ^ j) :
    ∃ p, StandsFor (x + z) p ∧ |p| ≤ 5 * 2 ^ j := by
  have hhi : ((5 : ℕ) : ℚ) * 2 ^ (j : ℤ) < 2 ^ (1024 : ℤ) := by
    calc ((5 : ℕ) : ℚ) * 2 ^ (j : ℤ) < 2 ^ (3 : ℤ) * 2 ^ (j : ℤ) := by gcongr; norm_num
      _ = 2 ^ (3 + j : ℤ) := (zpow_add₀ two_ne_zero _ _).symm
      _ ≤ 2 ^ (1024 : ℤ) := zpow_le_zpow_right₀ one_le_two (by omega)
  have hsum := hx.exists_add (b := 5) (j := j) hz (by norm_num) (by omega) hhi
  rw [Nat.cast_ofNat, zpow_natCast] at hsum
  exact hsum hle

/-- What a move comes to is within a bound that leaves room for doubling and for ten more. -/
theorem StandsFor.exists_apply (hx : StandsFor x q) (s : Grid.Sign) (m : Move) {j : ℕ}
    (hj : j ≤ 1021) (hdouble : 2 * |q| ≤ 5 * 2 ^ j) (hadd : |q| + 10 ≤ 5 * 2 ^ j) :
    ∃ p, StandsFor (m.apply s x) p ∧ |p| ≤ 5 * 2 ^ j := by
  have hadvance : ∀ n ∈ [1, 5, 10], ∃ p, StandsFor (s.advance x n) p ∧ |p| ≤ 5 * 2 ^ j := by
    intro n hn
    have hten : ((n : ℕ) : ℚ) ≤ 10 := by
      simp only [List.mem_cons, List.not_mem_nil, or_false] at hn
      rcases hn with rfl | rfl | rfl <;> norm_num
    have hstep : |(n : ℚ)| = n := abs_of_nonneg n.cast_nonneg
    cases s with
    | positive =>
      have habs := abs_add_le q n
      exact hx.exists_add_le (standsFor_ofNat hn) hj (by linarith)
    | negative =>
      have habs := abs_add_le q (-n)
      rw [abs_neg] at habs
      change ∃ p, StandsFor (x - _) p ∧ _
      rw [float_sub_eq]
      exact hx.exists_add_le (standsFor_ofNat hn).neg hj (by linarith)
  cases m with
  | double =>
    have htwice : |q + q| = 2 * |q| := by rw [← two_mul, abs_mul, abs_two]
    exact hx.exists_add_le hx hj (htwice.trans_le hdouble)
  | addFive => exact hadvance 5 (by simp)
  | addOne => exact hadvance 1 (by simp)
  | addTen => exact hadvance 10 (by simp)
  | halve =>
    obtain ⟨p, hp, hle⟩ := hx.exists_halve
    exact ⟨p, hp, by linarith⟩

theorem StandsFor.isInf_eq_false (hx : StandsFor x q) : x.isInf = false := by
  change x.toModel.unpack.isInf = false
  obtain ⟨s, hu, -⟩ | ⟨s, m, e, hm, hu, -⟩ := hx.cases <;> rw [hu] <;> rfl

/-- A walk of at most 1021 moves comes to a finite number. -/
theorem exists_standsFor_valueOf (s : Grid.Sign) (ms : List Move) (h : ms.length ≤ 1021) :
    ∃ q : ℚ, StandsFor (valueOf s ms) q ∧ |q| ≤ 5 * 2 ^ ms.length ∧ (ms = [] → q = 0) := by
  induction ms using List.reverseRecOn with
  | nil => exact ⟨0, standsFor_pack_zero .positive, by norm_num, fun _ => rfl⟩
  | append_singleton ms m ih =>
    rw [List.length_append, List.length_singleton] at h ⊢
    obtain ⟨q, hq, hle, hzero⟩ := ih (by omega)
    have hdouble : 2 * |q| ≤ 5 * 2 ^ (ms.length + 1) := by
      rw [pow_succ]
      linarith
    have hadd : |q| + 10 ≤ 5 * 2 ^ (ms.length + 1) := by
      rcases ms with _ | ⟨m', ms⟩
      · rw [hzero rfl]
        norm_num
      · have htwo : (2 : ℚ) ≤ 2 ^ (m' :: ms).length := by
          rw [List.length_cons]
          exact le_self_pow₀ one_le_two (Nat.succ_ne_zero _)
        rw [pow_succ]
        linarith
    obtain ⟨p, hp, hpb⟩ := hq.exists_apply s m h hdouble hadd
    exact ⟨p, by rwa [valueOf_concat], hpb, by simp⟩

end Moves

end HexPatterns
