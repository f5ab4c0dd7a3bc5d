import Mathlib
import HexPatterns.Generator
import HexPatterns.Proofs.Doubles
import HexPatterns.Proofs.Order
import HexPatterns.Proofs.Walk

/-!
# What the spelled digits come to

A pattern that spells the leading digits of a normal number comes to that number, cut off behind its
seventh binary digit (`spellDigits_truncates`). Doubles count along without rounding, since no
number on the way has more than eight digits and none leaves their range. What a walk comes by is
kept track of move by move (`Leads`): after `i` digits it is at twice the number that these digits
write, and the pairs of a halving and a doubling bring it back to where it was.

The leading digit is always taken to be a one. A subnormal number has none there, so its pattern
comes close to it only if its fraction starts with seven ones (`bits_close_iff`).
-/

namespace HexPatterns

open Grid Synthesis

/-- The number that a walk of the sign counts by. -/
def Grid.Sign.unit : Sign → ℚ
  | .positive => 1
  | .negative => -1

theorem Grid.Sign.abs_unit (s : Sign) : |s.unit| = 1 := by
  cases s <;> simp [unit]

theorem Grid.Sign.cast_sign_unit (s : Sign) : (SignType.sign s.unit : ℚ) = s.unit := by
  cases s <;> simp [unit]

theorem Grid.Sign.sign_unit_mul (s : Sign) {q : ℚ} (hq : 0 < q) :
    SignType.sign (s.unit * q) = SignType.sign s.unit := by
  rw [sign_mul, sign_pos hq, mul_one]

section Leads

/-- The moves lead from one number to another, and all numbers on the way, the two ends among them,
have a property. -/
inductive Leads (P : ℚ → Prop) (s : Sign) : ℚ → List Move → ℚ → Prop
  | nil {q : ℚ} : P q → Leads P s q [] q
  | cons {q r : ℚ} {m : Move} {ms : List Move} :
    P q → Leads P s (m.apply s q) ms r → Leads P s q (m :: ms) r

variable {P : ℚ → Prop} {s : Sign} {q r t c : ℚ} {m : Move} {ms ns p : List Move}

theorem Leads.append (h : Leads P s q ms r) (h' : Leads P s r ns t) :
    Leads P s q (ms ++ ns) t := by
  induction h with
  | nil _ => exact h'
  | cons hq _ ih => exact .cons hq (ih h')

theorem Leads.foldl_eq (h : Leads P s q ms r) : ms.foldl (fun x m => m.apply s x) q = r := by
  induction h with
  | nil _ => rfl
  | cons _ _ ih => exact ih

/-- The property holds after the first moves, however many. -/
theorem Leads.foldl_prefix (h : Leads P s q ms r) (hp : p <+: ms) :
    P (p.foldl (fun x m => m.apply s x) q) := by
  induction h generalizing p with
  | nil hq =>
    rw [List.prefix_nil.1 hp]
    exact hq
  | cons hq _ ih =>
    obtain rfl | ⟨p', rfl, hp'⟩ := List.prefix_cons_iff.1 hp
    · exact hq
    · exact ih hp'

/-- Moves that only come by numbers of doubles are exact, one after the other. -/
theorem Leads.standsFor (h : Leads P s q ms r) (hP : ∀ q, P q → Representable q) {x : Float}
    (hx : StandsFor x q) (hp : p <+: ms) :
    StandsFor (p.foldl (fun x m => m.apply s x) x) (p.foldl (fun x m => m.apply s x) q) := by
  induction h generalizing p x with
  | nil _ =>
    rw [List.prefix_nil.1 hp]
    exact hx
  | cons _ hms ih =>
    obtain rfl | ⟨p', rfl, hp'⟩ := List.prefix_cons_iff.1 hp
    · exact hx
    · refine ih (hx.apply s _ ?_) hp'
      exact hP _ (hms.foldl_prefix List.nil_prefix)

/-- A move that scales, over and over. -/
theorem leads_replicate (hm : ∀ q : ℚ, m.apply s q = q * c) (k : ℕ)
    (hP : ∀ i ≤ k, P (q * c ^ i)) : Leads P s q (List.replicate k m) (q * c ^ k) := by
  induction k generalizing q with
  | zero =>
    have hq := hP 0 le_rfl
    rw [pow_zero, mul_one] at hq ⊢
    exact .nil hq
  | succ k ih =>
    have hq := hP 0 (Nat.zero_le _)
    rw [pow_zero, mul_one] at hq
    refine .cons hq ?_
    rw [hm, pow_succ', ← mul_assoc]
    refine ih fun i hi => ?_
    rw [mul_assoc, ← pow_succ']
    exact hP (i + 1) (by omega)

/-- Pairs of a halving and a doubling lead nowhere else. -/
theorem leads_pairs (hq : P q) (hhalf : P (q / 2)) (k : ℕ) :
    Leads P s q (List.replicate k [Move.halve, Move.double]).flatten q := by
  have hback : Move.double.apply s (Move.halve.apply s q) = q := div_mul_cancel₀ q two_ne_zero
  induction k with
  | zero => exact .nil hq
  | succ k ih =>
    refine .cons hq (.cons hhalf ?_)
    rw [hback]
    exact ih

end Leads

section Digits

variable {P : ℚ → Prop} {s : Sign}

theorem apply_addOne (q : ℚ) : Move.addOne.apply s q = q + s.unit := by
  cases s with
  | positive => rfl
  | negative => exact sub_eq_add_neg q 1

/-- The leading digits of a number, with one digit more. -/
theorem div_two_pow_succ (n k : ℕ) :
    n / 2 ^ k = 2 * (n / 2 ^ (k + 1)) + (n.testBit k).toNat := by
  rw [Nat.toNat_testBit, pow_succ, ← Nat.div_div_eq_div_mul]
  omega

section

variable (hP : ∀ n : ℕ, n < 2 ^ 8 → P (s.unit * n))

include hP

theorem leads_digit {n : ℕ} (hn : n < 2 ^ 7) (digit : Bool) :
    Leads P s (s.unit * n) (if digit then [.addOne] else []) (s.unit * (n + digit.toNat : ℕ)) := by
  have hstart := hP n (by omega)
  cases digit with
  | false => exact .nil hstart
  | true =>
    have hsum : Move.addOne.apply s (s.unit * n) = s.unit * (n + 1 : ℕ) := by
      rw [apply_addOne]
      push_cast
      ring
    refine .cons hstart ?_
    rw [hsum]
    exact .nil (hP _ (by omega))

theorem leads_double_pairs {n : ℕ} (hn : n < 2 ^ 7) (k : ℕ) :
    Leads P s (s.unit * n) (.double :: (List.replicate k [Move.halve, Move.double]).flatten)
      (s.unit * (2 * n : ℕ)) := by
  have htwice : Move.double.apply s (s.unit * n) = s.unit * (2 * n : ℕ) := by
    change s.unit * n * 2 = _
    push_cast
    ring
  have hhalf : s.unit * (2 * n : ℕ) / 2 = s.unit * n := by
    push_cast
    ring
  refine .cons (hP n (by omega)) ?_
  rw [htwice]
  refine leads_pairs (hP _ (by omega)) ?_ k
  rw [hhalf]
  exact hP n (by omega)

/-- The moves of one digit: it is put behind what is there, and all is doubled. -/
theorem leads_digitMoves {digits i h : ℕ} (hh : h < 2 ^ 6) :
    Leads P s (s.unit * (2 * h : ℕ)) (digitMoves digits i)
      (s.unit * (2 * (2 * h + (digits.testBit (6 - i)).toNat) : ℕ)) := by
  have hbit := Bool.toNat_le (digits.testBit (6 - i))
  exact (leads_digit hP (by omega) (digits.testBit (6 - i))).append
    (leads_double_pairs hP (by omega) (i + 1))

/-- After `i` digits, a walk is at twice the number of these digits, so that adding the next digit
and doubling leads to the same for one digit more. -/
theorem leads_digits {digits : ℕ} (hd : digits < 2 ^ 7) {i : ℕ} (hi : i ≤ 7) :
    Leads P s 0 ((List.range i).flatMap (digitMoves digits))
      (s.unit * (2 * (digits / 2 ^ (7 - i)) : ℕ)) := by
  induction i with
  | zero =>
    have hstart := hP 0 (by norm_num)
    rw [Nat.cast_zero, mul_zero] at hstart
    rw [Nat.sub_zero, Nat.div_eq_of_lt hd, mul_zero, Nat.cast_zero, mul_zero]
    exact .nil hstart
  | succ i ih =>
    have hstep := div_two_pow_succ digits (6 - i)
    have hplace : 6 - i + 1 = 7 - i := by omega
    have hplace' : 7 - (i + 1) = 6 - i := by omega
    rw [hplace] at hstep
    have hhead : digits / 2 ^ (7 - i) < 2 ^ 6 := by
      have hmore : digits / 2 ^ (6 - i) ≤ digits := Nat.div_le_self _ _
      omega
    rw [List.range_succ, List.flatMap_append, List.flatMap_singleton, hplace', hstep]
    exact (ih (by omega)).append (leads_digitMoves hP hhead)

end

theorem leads_exponentMoves {q : ℚ} {e : ℤ}
    (hP : ∀ i : ℤ, min 0 e ≤ i → i ≤ max 0 e → P (q * 2 ^ i)) :
    Leads P s q (exponentMoves e) (q * 2 ^ e) := by
  rw [exponentMoves]
  by_cases he : e < 0
  · have hpow : ∀ k : ℕ, ((2 : ℚ)⁻¹) ^ k = 2 ^ (-(k : ℤ)) := by
      intro k
      rw [inv_pow, zpow_neg, zpow_natCast]
    have hend : (2 : ℚ) ^ e = 2⁻¹ ^ e.natAbs := by
      rw [hpow]
      congr 1
      omega
    rw [if_pos he, hend]
    refine leads_replicate (m := .halve) (fun q => div_eq_mul_inv q 2) _ fun i hi => ?_
    rw [hpow]
    exact hP _ (by omega) (by omega)
  · have hend : (2 : ℚ) ^ e = 2 ^ e.natAbs := by
      rw [← zpow_natCast]
      congr 1
      omega
    rw [if_neg he, hend]
    refine leads_replicate (m := .double) (fun q => rfl) _ fun i hi => ?_
    rw [← zpow_natCast]
    exact hP _ (by omega) (by omega)

end Digits

section Truncation

/-- The number without what stands behind its `n` leading binary digits. -/
def truncate (n : ℕ) (q : ℚ) : ℚ :=
  let place := Int.log 2 |q| + 1 - n
  SignType.sign q * ⌊|q| / 2 ^ place⌋ * 2 ^ place

/-- The magnitude is a whole number of at most `n` binary digits, scaled by a power of two. -/
def DigitsWithin (n : ℕ) (q : ℚ) : Prop :=
  ∃ (k : ℕ) (j : ℤ), k < 2 ^ n ∧ |q| = k * 2 ^ j

theorem log_abs {q : ℚ} {m : ℕ} {e : ℤ} (hm : 0 < m) (h : |q| = m * 2 ^ e) :
    Int.log 2 |q| = m.log2 + e := by
  have hpos : 0 < |q| := by
    rw [h]
    positivity
  have hpow : (0 : ℚ) < 2 ^ e := by positivity
  refine le_antisymm ?_ ?_
  · rw [← Int.lt_add_one_iff, ← Int.lt_zpow_iff_log_lt one_lt_two hpos, h, add_right_comm,
      Nat.cast_ofNat, zpow_add₀ two_ne_zero]
    refine mul_lt_mul_of_pos_right ?_ hpow
    exact_mod_cast Nat.lt_log2_self
  · rw [← Int.zpow_le_iff_le_log one_lt_two hpos, h, Nat.cast_ofNat, zpow_add₀ two_ne_zero]
    refine mul_le_mul_of_nonneg_right ?_ hpow.le
    exact_mod_cast Nat.log2_self_le hm.ne'

/-- A number of `n + d` digits loses the last `d`. -/
theorem truncate_eq {q : ℚ} {m n d : ℕ} {e : ℤ} (hm : 0 < m) (h : |q| = m * 2 ^ e)
    (hlog : m.log2 + 1 = n + d) :
    truncate n q = SignType.sign q * (m / 2 ^ d : ℕ) * 2 ^ (e + d) := by
  have hplace : Int.log 2 |q| + 1 - n = e + d := by
    rw [log_abs hm h]
    omega
  have hfloor : ⌊|q| / 2 ^ (e + d)⌋ = (m / 2 ^ d : ℕ) := by
    have hquot : |q| / 2 ^ (e + d) = m / (2 ^ d : ℕ) := by
      rw [h, zpow_add₀ two_ne_zero, zpow_natCast, mul_comm (m : ℚ),
        mul_div_mul_left _ _ (zpow_ne_zero e two_ne_zero)]
      push_cast
      rfl
    rw [hquot, Rat.floor_natCast_div_natCast]
    rfl
  rw [truncate]
  simp only [hplace, hfloor]
  rfl

end Truncation

section Target

variable {x : Float} (hfin : (Binary64.ofFloat x).isFinite = true)
  (hpos : 0 < (Binary64.ofFloat x).significand)

include hfin hpos

theorem isZero_eq_false : Scalar.isZero x = false := by
  rw [← Bool.not_eq_true, Scalar.isZero_iff, Binary64.unpack_of_pos hfin hpos]
  simp

/-- A walk to a double that is not zero has its sign. -/
theorem ofTarget_eq :
    Sign.ofTarget x = if (Binary64.ofFloat x).negative then .negative else .positive := by
  have hlt : Scalar.lt Scalar.zero x = true ↔ (Binary64.ofFloat x).negative = false := by
    rw [Scalar.lt_float, Scalar.unpack_zero, Binary64.unpack_of_pos hfin hpos, Binary64.sign]
    cases (Binary64.ofFloat x).negative <;>
      simp [Float.Model.UnpackedFloat.lt, Float.Model.UnpackedFloat.compare]
  have heq : Scalar.eq Scalar.zero x = false := by
    rw [← Bool.not_eq_true, Scalar.eq_float, Scalar.unpack_zero, Binary64.unpack_of_pos hfin hpos]
    cases (Binary64.ofFloat x).sign <;>
      simp [Float.Model.UnpackedFloat.beq, Float.Model.UnpackedFloat.compare]
  rw [Sign.ofTarget, Scalar.le, heq, Bool.or_false]
  cases hneg : (Binary64.ofFloat x).negative <;> simp [hneg] at hlt <;> simp [hlt]

theorem value_eq :
    (Binary64.ofFloat x).value = (Sign.ofTarget x).unit * (Binary64.ofFloat x).significand
      * 2 ^ (Binary64.ofFloat x).scale := by
  rw [Binary64.value, ofTarget_eq hfin hpos]
  cases (Binary64.ofFloat x).negative <;> simp [Sign.unit]

theorem spellDigits_eq :
    spellDigits x = String.ofList (((Sign.ofTarget x).header
      ++ significandMoves (.ofFloat x)).map Move.symbol) := by
  have hne : (x == 0.0) = false := isZero_eq_false hfin hpos
  simp [spellDigits, hne]

theorem replay_spellDigits {α : Type} [Scalar α] :
    ∃ w : Walk α, replay (spellDigits x).toList = some w ∧ w.sign = Sign.ofTarget x
      ∧ w.value = valueOf (Sign.ofTarget x) (significandMoves (.ofFloat x)) := by
  rw [spellDigits_eq hfin hpos, String.toList_ofList, replay_header_append]
  exact ⟨_, rfl, rfl, rfl⟩

end Target

section Significand

variable {P : ℚ → Prop} {s : Sign} {b : Binary64}

theorem leadingDigits_eq (b : Binary64) : leadingDigits b = (2 ^ 52 + b.fraction) / 2 ^ 46 := by
  rw [leadingDigits, Nat.shiftRight_eq_div_pow, Nat.one_shiftLeft]
  rfl

/-- The seven digits, and the exponent behind them. -/
theorem leads_significandMoves (hf : b.fraction < 2 ^ 52)
    (hdigits : ∀ n : ℕ, n < 2 ^ 8 → P (s.unit * n))
    (hscaled : ∀ i : ℤ, min 0 ((b.exponent : ℤ) - 1030) ≤ i → i ≤ max 0 ((b.exponent : ℤ) - 1030) →
      P (s.unit * (2 * leadingDigits b : ℕ) * 2 ^ i)) :
    Leads P s 0 (significandMoves b)
      (s.unit * leadingDigits b * 2 ^ ((b.exponent : ℤ) - 1029)) := by
  have hd : leadingDigits b < 2 ^ 7 := by
    rw [leadingDigits_eq]
    omega
  have hexp : (b.exponent : ℤ) - 1023 - digitCount = b.exponent - 1030 := by
    rw [digitCount]
    omega
  have hall := leads_digits hdigits hd (i := 7) le_rfl
  have hend : s.unit * leadingDigits b * 2 ^ ((b.exponent : ℤ) - 1029)
      = s.unit * (2 * leadingDigits b : ℕ) * 2 ^ ((b.exponent : ℤ) - 1030) := by
    have hone : (b.exponent : ℤ) - 1029 = b.exponent - 1030 + 1 := by omega
    rw [hone, zpow_add_one₀ two_ne_zero]
    push_cast
    ring
  rw [Nat.sub_self, pow_zero, Nat.div_one] at hall
  rw [significandMoves, hexp, hend]
  exact hall.append (leads_exponentMoves hscaled)

theorem valueOf_significandMoves (hf : b.fraction < 2 ^ 52) :
    (valueOf s (significandMoves b) : ℚ)
      = s.unit * leadingDigits b * 2 ^ ((b.exponent : ℤ) - 1029) :=
  (leads_significandMoves (P := fun _ => True) hf (fun _ _ => trivial)
    (fun _ _ _ => trivial)).foldl_eq

/-- A double with at most eight digits stands for the number. -/
def EightDigitDouble (q : ℚ) : Prop :=
  DigitsWithin 8 q ∧ Representable q

theorem abs_unit_mul (s : Sign) (n : ℕ) (j : ℤ) : |s.unit * n * 2 ^ j| = n * 2 ^ j := by
  rw [abs_mul, abs_mul, s.abs_unit, one_mul, Nat.abs_cast, abs_of_pos (by positivity)]

theorem eightDigitDouble_scaled {n : ℕ} {j : ℤ} (hn : n < 2 ^ 8) (hlo : -1022 ≤ n.log2 + j)
    (hhi : n.log2 + j ≤ 1023) : EightDigitDouble (s.unit * n * 2 ^ j) :=
  ⟨⟨n, j, hn, abs_unit_mul s n j⟩,
    representable_of_abs_eq (abs_unit_mul s n j) (by omega) hlo hhi⟩

/-- Normal numbers are spelled without leaving the range of doubles. -/
theorem leads_normal (hf : b.fraction < 2 ^ 52) (hlo : 1 ≤ b.exponent) (hhi : b.exponent ≤ 2046) :
    Leads EightDigitDouble s 0 (significandMoves b)
      (s.unit * leadingDigits b * 2 ^ ((b.exponent : ℤ) - 1029)) := by
  refine leads_significandMoves hf (fun n hn => ?_) (fun i hi hi' => ?_)
  · have hlog : n.log2 < 1023 := by
      rcases Nat.eq_zero_or_pos n with rfl | hpos
      · decide
      · exact ((Nat.log2_lt hpos.ne').2 hn).trans (by norm_num)
    have hwhole := eightDigitDouble_scaled (s := s) (j := 0) hn (by omega) (by omega)
    rwa [zpow_zero, mul_one] at hwhole
  · have hdigits : 2 ^ 7 ≤ 2 * leadingDigits b ∧ 2 * leadingDigits b < 2 ^ 8 := by
      rw [leadingDigits_eq]
      omega
    have hlog : (2 * leadingDigits b).log2 = 7 := (Nat.log2_eq_iff (by omega)).2 hdigits
    exact eightDigitDouble_scaled hdigits.2 (by omega) (by omega)

end Significand

section Results

variable {x : Float}

theorem truncate_value (hlo : 1 ≤ (Binary64.ofFloat x).exponent)
    (hfin : (Binary64.ofFloat x).isFinite = true) :
    truncate 7 (Binary64.ofFloat x).value
      = (Sign.ofTarget x).unit * leadingDigits (.ofFloat x)
        * 2 ^ (((Binary64.ofFloat x).exponent : ℤ) - 1029) := by
  have h0 : (Binary64.ofFloat x).exponent ≠ 0 := by omega
  have hsig := Binary64.significand_normal h0
  have hlt := Binary64.fraction_lt x
  have hpos : 0 < (Binary64.ofFloat x).significand := by omega
  have hvalue := value_eq hfin hpos
  have hlog : (Binary64.ofFloat x).significand.log2 = 52 :=
    (Nat.log2_eq_iff hpos.ne').2 ⟨by omega, by omega⟩
  have habs : |(Binary64.ofFloat x).value|
      = (Binary64.ofFloat x).significand * 2 ^ (Binary64.ofFloat x).scale := by
    rw [hvalue, abs_unit_mul]
  have hsign : (SignType.sign (Binary64.ofFloat x).value : ℚ) = (Sign.ofTarget x).unit := by
    rw [hvalue, mul_assoc, Sign.sign_unit_mul _ (by positivity), Sign.cast_sign_unit]
  rw [truncate_eq (d := 46) hpos habs (by omega), hsign, leadingDigits_eq, hsig,
    Binary64.scale_normal h0]
  congr 2
  push_cast
  ring

/-- The digits of a normal number spell it cut off behind the seventh, and doubles count along
without ever rounding. -/
theorem spellDigits_truncates (hlo : 1 ≤ (Binary64.ofFloat x).exponent)
    (hhi : (Binary64.ofFloat x).exponent ≤ 2046) :
    Sign.ofTarget x = (if (Binary64.ofFloat x).negative then .negative else .positive)
      ∧ ∃ ms, spellDigits x
          = String.ofList (((Sign.ofTarget x).header ++ ms).map Move.symbol)
        ∧ (valueOf (Sign.ofTarget x) ms : ℚ)
          = (if (Binary64.ofFloat x).negative then -1 else 1)
            * ((2 ^ 52 + (Binary64.ofFloat x).fraction) / 2 ^ 46 : ℕ)
            * 2 ^ (((Binary64.ofFloat x).exponent : ℤ) - 1029)
        ∧ (valueOf (Sign.ofTarget x) ms : ℚ) = truncate 7 (Binary64.ofFloat x).value
        ∧ (∃ w : Walk ℚ, replay (spellDigits x).toList = some w ∧ w.sign = Sign.ofTarget x
          ∧ w.value = valueOf (Sign.ofTarget x) ms)
        ∧ (∃ w : Walk Float, replay (spellDigits x).toList = some w ∧ w.sign = Sign.ofTarget x
          ∧ w.value = valueOf (Sign.ofTarget x) ms)
        ∧ ∀ p, p <+: ms → DigitsWithin 8 (valueOf (Sign.ofTarget x) p)
          ∧ StandsFor (valueOf (Sign.ofTarget x) p) (valueOf (Sign.ofTarget x) p) := by
  have hfin : (Binary64.ofFloat x).isFinite = true := by
    rw [Binary64.isFinite, decide_eq_true_iff]
    omega
  have hpos : 0 < (Binary64.ofFloat x).significand := by
    rw [Binary64.significand_normal (by omega)]
    omega
  have hleads := leads_normal (s := Sign.ofTarget x) (Binary64.fraction_lt x) hlo hhi
  have hvalue := valueOf_significandMoves (s := Sign.ofTarget x) (Binary64.fraction_lt x)
  refine ⟨ofTarget_eq hfin hpos, significandMoves (.ofFloat x), spellDigits_eq hfin hpos, ?_, ?_,
    replay_spellDigits hfin hpos, replay_spellDigits hfin hpos, fun p hp => ⟨?_, ?_⟩⟩
  · rw [hvalue, leadingDigits_eq, ofTarget_eq hfin hpos]
    cases (Binary64.ofFloat x).negative <;> rfl
  · rw [hvalue, truncate_value hlo hfin]
  · exact (hleads.foldl_prefix hp).1
  · refine hleads.standsFor (fun q hq => hq.2) ?_ hp
    exact standsFor_pack_zero .positive

theorem spellDigits_truncates_largest :
    Binary64.ofFloat (Float.ofBits 0xffefffffffffffff) = ⟨true, 2046, 2 ^ 52 - 1⟩
      ∧ ∃ ms, spellDigits (Float.ofBits 0xffefffffffffffff)
          = String.ofList ((Sign.negative.header ++ ms).map Move.symbol)
        ∧ (valueOf .negative ms : ℚ) = -127 * 2 ^ (1017 : ℤ)
        ∧ ∀ p, p <+: ms → DigitsWithin 8 (valueOf .negative p)
          ∧ StandsFor (valueOf .negative p) (valueOf .negative p) := by
  have hbits : Binary64.ofFloat (Float.ofBits 0xffefffffffffffff) = ⟨true, 2046, 2 ^ 52 - 1⟩ := by
    decide
  obtain ⟨hsign, ms, hspell, hvalue, -, -, -, hexact⟩ :=
    @spellDigits_truncates (Float.ofBits 0xffefffffffffffff) (by rw [hbits]; decide)
      (by rw [hbits])
  rw [hbits, if_pos rfl] at hsign
  rw [hsign] at hspell hvalue hexact
  refine ⟨hbits, ms, hspell, ?_, hexact⟩
  rw [hvalue, hbits]
  norm_num

theorem scaled_close_iff {m n : ℕ} {e : ℤ} :
    ((m : ℚ) * 2 ^ e ≤ n * 2 ^ e ∧ (n : ℚ) * 2 ^ e - m * 2 ^ e < n * 2 ^ e / 64)
      ↔ m ≤ n ∧ 64 * n < n + 64 * m := by
  have hpow : (0 : ℚ) < 2 ^ e := by positivity
  have hdiff : (n : ℚ) * 2 ^ e - m * 2 ^ e < n * 2 ^ e / 64 ↔ (64 : ℚ) * n < n + 64 * m := by
    rw [← sub_mul, mul_div_right_comm, mul_lt_mul_iff_left₀ hpow]
    constructor <;> intro h <;> linarith
  rw [hdiff, mul_le_mul_iff_left₀ hpow]
  norm_cast

/-- A unit of the leading digits is `2 ^ 45` units of a subnormal number, and `2 ^ 46` of others. -/
theorem leadingDigits_close_iff {b : Binary64} (hf : b.fraction < 2 ^ 52) :
    ((leadingDigits b : ℚ) * 2 ^ ((b.exponent : ℤ) - 1029) ≤ b.significand * 2 ^ b.scale
      ∧ (b.significand : ℚ) * 2 ^ b.scale - leadingDigits b * 2 ^ ((b.exponent : ℤ) - 1029)
        < b.significand * 2 ^ b.scale / 64)
      ↔ 1 ≤ b.exponent ∨ 127 * 2 ^ 45 ≤ b.fraction := by
  have hshift : ∀ d : ℕ, (b.exponent : ℤ) - 1029 = b.scale + d →
      (leadingDigits b : ℚ) * 2 ^ ((b.exponent : ℤ) - 1029)
        = (leadingDigits b * 2 ^ d : ℕ) * 2 ^ b.scale := by
    intro d hd
    rw [hd, zpow_add₀ two_ne_zero, zpow_natCast]
    push_cast
    ring
  by_cases h0 : b.exponent = 0
  · have hscale := Binary64.scale_subnormal h0
    rw [hshift 45 (by omega), scaled_close_iff, leadingDigits_eq, Binary64.significand_subnormal h0]
    omega
  · have hscale := Binary64.scale_normal h0
    rw [hshift 46 (by omega), scaled_close_iff, leadingDigits_eq, Binary64.significand_normal h0]
    omega

theorem readNumber_eq_ok_iff {g : Generator} {args : List String} :
    g.readNumber args = .ok x ↔ ∃ literal, args = [literal]
      ∧ Decimal.readFloat? literal.toList = some x ∧ (Binary64.ofFloat x).isFinite = true := by
  match args with
  | [] => simp [Generator.readNumber]
  | [literal] =>
    have hfilter : (Decimal.readFloat? literal.toList).filter Float.isFinite = some x
        ↔ Decimal.readFloat? literal.toList = some x ∧ (Binary64.ofFloat x).isFinite = true := by
      rw [Option.filter_eq_some_iff, Binary64.isFinite_iff]
    simp only [Generator.readNumber, List.cons.injEq, and_true, exists_eq_left', ← hfilter]
    split <;> simp [*]
  | _ :: _ :: _ => simp [Generator.readNumber]

/-- The generator makes a pattern of every number that it reads. Apart from zero the pattern comes
to a number of the same sign, which is close below in magnitude just for normal numbers and for the
greatest of the subnormal ones. -/
theorem bits_close_iff {args : List String} (hx : Generator.bits.readNumber args = .ok x)
    (hne : (Binary64.ofFloat x).value ≠ 0) (t : Token) (solver : Solver Float) :
    ∃ (literal : Token) (w : Walk ℚ),
      Generator.bits.generate args t solver = .ok (literal, solver, [])
        ∧ literal.content = spellDigits x
        ∧ replay literal.content.toList = some w ∧ w.sign = Sign.ofTarget x
        ∧ StandsFor x (Binary64.ofFloat x).value
        ∧ SignType.sign w.value = SignType.sign (Binary64.ofFloat x).value
        ∧ ((|w.value| ≤ |(Binary64.ofFloat x).value|
            ∧ |(Binary64.ofFloat x).value| - |w.value| < |(Binary64.ofFloat x).value| / 64)
          ↔ 1 ≤ (Binary64.ofFloat x).exponent ∨ 127 * 2 ^ 45 ≤ (Binary64.ofFloat x).fraction) := by
  obtain ⟨-, -, -, hfin⟩ := readNumber_eq_ok_iff.1 hx
  have hpos : 0 < (Binary64.ofFloat x).significand := by
    refine Nat.pos_of_ne_zero fun hzero => hne ?_
    rw [Binary64.value, hzero]
    simp
  have hf := Binary64.fraction_lt x
  obtain ⟨w, hw, hsign, hvalue⟩ := replay_spellDigits (α := ℚ) hfin hpos
  rw [valueOf_significandMoves hf] at hvalue
  refine ⟨⟨.literal, t.position, spellDigits x, t.origin⟩, w, ?_, rfl, hw, hsign, ⟨hfin, rfl⟩,
    ?_, ?_⟩
  · simp [Generator.generate, hx, bind, Except.bind, pure, Except.pure]
  · have hdigits : 0 < leadingDigits (.ofFloat x) := by
      rw [leadingDigits_eq]
      omega
    rw [hvalue, value_eq hfin hpos, mul_assoc, mul_assoc, Sign.sign_unit_mul _ (by positivity),
      Sign.sign_unit_mul _ (by positivity)]
  · rw [hvalue, value_eq hfin hpos, abs_unit_mul, abs_unit_mul]
    exact leadingDigits_close_iff hf

theorem bits_close_iff_subnormal :
    let t : Token := ⟨.directive, ⟨0, 0⟩, "g bits 2.22e-308", "main.macrohex"⟩
    let solver : Solver Float := .new ⟨1000, 64, 0, 100⟩ fun _ _ => 0
    let q : ℚ := 4493330023422296 * 2 ^ (-1074 : ℤ)
    Generator.bits.readNumber ["2.22e-308"] = .ok (Float.ofBits 4493330023422296)
      ∧ ∃ (literal : Token) (w : Walk ℚ),
        Generator.bits.generate ["2.22e-308"] t solver = .ok (literal, solver, [])
          ∧ replay literal.content.toList = some w
          ∧ |w.value| ≤ |q| ∧ |q| - |w.value| < |q| / 64 := by
  intro t solver q
  have hbits : Binary64.ofFloat (Float.ofBits 4493330023422296) = ⟨false, 0, 4493330023422296⟩ := by
    decide
  have hread : Generator.bits.readNumber ["2.22e-308"] = .ok (Float.ofBits 4493330023422296) := by
    refine readNumber_eq_ok_iff.2 ⟨_, rfl, by decide +kernel, by rw [hbits]; rfl⟩
  have hq : (Binary64.ofFloat (Float.ofBits 4493330023422296)).value = q := by
    simp [hbits, Binary64.value, Binary64.significand, Binary64.scale, q]
  have hne : (Binary64.ofFloat (Float.ofBits 4493330023422296)).value ≠ 0 := by
    rw [hq]
    positivity
  obtain ⟨literal, w, hgen, -, hw, -, -, -, hiff⟩ := bits_close_iff hread hne t solver
  rw [hq, hbits] at hiff
  exact ⟨hread, literal, w, hgen, hw, hiff.2 (.inr (by decide))⟩

/-- The least double is spelled as a number far above it. -/
theorem leastDouble_overshoots :
    ∃ (x : Float) (w : Walk ℚ), Generator.bits.readNumber ["5e-324"] = .ok x
      ∧ (Binary64.ofFloat x).value = 2 ^ (-1074 : ℤ)
      ∧ replay (spellDigits x).toList = some w ∧ w.value = 2 ^ (-1023 : ℤ)
      ∧ |(Binary64.ofFloat x).value| < |w.value| := by
  have hbits : Binary64.ofFloat (Float.ofBits 1) = ⟨false, 0, 1⟩ := by decide
  have hfin : (Binary64.ofFloat (Float.ofBits 1)).isFinite = true := by rw [hbits]; rfl
  have hpos : 0 < (Binary64.ofFloat (Float.ofBits 1)).significand := by rw [hbits]; decide
  have hread : Generator.bits.readNumber ["5e-324"] = .ok (Float.ofBits 1) :=
    readNumber_eq_ok_iff.2 ⟨_, rfl, by decide +kernel, hfin⟩
  have hleast : (Binary64.ofFloat (Float.ofBits 1)).value = 2 ^ (-1074 : ℤ) := by
    simp [hbits, Binary64.value, Binary64.significand, Binary64.scale]
  obtain ⟨w, hw, -, hvalue⟩ := replay_spellDigits (α := ℚ) hfin hpos
  have hspelled : w.value = 2 ^ (-1023 : ℤ) := by
    have hdigits : (leadingDigits ⟨false, 0, 1⟩ : ℚ) = 2 ^ (6 : ℤ) := by
      norm_num [leadingDigits_eq]
    rw [hvalue, valueOf_significandMoves (Binary64.fraction_lt _), ofTarget_eq hfin hpos, hbits,
      hdigits, if_neg (by decide), Sign.unit, one_mul, ← zpow_add₀ two_ne_zero]
    rfl
  refine ⟨Float.ofBits 1, w, hread, hleast, hw, hspelled, ?_⟩
  rw [hleast, hspelled, abs_of_pos (by positivity), abs_of_pos (by positivity)]
  exact zpow_lt_zpow_right₀ one_lt_two (by norm_num)

end Results

end HexPatterns
