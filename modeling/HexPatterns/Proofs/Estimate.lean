import Mathlib
import HexPatterns.Grid.Move
import HexPatterns.Proofs.Approach
import HexPatterns.Synthesis.Search

/-!
# The estimate is zero just for what is near enough

In exact arithmetic a walk never comes to the other side of zero than its target: doublings and
halvings keep the side, and the additive moves count towards the target. So the estimate, which only
looks at magnitudes, measures the distance that counts. It is zero if that distance is accepted, and
at least one if it is not (`estimate_eq_zero_iff`): off the target, a round of the approach is
counted or a ten, since an approach never comes to the target itself.
-/

namespace HexPatterns.Synthesis

open Grid Scalar

theorem Limits.accepts_rat (l : Limits Rat) (x : Rat) :
    l.accepts x = true ↔ x = 0 ∨ x < l.precision := by
  simp [Limits.accepts]

section Sides

/-- The number is zero or lies in the direction of the sign. -/
def OnSide : Sign → Rat → Prop
  | .positive, x => 0 ≤ x
  | .negative, x => x ≤ 0

theorem onSide_ofTarget (target : Rat) : OnSide (.ofTarget target) target := by
  have hle : Scalar.le Scalar.zero target = true ↔ 0 ≤ target := by
    simp only [Scalar.le, Bool.or_eq_true, lt_rat, Scalar.eq, beq_iff_eq]
    exact le_iff_lt_or_eq.symm
  unfold Sign.ofTarget
  split
  · rename_i h
    exact hle.1 h
  · rename_i h
    exact (not_le.1 (h ∘ hle.2)).le

theorem onSide_zero (s : Sign) : OnSide s Scalar.zero := by
  cases s <;> exact le_refl (0 : Rat)

theorem OnSide.apply {s : Sign} {x : Rat} (h : OnSide s x) (m : Move) : OnSide s (m.apply s x) := by
  have hadvance : ∀ n : Nat, OnSide s (s.advance x n) := by
    intro n
    have hn : (0 : Rat) ≤ n := n.cast_nonneg
    cases s with
    | positive =>
      change 0 ≤ x + n
      have h : 0 ≤ x := h
      linarith
    | negative =>
      change x - n ≤ 0
      have h : x ≤ 0 := h
      linarith
  cases m with
  | double =>
    change OnSide s (x * 2)
    cases s <;> simp only [OnSide] at h ⊢ <;> linarith
  | halve =>
    change OnSide s (x / 2)
    cases s <;> simp only [OnSide] at h ⊢ <;> linarith
  | addFive => exact hadvance 5
  | addOne => exact hadvance 1
  | addTen => exact hadvance 10

/-- On one side of zero, magnitudes are as far apart as the numbers. -/
theorem OnSide.distance_abs {s : Sign} {x y : Rat} (hx : OnSide s x) (hy : OnSide s y) :
    |(|y| - |x|)| = |x - y| := by
  cases s with
  | positive => rw [abs_of_nonneg hx, abs_of_nonneg hy, abs_sub_comm]
  | negative =>
    rw [abs_of_nonpos hx, abs_of_nonpos hy]
    congr 1
    ring

end Sides

section Positive

variable {target value : Rat}

theorem count_pos {x : Rat} (h : 1 ≤ x) : 0 < count x := by
  have hfloor : 1 ≤ x.floor := Rat.le_floor_iff.2 (by simpa using h)
  change 0 < min countMax x.floor.toNat
  have hmax : 0 < countMax := by decide
  omega

/-- A magnitude that is not zero takes a coin at least. -/
theorem coins_pos (h : 0 < target) : 0 < coins target := by
  have hrest : ∀ {y : Rat} {n : Nat}, 0 < n → 0 ≤ y → 0 ≤ (y / n).floor ∧ 0 ≤ modNat y n := by
    intro y n hn hy
    have hn : (0 : Rat) < n := Nat.cast_pos.2 hn
    refine ⟨Rat.le_floor_iff.2 (by simpa using div_nonneg hy hn.le), ?_⟩
    change 0 ≤ y - n * ((y / n).floor : Rat)
    have hfloor : ((y / n).floor : Rat) ≤ y / n := Rat.floor_le _
    rw [le_div_iff₀ hn] at hfloor
    linarith
  obtain ⟨htens, hrest₁⟩ := hrest (n := 10) (by decide) h.le
  obtain ⟨hfives, hrest₂⟩ := hrest (n := 5) (by decide) hrest₁
  have hones : 0 ≤ (modNat (modNat target 10) 5).ceil := by
    have hceil := (Rat.le_ceil (x := modNat (modNat target 10) 5))
    exact_mod_cast hrest₂.trans hceil
  have hsome : 1 ≤ (target / (10 : Nat)).floor + (modNat target 10 / (5 : Nat)).floor
      + (modNat (modNat target 10) 5).ceil := by
    by_contra hnone
    have h₁ : (target / (10 : Nat)).floor = 0 := by omega
    have h₂ : (modNat target 10 / (5 : Nat)).floor = 0 := by omega
    have h₃ : (modNat (modNat target 10) 5).ceil = 0 := by omega
    have hmod₁ : modNat target 10 = target := by
      change target - (10 : Nat) * ((target / (10 : Nat)).floor : Rat) = target
      rw [h₁]
      simp
    rw [hmod₁] at h₂ h₃
    have hmod₂ : modNat target 5 = target := by
      change target - (5 : Nat) * ((target / (5 : Nat)).floor : Rat) = target
      rw [h₂]
      simp
    rw [hmod₂] at h₃
    have hceil := Rat.le_ceil (x := target)
    rw [h₃] at hceil
    exact absurd h (not_lt.2 (by simpa using hceil))
  apply count_pos
  change (1 : Rat) ≤ (target / (10 : Nat)).floor + (modNat target 10 / (5 : Nat)).floor
    + (modNat (modNat target 10) 5).ceil
  exact_mod_cast hsome

theorem count_ceil (d : Rat) : count (ceil d) = min countMax ⌈d⌉₊ := by
  have hceil : ⌈d⌉ = d.ceil :=
    eq_of_forall_ge_iff fun z => by rw [Int.ceil_le, Rat.ceil_le_iff]
  change min countMax (d.ceil : Rat).floor.toNat = _
  rw [Rat.floor_intCast, ← hceil, Int.ceil_toNat]

theorem isNear_rat {precision : Rat} : isNear target value precision = true
    ↔ |(|target| - |value|)| = 0 ∨ |(|target| - |value|)| < precision := by
  rw [isNear, abs_rat, abs_rat, distance_rat, Bool.or_eq_true, lt_rat, isZero_rat, or_comm]

/-- Off zero, an estimate counts the rounds of the approach and the tens that are then missing. -/
theorem estimate_of_arrives {precision x : Rat} {k : Nat} (hvalue : value ≠ 0)
    (hfar : ¬ (|(|target| - |value|)| = 0 ∨ |(|target| - |value|)| < precision))
    (h : Arrives |target| |value| k x) :
    estimate target value precision = min countMax (k + ⌈|(|target| - x)| / 10⌉₊) := by
  rw [← isNear_rat, Bool.not_eq_true] at hfar
  rw [ne_eq, ← isZero_rat, Bool.not_eq_true] at hvalue
  rw [← abs_rat target, ← abs_rat value] at h
  have hcount : count (ceil (divNat |(|target| - x)| 10))
      = min countMax ⌈|(|target| - x)| / 10⌉₊ := count_ceil _
  rw [(Returns.far hfar hvalue h).estimate_eq, abs_rat, distance_rat, hcount]
  omega

theorem estimate_pos_of_arrives {precision x : Rat} {k : Nat} (hvalue : value ≠ 0)
    (hfar : ¬ (|(|target| - |value|)| = 0 ∨ |(|target| - |value|)| < precision))
    (h : Arrives |target| |value| k x) (hx : x ≠ |target|) :
    0 < estimate target value precision := by
  rw [estimate_of_arrives hvalue hfar h]
  have htens : 0 < ⌈|(|target| - x)| / 10⌉₊ :=
    Nat.ceil_pos.2 (div_pos (abs_pos.2 (sub_ne_zero.2 hx.symm)) (by norm_num))
  have hmax : 0 < countMax := by decide
  omega

/-- Off zero and not near the target, a value is scaled to another one than the target. -/
theorem exists_lands_of_far {precision : Rat} (htarget : target ≠ 0) (hvalue : value ≠ 0)
    (hfar : ¬ (|(|target| - |value|)| = 0 ∨ |(|target| - |value|)| < precision)) :
    ∃ k x, Arrives |target| |value| k x ∧ Lands |target| |value| k x ∧ x ≠ |target| := by
  have hne : |value| ≠ |target| := fun h => hfar (.inl (by rw [h, sub_self, abs_zero]))
  obtain ⟨k, x, harrives, hlands⟩ := exists_lands (abs_pos.2 htarget) (abs_pos.2 hvalue) hne
  exact ⟨k, x, harrives, hlands, hlands.ne hne⟩

/-- The estimate is zero just if magnitudes are equal or nearer to each other than the precision. -/
theorem estimate_eq_zero_iff (precision value : Rat) (htarget : target ≠ 0) :
    estimate target value precision = 0
      ↔ |(|target| - |value|)| = 0 ∨ |(|target| - |value|)| < precision := by
  by_cases hnear : |(|target| - |value|)| = 0 ∨ |(|target| - |value|)| < precision
  · exact iff_of_true (Returns.near (isNear_rat.2 hnear)).estimate_eq hnear
  · refine iff_of_false (Nat.pos_iff_ne_zero.1 ?_) hnear
    by_cases hvalue : value = 0
    · have hfar : isNear target value precision = false :=
        Bool.eq_false_iff.2 (hnear ∘ isNear_rat.1)
      rw [(Returns.zero hfar ((isZero_rat value).2 hvalue)).estimate_eq, abs_rat]
      exact coins_pos (abs_pos.2 htarget)
    · obtain ⟨k, x, harrives, -, hx⟩ := exists_lands_of_far htarget hvalue hnear
      exact estimate_pos_of_arrives hvalue hnear harrives hx

/-- The estimate in closed form: off zero and not near the target, the rounds until the value is
scaled within a factor of two of the target, and the tens from there. -/
theorem estimate_closedForm (precision value : Rat) {target : Rat} (htarget : target ≠ 0) :
    (value ≠ 0 → ¬ (|(|target| - |value|)| = 0 ∨ |(|target| - |value|)| < precision) →
      ∃ k scaled, Arrives |target| |value| k scaled ∧ approach |target| |value| = (k, scaled)
        ∧ Lands |target| |value| k scaled
        ∧ estimate target value precision
          = min (2 ^ 32 - 1) (k + ⌈|(|target| - scaled)| / 10⌉₊)
        ∧ 1 ≤ estimate target value precision)
      ∧ (estimate target value precision = 0
        ↔ |(|target| - |value|)| = 0 ∨ |(|target| - |value|)| < precision) := by
  refine ⟨fun hvalue hfar => ?_, estimate_eq_zero_iff precision value htarget⟩
  obtain ⟨k, scaled, harrives, hlands, hscaled⟩ := exists_lands_of_far htarget hvalue hfar
  exact ⟨k, scaled, harrives, harrives.approach_eq, hlands,
    estimate_of_arrives hvalue hfar harrives,
    estimate_pos_of_arrives hvalue hfar harrives hscaled⟩

/-- From ten to a hundred: three doublings, and two tens. -/
theorem estimate_ten_hundred : (100 : Rat) ≠ 0 ∧ estimate (100 : Rat) 10 (1 / 1000) = 5 := by
  have htarget : (100 : Rat) ≠ 0 := by norm_num
  obtain ⟨k, scaled, -, -, hlands, hestimate, -⟩ :=
    (estimate_closedForm (1 / 1000) 10 htarget).1 (by norm_num) (by norm_num)
  obtain ⟨hleast, hscaled, -, -⟩ := hlands.below (by norm_num)
  have hk : k = 3 := by
    refine hleast.unique ⟨by norm_num, fun j hj => ?_⟩
    by_contra hlt
    have hpow : (2 : Rat) ^ j ≤ 2 ^ 2 := pow_le_pow_right₀ (by norm_num) (by omega)
    have hj : (100 : Rat) / 2 ≤ 10 * 2 ^ j := by simpa using hj
    linarith
  refine ⟨htarget, ?_⟩
  rw [hestimate, hscaled, hk]
  norm_num

end Positive

/-- On the target's side of zero, the estimate is zero just for what is accepted. -/
theorem estimate_eq_zero_iff_accepts (l : Limits Rat) {s : Sign} {target value : Rat}
    (haway : target ≠ 0) (htarget : OnSide s target) (hvalue : OnSide s value) :
    estimate target value l.precision = 0 ↔ l.accepts (distance value target) = true := by
  rw [estimate_eq_zero_iff _ _ haway, hvalue.distance_abs htarget, distance_rat, l.accepts_rat]

end HexPatterns.Synthesis
