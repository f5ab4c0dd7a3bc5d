import Mathlib
import HexPatterns.Scalar.Rational
import HexPatterns.Synthesis.Estimate

/-!
# Approaching a target

An approach doubles or halves a magnitude as long as it is more than a factor of two away from the
target. Nothing bounds the number of rounds beforehand: an approach ends if it comes to a magnitude
that is near enough, and the first such one is its outcome (`Halts`, `Arrives`).

In exact arithmetic an approach to a positive target from a positive magnitude always ends, since
powers of two outgrow every ratio. It stays on the side of the target on which it starts: what is
below half of the target is below the target when it is doubled, and what is above twice the target
is above the target when it is halved (`exists_lands`).
-/

namespace HexPatterns.Scalar

section Rational

variable (x y : Rat)

@[simp] theorem lt_rat : lt x y = true ↔ x < y := by
  simp [lt]

@[simp] theorem isZero_rat : isZero x = true ↔ x = 0 := by
  simp [isZero, eq, zero, ofNat]

@[simp] theorem abs_rat : abs x = |x| := by
  change Rat.abs x = |x|
  unfold Rat.abs
  split
  · rename_i h
    exact (abs_of_nonneg h).symm
  · rename_i h
    exact (abs_of_neg (not_le.1 h)).symm

@[simp] theorem distance_rat : distance x y = |x - y| := by
  rw [distance, abs_rat]
  rfl

@[simp] theorem double_rat : double x = x * 2 := rfl

@[simp] theorem halve_rat : halve x = x / 2 := rfl

end Rational

end HexPatterns.Scalar

namespace HexPatterns.Synthesis

open Scalar

section Steps

variable {β : Type} {more : β → Bool} {step : β → β} {x y : β} {k : Nat}

theorem stepWhile_eq (k : Nat) (x : β) : stepWhile more step k x
    = if more x then stepWhile more step (k + 1) (step x) else (k, x) := by
  have : Nonempty (Nat × β) := ⟨(k, x)⟩
  simp only [stepWhile]
  rw [repeatM_eq_of_monadTail]
  by_cases h : more x = true
  · rw [if_pos h, repeatM.body, if_pos h]
    rfl
  · rw [if_neg h, repeatM.body, if_neg h]
    rfl

/-- Steps that are due can be taken beforehand. -/
theorem stepWhile_iterate (k : Nat) (x : β) : ∀ j, (∀ i < j, more (step^[i] x) = true) →
    stepWhile more step k x = stepWhile more step (k + j) (step^[j] x)
  | 0, _ => rfl
  | j + 1, h => by
    rw [stepWhile_iterate k x j fun i hi => h i (by omega), stepWhile_eq,
      if_pos (h j (by omega)), Function.iterate_succ_apply', Nat.add_assoc]

/-- From `x` on just `k` steps are due, and they lead to `y`. -/
structure Halts (more : β → Bool) (step : β → β) (x : β) (k : Nat) (y : β) : Prop where
  due : ∀ i < k, more (step^[i] x) = true
  done : more y = false
  reached : y = step^[k] x

theorem Halts.stepWhile_eq (h : Halts more step x k y) (n : Nat) :
    stepWhile more step n x = (n + k, y) := by
  rw [stepWhile_iterate n x k h.due, ← h.reached, Synthesis.stepWhile_eq,
    if_neg (by simp [h.done])]

theorem Halts.isLeast (h : Halts more step x k y) :
    IsLeast {j | more (step^[j] x) = false} k := by
  have hdone : more (step^[k] x) = false := by
    rw [← h.reached]
    exact h.done
  refine ⟨hdone, fun j hj => ?_⟩
  by_contra hlt
  exact Bool.eq_false_iff.1 hj (h.due j (not_le.1 hlt))

/-- A step that is not due ends the steps there, or an earlier one does. -/
theorem exists_halts (h : more (step^[k] x) = false) : ∃ j ≤ k, ∃ y, Halts more step x j y := by
  classical
  have hex : ∃ j, more (step^[j] x) = false := ⟨k, h⟩
  refine ⟨Nat.find hex, Nat.find_min' hex h, _, ⟨fun i hi => ?_, Nat.find_spec hex, rfl⟩⟩
  simpa using Nat.find_min hex hi

end Steps

section Arrives

variable {α : Type} [Scalar α] {target x y : α} {k : Nat}

/-- The approach to the target from `x` ends, after `k` rounds, at `y`. -/
def Arrives (target x : α) (k : Nat) (y : α) : Prop :=
  if lt x target then Halts (isFarBelow target) double x k y
  else Halts (isFarAbove target) halve x k y

theorem Arrives.approach_eq (h : Arrives target x k y) : approach target x = (k, y) := by
  unfold Arrives at h
  unfold approach
  split at h
  · rename_i hbelow
    rw [if_pos hbelow, h.stepWhile_eq, Nat.zero_add]
  · rename_i hbelow
    rw [if_neg hbelow, h.stepWhile_eq, Nat.zero_add]

theorem Arrives.le {k' : Nat} {y' : α} (h : Arrives target x k y) (h' : Arrives target x k' y') :
    k ≤ k' := by
  unfold Arrives at h h'
  split at h
  · rename_i hbelow
    rw [if_pos hbelow] at h'
    exact (h.isLeast.unique h'.isLeast).le
  · rename_i hbelow
    rw [if_neg hbelow] at h'
    exact (h.isLeast.unique h'.isLeast).le

end Arrives

section Returns

variable {α : Type} [Scalar α] {target value precision : α} {k n : Nat}

/-- The magnitudes are equal, or nearer to each other than the precision. -/
def isNear (target value precision : α) : Bool :=
  lt (distance (abs target) (abs value)) precision || isZero (distance (abs target) (abs value))

/-- An estimate comes to its end after `k` rounds of the approach, with the result `n`. -/
inductive Returns (target value precision : α) : Nat → Nat → Prop
  | near : isNear target value precision = true → Returns target value precision 0 0
  | zero : isNear target value precision = false → isZero value = true →
      Returns target value precision 0 (coins (abs target))
  | far {k : Nat} {x : α} : isNear target value precision = false → isZero value = false →
      Arrives (abs target) (abs value) k x → Returns target value precision k
        (min countMax (k + count (ceil (divNat (distance (abs target) x) 10))))

theorem Returns.estimate_eq (h : Returns target value precision k n) :
    estimate target value precision = n := by
  cases h with
  | near hnear =>
    exact if_pos hnear
  | zero hfar hzero =>
    exact (if_neg (Bool.eq_false_iff.1 hfar)).trans (if_pos hzero)
  | far hfar hoff harrives =>
    refine (if_neg (Bool.eq_false_iff.1 hfar)).trans ((if_neg (by simp [hoff])).trans ?_)
    rw [harrives.approach_eq]

end Returns

section Exact

variable {target x : Rat}

theorem iterate_double (x : Rat) : ∀ j, (double^[j] x : Rat) = x * 2 ^ j
  | 0 => by simp
  | j + 1 => by
    rw [Function.iterate_succ_apply', iterate_double x j, double_rat, pow_succ, mul_assoc]

theorem iterate_halve (x : Rat) : ∀ j, (halve^[j] x : Rat) = x / 2 ^ j
  | 0 => by simp
  | j + 1 => by
    rw [Function.iterate_succ_apply', iterate_halve x j, halve_rat, pow_succ, div_div]

theorem isFarBelow_iterate (j : Nat) :
    isFarBelow target (double^[j] x) = false ↔ target / 2 ≤ x * 2 ^ j := by
  rw [isFarBelow, Bool.eq_false_iff, ne_eq, lt_rat, halve_rat, iterate_double, not_lt]

theorem isFarAbove_iterate (j : Nat) :
    isFarAbove target (halve^[j] x) = false ↔ x / 2 ^ j ≤ 2 * target := by
  rw [isFarAbove, Bool.eq_false_iff, ne_eq, lt_rat, double_rat, iterate_halve, not_lt, mul_comm]

/-- From below, an approach ends at the first doubling that comes to half of the target. -/
theorem exists_arrives_of_lt (hx : 0 < x) (hlt : x < target) :
    ∃ k, Arrives target x k (x * 2 ^ k) ∧ IsLeast {j | target / 2 ≤ x * 2 ^ j} k
      ∧ x * 2 ^ k < target := by
  obtain ⟨n, hn⟩ := pow_unbounded_of_one_lt (target / 2 / x) (one_lt_two (α := Rat))
  have hnear : isFarBelow target (double^[n] x) = false := by
    rw [isFarBelow_iterate, mul_comm]
    exact ((div_lt_iff₀ hx).1 hn).le
  obtain ⟨k, -, y, hk⟩ := exists_halts hnear
  have hleast := hk.isLeast
  simp only [isFarBelow_iterate] at hleast
  refine ⟨k, ?_, hleast, ?_⟩
  · rw [Arrives, if_pos ((lt_rat x target).2 hlt), ← iterate_double, ← hk.reached]
    exact hk
  · rcases k with _ | k
    · simpa using hlt
    · have hlast : x * 2 ^ k < target / 2 :=
        not_le.1 fun hle => absurd (hleast.2 hle) (by omega)
      rw [pow_succ, ← mul_assoc]
      linarith

/-- From above, an approach ends at the first halving that comes to twice the target. -/
theorem exists_arrives_of_gt (htarget : 0 < target) (hlt : target < x) :
    ∃ k, Arrives target x k (x / 2 ^ k) ∧ IsLeast {j | x / 2 ^ j ≤ 2 * target} k
      ∧ target < x / 2 ^ k := by
  obtain ⟨n, hn⟩ := pow_unbounded_of_one_lt (x / (2 * target)) (one_lt_two (α := Rat))
  have hnear : isFarAbove target (halve^[n] x) = false := by
    rw [isFarAbove_iterate, div_le_iff₀ (by positivity), mul_comm]
    exact ((div_lt_iff₀ (by positivity)).1 hn).le
  obtain ⟨k, -, y, hk⟩ := exists_halts hnear
  have hleast := hk.isLeast
  simp only [isFarAbove_iterate] at hleast
  refine ⟨k, ?_, hleast, ?_⟩
  · rw [Arrives, if_neg (by simpa using hlt.le), ← iterate_halve, ← hk.reached]
    exact hk
  · rcases k with _ | k
    · simpa using hlt
    · have hlast : 2 * target < x / 2 ^ k :=
        not_le.1 fun hle => absurd (hleast.2 hle) (by omega)
      rw [pow_succ, ← div_div, lt_div_iff₀ two_pos]
      linarith

/-- Where an approach in exact arithmetic ends: at the first doubling that comes to half of the
target, below the target, or at the first halving that comes to twice the target, above it. -/
structure Lands (target x : Rat) (k : Nat) (y : Rat) : Prop where
  below : x < target → IsLeast {j | target / 2 ≤ x * 2 ^ j} k ∧ y = x * 2 ^ k
    ∧ target / 2 ≤ y ∧ y < target
  above : target < x → IsLeast {j | x / 2 ^ j ≤ 2 * target} k ∧ y = x / 2 ^ k
    ∧ target < y ∧ y ≤ 2 * target

theorem Lands.ne {k : Nat} {y : Rat} (h : Lands target x k y) (hne : x ≠ target) : y ≠ target := by
  rcases lt_or_gt_of_ne hne with hlt | hgt
  · exact (h.below hlt).2.2.2.ne
  · exact (h.above hgt).2.2.1.ne'

theorem exists_lands (htarget : 0 < target) (hx : 0 < x) (hne : x ≠ target) :
    ∃ k y, Arrives target x k y ∧ Lands target x k y := by
  rcases lt_or_gt_of_ne hne with hlt | hgt
  · obtain ⟨k, harrives, hleast, hside⟩ := exists_arrives_of_lt hx hlt
    exact ⟨k, _, harrives, fun _ => ⟨hleast, rfl, hleast.1, hside⟩, fun h => absurd h hlt.asymm⟩
  · obtain ⟨k, harrives, hleast, hside⟩ := exists_arrives_of_gt htarget hgt
    exact ⟨k, _, harrives, fun h => absurd h hgt.asymm, fun _ => ⟨hleast, rfl, hside, hleast.1⟩⟩

end Exact

end HexPatterns.Synthesis
