import Mathlib
import HexPatterns.Proofs.Estimate
import HexPatterns.Proofs.Spelling

/-!
# Paying a target in tens, fives and ones

From zero, the additive moves pay a whole target coin by coin, and the estimate is the number of
coins that paying takes if the largest that fit are taken first. No other payment has fewer: each
coin goes into the next larger one a whole number of times, so a further coin, of whatever kind,
raises the number by one at most (`greedy_add_le`).
-/

namespace HexPatterns.Synthesis

open Grid Scalar

section Payments

/-- The moves that pay a coin. -/
def additive : List Move := [.addFive, .addOne, .addTen]

/-- What a move pays. -/
def worth : Move → Nat
  | .addFive => 5
  | .addOne => 1
  | .addTen => 10
  | .double | .halve => 0

/-- Additive moves alone, counting in the direction of the target, lead from zero to it. -/
def Pays (target : Rat) (ms : List Move) : Prop :=
  (∀ m ∈ ms, m ∈ additive) ∧ valueOf (.ofTarget target) ms = target

variable {ms : List Move} {m : Move}

theorem apply_of_additive (s : Sign) (x : Rat) (hm : m ∈ additive) :
    m.apply s x = x + s.unit * worth m := by
  simp only [additive, List.mem_cons, List.not_mem_nil, or_false] at hm
  have hadvance : ∀ n : Nat, s.advance x n = x + s.unit * n := by
    intro n
    cases s with
    | positive => exact congrArg (x + ·) (one_mul (n : Rat)).symm
    | negative =>
      change x - n = x + -1 * n
      ring
  rcases hm with rfl | rfl | rfl
  · exact hadvance 5
  · exact hadvance 1
  · exact hadvance 10

theorem valueOf_of_additive (s : Sign) (h : ∀ m ∈ ms, m ∈ additive) :
    valueOf s ms = s.unit * (ms.map worth).sum := by
  induction ms using List.reverseRecOn with
  | nil => exact (mul_zero s.unit).symm
  | append_singleton ms m ih =>
    have hms := ih fun m' hm' => h m' (List.mem_append_left _ hm')
    rw [valueOf_concat, apply_of_additive s _ (h m (by simp)), hms]
    simp [mul_add]

theorem eq_unit_mul_abs (target : Rat) : target = (Sign.ofTarget target).unit * |target| := by
  have hside := onSide_ofTarget target
  rcases hs : Sign.ofTarget target with _ | _ <;> rw [hs] at hside
  · rw [Sign.unit, one_mul, abs_of_nonneg hside]
  · rw [Sign.unit, abs_of_nonpos hside, neg_one_mul, neg_neg]

theorem pays_iff {target : Rat} {n : Nat} (htarget : |target| = n) :
    Pays target ms ↔ (∀ m ∈ ms, m ∈ additive) ∧ (ms.map worth).sum = n := by
  have hunit : (Sign.ofTarget target).unit ≠ 0 := by
    cases Sign.ofTarget target <;> simp [Sign.unit]
  refine and_congr_right fun h => ?_
  have heq := eq_unit_mul_abs target
  rw [htarget] at heq
  rw [valueOf_of_additive _ h]
  nth_rewrite 2 [heq]
  rw [mul_right_inj' hunit, Nat.cast_inj]

end Payments

section Greedy

/-- How many coins pay a whole number, if tens are taken first and then fives. -/
def greedy (n : Nat) : Nat := n / 10 + n % 10 / 5 + n % 5

theorem greedy_add_le (n : Nat) {m : Move} (hm : m ∈ additive) :
    greedy (worth m + n) ≤ greedy n + 1 := by
  simp only [additive, List.mem_cons, List.not_mem_nil, or_false] at hm
  unfold greedy
  rcases hm with rfl | rfl | rfl <;> simp only [worth] <;> omega

theorem greedy_sum_le : ∀ {ms : List Move}, (∀ m ∈ ms, m ∈ additive) →
    greedy (ms.map worth).sum ≤ ms.length
  | [], _ => by decide
  | m :: ms, h => by
    obtain ⟨hm, hms⟩ := List.forall_mem_cons.1 h
    rw [List.map_cons, List.sum_cons, List.length_cons]
    exact (greedy_add_le _ hm).trans (Nat.succ_le_succ (greedy_sum_le hms))

/-- The payment with tens first and then fives. -/
def greedyMoves (n : Nat) : List Move :=
  List.replicate (n / 10) .addTen ++ List.replicate (n % 10 / 5) .addFive
    ++ List.replicate (n % 5) .addOne

theorem length_greedyMoves (n : Nat) : (greedyMoves n).length = greedy n := by
  simp [greedyMoves, greedy, Nat.add_assoc]

theorem sum_greedyMoves (n : Nat) : ((greedyMoves n).map worth).sum = n := by
  simp only [greedyMoves, List.map_append, List.map_replicate, List.sum_append, worth,
    List.sum_replicate, smul_eq_mul]
  omega

theorem additive_greedyMoves (n : Nat) : ∀ m ∈ greedyMoves n, m ∈ additive := by
  simp only [greedyMoves, List.mem_append, List.mem_replicate, additive, List.mem_cons,
    List.not_mem_nil, or_false]
  tauto

/-- No payment of a whole target, up or down, has fewer coins. -/
theorem isLeast_greedy {target : Rat} {n : Nat} (htarget : |target| = n) :
    IsLeast {k | ∃ ms, Pays target ms ∧ ms.length = k} (greedy n) := by
  constructor
  · exact ⟨greedyMoves n, (pays_iff htarget).2 ⟨additive_greedyMoves n, sum_greedyMoves n⟩,
      length_greedyMoves n⟩
  · rintro k ⟨ms, hpays, rfl⟩
    obtain ⟨hms, hsum⟩ := (pays_iff htarget).1 hpays
    rw [← hsum]
    exact greedy_sum_le hms

end Greedy

section Estimate

theorem floor_divNat (n k : Nat) : floor (divNat (n : Rat) k) = ((n / k : Nat) : Rat) := by
  have h : ((n : Rat) / k).floor = ((n / k : Nat) : Int) := Rat.floor_natCast_div_natCast n k
  change ((((n : Rat) / k).floor : Int) : Rat) = _
  rw [h, Int.cast_natCast]

theorem modNat_natCast (n k : Nat) : modNat (n : Rat) k = ((n % k : Nat) : Rat) := by
  change (n : Rat) - k * floor (divNat (n : Rat) k) = _
  rw [floor_divNat, sub_eq_iff_eq_add]
  exact_mod_cast (Nat.mod_add_div n k).symm

theorem ceil_natCast (n : Nat) : ceil (n : Rat) = n := by
  change (((n : Rat).ceil : Int) : Rat) = n
  rw [← Int.cast_natCast, Rat.ceil_intCast]

theorem count_natCast (n : Nat) : count (n : Rat) = min countMax n := by
  change min countMax (n : Rat).floor.toNat = _
  rw [← Int.cast_natCast, Rat.floor_intCast, Int.toNat_natCast]

theorem coins_natCast (n : Nat) : coins (n : Rat) = min countMax (greedy n) := by
  have hsum : ∀ a b : Nat, add (a : Rat) b = ((a + b : Nat) : Rat) := fun a b =>
    (Nat.cast_add a b).symm
  have hmod : n % 10 % 5 = n % 5 := Nat.mod_mod_of_dvd n (by decide)
  simp only [coins, modNat_natCast, floor_divNat, ceil_natCast, hsum, count_natCast, hmod, greedy]

theorem estimate_zero_eq {target precision : Rat} {n : Nat} (htarget : |target| = n)
    (hprecision : precision ≤ 1) : estimate target 0 precision = min countMax (greedy n) := by
  have hgap : |(|target| - |(0 : Rat)|)| = n := by
    rw [abs_zero, sub_zero, abs_abs, htarget]
  rcases Nat.eq_zero_or_pos n with rfl | hn
  · rw [(Returns.near (isNear_rat.2 (.inl (hgap.trans Nat.cast_zero)))).estimate_eq]
    rfl
  · have hone : (1 : Rat) ≤ n := Nat.one_le_cast.2 hn
    have hfar : isNear target 0 precision = false := by
      rw [Bool.eq_false_iff, ne_eq, isNear_rat, hgap]
      rintro (hzero | hlt)
      · linarith
      · linarith
    rw [(Returns.zero hfar ((isZero_rat 0).2 rfl)).estimate_eq, abs_rat, htarget, coins_natCast]

/-- From zero to a whole target, up or down, the estimate is the least number of additive moves that
lead there exactly, if it can be counted, and the largest count if not. -/
theorem estimate_zero_isLeast (n : Nat) {precision : Rat} (hprecision : precision ≤ 1) :
    ∀ target ∈ [(n : Rat), -n], ∃ k, IsLeast {k | ∃ ms, Pays target ms ∧ ms.length = k} k
      ∧ (k < 2 ^ 32 → estimate target 0 precision = k)
      ∧ (2 ^ 32 ≤ k → estimate target 0 precision = 2 ^ 32 - 1) := by
  intro target hmem
  have htarget : |target| = n := by
    simp only [List.mem_cons, List.not_mem_nil, or_false] at hmem
    rcases hmem with rfl | rfl
    · exact Nat.abs_cast n
    · rw [abs_neg, Nat.abs_cast]
  have hmax : countMax = 2 ^ 32 - 1 := rfl
  refine ⟨greedy n, isLeast_greedy htarget, fun hk => ?_, fun hk => ?_⟩
  · rw [estimate_zero_eq htarget hprecision]
    omega
  · rw [estimate_zero_eq htarget hprecision]
    omega

/-- Two tens, a five and two ones. -/
theorem estimate_zero_isLeast_twentySeven : (1 / 1000 : Rat) ≤ 1
    ∧ ∀ target ∈ [(27 : Rat), -27], IsLeast {k | ∃ ms, Pays target ms ∧ ms.length = k} 5
      ∧ estimate target 0 (1 / 1000) = 5 := by
  have hprecision : (1 / 1000 : Rat) ≤ 1 := by norm_num
  refine ⟨hprecision, fun target hmem => ?_⟩
  have habs : |target| = (27 : Nat) := by
    simp only [List.mem_cons, List.not_mem_nil, or_false] at hmem
    rcases hmem with rfl | rfl <;> norm_num
  have hfive : estimate target 0 (1 / 1000) = 5 := estimate_zero_eq habs hprecision
  obtain ⟨k, hleast, hcount, hlarge⟩ := estimate_zero_isLeast 27 hprecision target hmem
  rw [hfive] at hcount hlarge
  have hk : k = 5 := by omega
  exact ⟨hk ▸ hleast, hfive⟩

end Estimate

end HexPatterns.Synthesis
