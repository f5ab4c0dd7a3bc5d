import Mathlib
import HexPatterns.Proofs.History
import HexPatterns.Proofs.Rounding

/-!
# How a search of doubles ends

The steps of a search are bounded, but a visit that makes a state waits for the state's estimate,
and an estimate need not return. So the steps are counted here with the rounds of the estimates that
they wait for (`History.Leads`).

An estimate of a double returns within 2099 rounds, except that of an infinite number for a target
whose double is finite (`exists_returns_or`). A number is infinite after 1022 moves at the earliest,
and as many states are taken up before it is asked for. With less depth or a smaller budget, every
search comes to its end; with more, it comes to its end or to such an estimate.
-/

namespace HexPatterns.Synthesis

open Grid Scalar

namespace History

section Leads

variable {α : Type} [Scalar α] (limits : Limits α) (target : α) (elapsed : Nat → Nat)

/-- The number whose estimate the next step waits for, if it waits for one: that of the state that
the next visit makes. -/
def asks (h : History α) : Option α :=
  match h.due with
  | [] => none
  | (i, m) :: _ => (h.search.visited target i m).map Node.value

/-- The next step can be made after `k` rounds of the estimate that it waits for. -/
def Waits (h : History α) (k : Nat) : Prop :=
  match h.asks target with
  | none => k = 0
  | some value => ∃ n, Returns target value limits.precision k n

/-- The one history leads to the other, and what that costs: each step costs one, and the rounds
that it waits. -/
inductive Leads : History α → Nat → History α → Prop
  | refl (h : History α) : Leads h 0 h
  | step {h h' h'' : History α} {k c : Nat} : h.Waits limits target k →
      h.next limits target elapsed = some h' → Leads h' c h'' → Leads h (1 + k + c) h''

end Leads

section Ends

variable {limits : Limits Float} {target : Float} {elapsed : Nat → Nat} {h : History Float}

theorem waits_or (limits : Limits Float) (target : Float) (h : History Float) :
    (∃ k ≤ 2099, h.Waits limits target k)
      ∨ ∃ value, h.asks target = some value ∧ value.isInf = true
        ∧ (double (Scalar.abs target)).isFinite = true := by
  unfold Waits
  rcases h.asks target with _ | value
  · exact .inl ⟨0, Nat.zero_le _, rfl⟩
  · exact (exists_returns_or target value limits.precision).imp_right fun hinf => ⟨value, rfl, hinf⟩

/-- What is asked for is infinite only where there is depth and budget for 1022 moves. -/
theorem Kept.of_asks_isInf (hk : h.Kept limits target) {value : Float}
    (hasks : h.asks target = some value) (hinf : value.isInf = true) :
    1022 ≤ limits.maxDepth ∧ 1023 ≤ limits.maxExpansions := by
  unfold asks at hasks
  rcases hdue : h.due with _ | ⟨⟨i, m⟩, due⟩
  · simp [hdue] at hasks
  · simp only [hdue, Option.map_eq_some_iff] at hasks
    obtain ⟨child, hchild, rfl⟩ := hasks
    obtain ⟨rfl, -⟩ := Search.of_visited hchild
    obtain ⟨hi, hdepth, hbudget⟩ := hk.due (i, m) (by simp [hdue])
    obtain ⟨ms, hms⟩ := hk.sound.spells i hi
    have hlength : (h.search.arena.get i).depth = ms.length := hms.depth
    have hvalue : ((h.search.arena.get i).child (.ofTarget target) i m).value
        = valueOf (.ofTarget target) (ms ++ [m]) := by
      rw [valueOf_concat, ← hms.value]
      rfl
    have hdeep : 1021 < (ms ++ [m]).length := by
      by_contra hshort
      obtain ⟨q, hq, -⟩ := exists_standsFor_valueOf (.ofTarget target) (ms ++ [m]) (not_lt.1 hshort)
      rw [hvalue, hq.isInf_eq_false] at hinf
      cases hinf
    rw [List.length_append, List.length_singleton] at hdeep
    rw [hlength, lt_min_iff] at hdepth
    omega

/-- As many steps can be made as there are, unless an infinite number is asked for. -/
theorem Kept.leads_or (hk : h.Kept limits target) (elapsed : Nat → Nat) (n : Nat) :
    (∃ c ≤ 2100 * n, Leads limits target elapsed h c (h.after limits target elapsed n))
      ∨ ∃ c h' value, Leads limits target elapsed h c h' ∧ h'.asks target = some value
        ∧ value.isInf = true ∧ (double (Scalar.abs target)).isFinite = true
        ∧ 1022 ≤ limits.maxDepth ∧ 1023 ≤ limits.maxExpansions := by
  induction n generalizing h with
  | zero => exact .inl ⟨0, Nat.zero_le _, .refl h⟩
  | succ n ih =>
    rw [History.after]
    rcases hnext : h.next limits target elapsed with _ | h'
    · exact .inl ⟨0, Nat.zero_le _, .refl h⟩
    rcases waits_or limits target h with ⟨k, hkle, hwaits⟩ | ⟨value, hasks, hinf, hfinite⟩
    · refine (ih (hk.next hnext)).imp ?_ ?_
      · rintro ⟨c, hc, hleads⟩
        exact ⟨1 + k + c, by omega, .step hwaits hnext hleads⟩
      · rintro ⟨c, h'', value, hleads, hasks⟩
        exact ⟨1 + k + c, h'', value, .step hwaits hnext hleads, hasks⟩
    · exact .inr ⟨0, h, value, .refl h, hasks, hinf, hfinite, hk.of_asks_isInf hasks hinf⟩

end Ends

end History

end HexPatterns.Synthesis
