import HexPatterns.Scalar.Basic

/-!
# How far it is to a target

The estimate orders the states of a search: the fewer moves a number seems to need, the earlier it
is taken up. From zero, the target is paid in tens, fives and ones. From any other number, the
doublings or halvings are counted that bring it within a factor of two of the target, and then the
rest in tens. Only magnitudes count.
-/

namespace HexPatterns.Synthesis

open Scalar

variable {α : Type} [Scalar α]

/-- The number of coins of ten, five and one that pay a magnitude. -/
@[specialize] def coins (target : α) : Nat :=
  let rest := modNat target 10
  let tens := floor (divNat target 10)
  let fives := floor (divNat rest 5)
  let ones := ceil (modNat rest 5)
  count (add (add tens fives) ones)

/-- Steps on from `x` as long as `more` says so: how many steps it took, counted on from `k`, and
where they led. If they never end, neither does this. -/
@[specialize] def stepWhile {β : Type} (more : β → Bool) (step : β → β) (k : Nat) (x : β) :
    Nat × β :=
  have : Nonempty (Nat × β) := ⟨(k, x)⟩
  Id.run (repeatM (fun (k, x) => if more x then .inl (k + 1, step x) else .inr (k, x)) (k, x))

/-- The magnitude `x` is not even half the target. -/
@[inline] def isFarBelow (target x : α) : Bool := lt x (halve target)

/-- The magnitude `x` is more than twice the target. -/
@[inline] def isFarAbove (target x : α) : Bool := lt (double target) x

/-- Brings the magnitude `x` within a factor of two of the target, by doubling if it is below the
target and by halving if not: how many rounds it took, and where it led. -/
@[specialize] def approach (target x : α) : Nat × α :=
  if lt x target then stepWhile (isFarBelow target) double 0 x
  else stepWhile (isFarAbove target) halve 0 x

/-- About how many moves lead from `value` to `target`; none if they are equal, or nearer to each
other than `precision`. -/
@[specialize] def estimate (target value precision : α) : Nat :=
  let t := abs target
  let v := abs value
  let gap := distance t v
  if lt gap precision || isZero gap then 0
  else if isZero value then coins t
  else
    let (k, x) := approach t v
    min countMax (k + count (ceil (divNat (distance t x) 10)))

end HexPatterns.Synthesis
