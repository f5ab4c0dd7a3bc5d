/-!
# Numbers that a walk can count in

A walk doubles, halves and adds; a search also compares, and measures how far it still has to go.
`Scalar` is what this takes of a type of numbers. Walks and searches are written over any such type:
they run on binary floating point, and exact arithmetic stands beside it.

`floor`, `ceil`, `modNat` and `count` are only asked of magnitudes, that is of numbers that are not
negative.
-/

namespace HexPatterns

class Scalar (α : Type) where
  ofNat : Nat → α
  add : α → α → α
  sub : α → α → α
  abs : α → α
  double : α → α
  halve : α → α
  divNat : α → Nat → α
  /-- The remainder of a division by a natural number. -/
  modNat : α → Nat → α
  floor : α → α
  ceil : α → α
  /-- The whole part, at most `2 ^ 32 - 1`. -/
  count : α → Nat
  lt : α → α → Bool
  /-- Equality of numbers. -/
  eq : α → α → Bool
  /-- Numbers that are told apart have different keys. -/
  Key : Type
  key : α → Key
  [keyEq : DecidableEq Key]
  [keyHash : Hashable Key]

namespace Scalar

variable {α : Type} [Scalar α]

instance : DecidableEq (Key α) := keyEq

instance : Hashable (Key α) := keyHash

/-- The largest count. -/
def countMax : Nat := 0xffffffff

@[inline] def zero : α := ofNat 0

@[inline] def isZero (x : α) : Bool := eq x zero

@[inline] def le (x y : α) : Bool := lt x y || eq x y

/-- How far two numbers are apart. -/
@[inline] def distance (x y : α) : α := abs (sub x y)

end Scalar

end HexPatterns
