import HexPatterns.Scalar.Basic

/-!
# Counting exactly

Rational numbers, without rounding and without bounds.
-/

namespace HexPatterns.Scalar

instance : Scalar Rat where
  ofNat n := n
  add x y := x + y
  sub x y := x - y
  abs := Rat.abs
  double x := x * 2
  halve x := x / 2
  divNat x n := x / n
  modNat x n := x - n * (x / n).floor
  floor x := x.floor
  ceil x := x.ceil
  count x := min countMax x.floor.toNat
  lt x y := x < y
  eq x y := x == y
  Key := Rat
  key x := x

end HexPatterns.Scalar
