import HexPatterns.Scalar.Basic
import HexPatterns.Scalar.Binary64

/-!
# Counting in binary floating point

The numbers that programs write, with the rounding of binary64. A key is the number's bits, the two
zeros having the same one.
-/

namespace HexPatterns.Scalar

def floatTwo : Float := 2.0

/-- The greatest whole number not above a magnitude. -/
@[inline] def floatFloor (x : Float) : Float :=
  if x < 9007199254740992.0 then x.toUInt64.toFloat else x

/-- The least whole number not below a magnitude. -/
@[inline] def floatCeil (x : Float) : Float :=
  let f := floatFloor x
  if f < x then f + 1.0 else f

/-- The exact remainder of a magnitude. There is none of an infinite one. -/
def floatMod (x : Float) (n : Nat) : Float :=
  if x < Float.ofNat n then x
  else
    let b := Binary64.ofFloat x
    if b.isFinite then
      -- not below `n`, hence the scale is not below -52 and both terms are exact
      if b.scale < 0 then
        let unit := 1 <<< (-b.scale).toNat
        Float.ofNat (b.significand % (n * unit)) / Float.ofNat unit
      else
        Float.ofNat ((b.significand <<< b.scale.toNat) % n)
    else 0.0 / 0.0

instance : Scalar Float where
  ofNat := Float.ofNat
  add x y := x + y
  sub x y := x - y
  abs := Float.abs
  double x := x + x
  halve x := x / floatTwo
  divNat x n := x / Float.ofNat n
  modNat := floatMod
  floor := floatFloor
  ceil := floatCeil
  count x := x.toUInt32.toNat
  lt x y := x < y
  eq x y := x == y
  Key := UInt64
  key x := (x + 0.0).toBits

end HexPatterns.Scalar
