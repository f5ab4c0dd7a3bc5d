/-!
# Binary floating point, taken apart

A double is a sign, an exponent of eleven bits and a fraction of fifty-two. If it is finite its
magnitude is `significand · 2 ^ scale`.
-/

namespace HexPatterns

structure Binary64 where
  negative : Bool
  /-- The exponent as stored. -/
  exponent : Nat
  fraction : Nat
deriving DecidableEq, Repr

namespace Binary64

def ofFloat (x : Float) : Binary64 :=
  let bits := x.toBits
  { negative := bits >>> 63 != 0
    exponent := ((bits >>> 52) &&& 0x7ff).toNat
    fraction := (bits &&& 0xfffffffffffff).toNat }

def isFinite (b : Binary64) : Bool :=
  b.exponent < 0x7ff

/-- The fraction with its leading one, which the subnormal numbers lack. -/
def significand (b : Binary64) : Nat :=
  if b.exponent = 0 then b.fraction else 1 <<< 52 + b.fraction

/-- The power of two that a unit of the significand stands for. -/
def scale (b : Binary64) : Int :=
  if b.exponent = 0 then -1074 else (b.exponent : Int) - 1075

end Binary64

end HexPatterns
