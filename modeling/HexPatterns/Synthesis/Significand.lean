import HexPatterns.Grid.Move
import HexPatterns.Scalar.Binary64
import HexPatterns.Scalar.Float

/-!
# Spelling a number by its binary digits

Without any search, a pattern can spell the seven leading binary digits of a number: it adds one for
a digit that is one and doubles after every digit. Pairs of a halving and a doubling, one more after
each digit, lead the walk apart without changing the number. Doublings or halvings at the end make
up for the exponent. Edges may be taken twice.
-/

namespace HexPatterns.Synthesis

open Grid

/-- How many leading digits are spelled. -/
def digitCount : Nat := 7

/-- The seven leading digits of a double, as a number; the first of them is one. -/
def leadingDigits (b : Binary64) : Nat :=
  (1 <<< 52 + b.fraction) >>> (53 - digitCount)

/-- The moves for digit number `i` of `digits`, counted from the highest. -/
def digitMoves (digits i : Nat) : List Move :=
  (if digits.testBit (digitCount - 1 - i) then [.addOne] else []) ++
    .double :: (List.replicate (i + 1) [Move.halve, Move.double]).flatten

/-- Doubles `e` times, or halves `-e` times. -/
def exponentMoves (e : Int) : List Move :=
  List.replicate e.natAbs (if e < 0 then .halve else .double)

/-- The moves behind the header that spell the leading digits of a double. The digits are doubled
once more than their places ask for. -/
def significandMoves (b : Binary64) : List Move :=
  (List.range digitCount).flatMap (digitMoves (leadingDigits b)) ++
    exponentMoves ((b.exponent : Int) - 1023 - digitCount)

/-- The pattern of the leading digits of a number; of zero, only the header. -/
def spellDigits (x : Float) : String :=
  let sign := Sign.ofTarget x
  let moves := if x == 0.0 then [] else significandMoves (.ofFloat x)
  String.ofList ((sign.header ++ moves).map Move.symbol)

end HexPatterns.Synthesis
