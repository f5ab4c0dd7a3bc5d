import HexPatterns.Decimal.Shortest

/-!
# Reading a decimal

A decimal is written with digits, on at least one side of a point that may be missing, and perhaps
an exponent behind `e` or `E`. It is read as the double nearest to it.
-/

namespace HexPatterns.Decimal

/-- The number that decimal digits write, continuing `n`. -/
def digitsValue (n : Nat) (cs : List Char) : Nat :=
  cs.foldl (fun n c => 10 * n + (c.toNat - '0'.toNat)) n

/-- A sign in front, if there is one: whether it is a minus, and what follows. -/
def splitSign : List Char → Bool × List Char
  | '+' :: cs => (false, cs)
  | '-' :: cs => (true, cs)
  | cs => (false, cs)

/-- The exponent that ends a literal; an empty text stands for zero. -/
def readExponent? : List Char → Option Int
  | [] => some 0
  | c :: cs =>
    let (negative, digits) := splitSign cs
    if (c = 'e' ∨ c = 'E') ∧ !digits.isEmpty ∧ digits.all Char.isDigit then
      let n : Int := digitsValue 0 digits
      some (if negative then -n else n)
    else none

/-- The decimal that a literal without sign writes. -/
def ofLiteral? (cs : List Char) : Option Decimal :=
  let whole := cs.takeWhile Char.isDigit
  let rest := cs.dropWhile Char.isDigit
  let (places, rest) :=
    match rest with
    | '.' :: rest => (rest.takeWhile Char.isDigit, rest.dropWhile Char.isDigit)
    | _ => ([], rest)
  if whole.isEmpty ∧ places.isEmpty then none
  else
    (readExponent? rest).map fun e =>
      ⟨digitsValue (digitsValue 0 whole) places, e - places.length⟩

/-- The double nearest to a decimal. Far out of range it is infinite or zero. -/
def toFloat (d : Decimal) : Float :=
  let size : Int := (Nat.toDigits 10 d.digits).length + d.power
  if d.digits = 0 ∨ size < -400 then 0.0
  else if 400 < size then 1.0 / 0.0
  else Float.ofScientific d.digits (d.power < 0) d.power.natAbs

/-- The double that a literal writes, its sign included. -/
def readFloat? (cs : List Char) : Option Float :=
  let (negative, cs) := splitSign cs
  (ofLiteral? cs).map fun d => if negative then -d.toFloat else d.toFloat

end HexPatterns.Decimal
