import HexPatterns.Scalar.Binary64

/-!
# The shortest decimal

A double is written with the fewest decimal digits that read back as the same double; of two
candidates the nearer one is taken, and the upper one if they are equally near. The digits stand in
their places, without an exponent.

The reals that round to a finite double form an interval, whose ends belong to it if the significand
is even. For one digit, two digits, and so on, the two neighbours of the double on the decimal grid
are tried until one lies in the interval; seventeen digits always suffice. All arithmetic is exact.
-/

namespace HexPatterns

/-- The number `digits · 10 ^ power`. -/
structure Decimal where
  digits : Nat
  power : Int
deriving DecidableEq, Repr

namespace Decimal

def powerOfTen (n : Nat) : Nat := Nat.pow 10 n

/-- The reals that round to a double: `low` to `high`, around `mid`, in units of `1 / unit`. -/
structure Interval where
  low : Nat
  mid : Nat
  high : Nat
  unit : Nat
  /-- Whether the ends belong to the interval. -/
  closed : Bool

namespace Interval

def ofBinary64 (b : Binary64) : Interval :=
  let m := b.significand
  let q := b.scale - 2
  -- the gap below a power of two is half as wide
  let below := if b.fraction = 0 ∧ 1 < b.exponent then 1 else 2
  { low := (4 * m - below) <<< q.toNat
    mid := (4 * m) <<< q.toNat
    high := (4 * m + 2) <<< q.toNat
    unit := 1 <<< (-q).toNat
    closed := m % 2 = 0 }

/-- The interval in units of `10 ^ p`. -/
def rescale (i : Interval) (p : Int) : Interval :=
  let factor := powerOfTen (-p).toNat
  { i with
    low := i.low * factor
    mid := i.mid * factor
    high := i.high * factor
    unit := i.unit * powerOfTen p.toNat }

def contains (i : Interval) (n : Nat) : Bool :=
  let x := n * i.unit
  if i.closed then i.low ≤ x && x ≤ i.high else i.low < x && x < i.high

/-- A whole number in the interval next to its middle, if one of the two neighbours is in it. -/
def nearest? (i : Interval) : Option Nat :=
  let d := i.mid / i.unit
  match i.contains d, i.contains (d + 1) with
  | true, true => some (if 2 * (i.mid - d * i.unit) < i.unit then d else d + 1)
  | true, false => some d
  | false, true => some (d + 1)
  | false, false => none

/-- The least power of ten above the middle, at `k` or one of the `n` powers after it. -/
def magnitude (i : Interval) (k : Int) : Nat → Int
  | 0 => k
  | n + 1 =>
    if i.mid * powerOfTen (-k).toNat < i.unit * powerOfTen k.toNat then k
    else magnitude i (k + 1) n

/-- Tries grids of `n` digits and more below `10 ^ k`. -/
def search (i : Interval) (k : Int) : Nat → Nat → Decimal
  | 0, n => ⟨i.mid / i.unit, k - n⟩
  | fuel + 1, n =>
    match (i.rescale (k - n)).nearest? with
    | some d => if d = powerOfTen n then ⟨1, k⟩ else ⟨d, k - n⟩
    | none => search i k fuel (n + 1)

end Interval

/-- The shortest decimal of a finite double other than zero, without its sign. -/
def shortest (b : Binary64) : Decimal :=
  let i := Interval.ofBinary64 b
  let bits : Int := b.significand.log2 + b.scale
  i.search (i.magnitude (bits * 30103 / 100000 - 1) 4) 17 1

/-- The digits in their places, without an exponent. -/
def positional (d : Decimal) : String :=
  let digits := Nat.toDigits 10 d.digits
  let p := d.power
  if 0 ≤ p then String.ofList (digits ++ List.replicate p.toNat '0')
  else
    let places := (-p).toNat
    let padded := List.replicate (places + 1 - digits.length) '0' ++ digits
    let whole := padded.length - places
    String.ofList (padded.take whole ++ '.' :: padded.drop whole)

end Decimal

/-- A double as messages show it. -/
def showFloat (x : Float) : String :=
  let b := Binary64.ofFloat x
  if x.isNaN then "NaN"
  else
    let magnitude :=
      if !b.isFinite then "inf"
      else if b.significand = 0 then "0"
      else (Decimal.shortest b).positional
    if b.negative then "-" ++ magnitude else magnitude

end HexPatterns
