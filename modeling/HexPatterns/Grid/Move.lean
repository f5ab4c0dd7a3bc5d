import HexPatterns.Grid.Point
import HexPatterns.Scalar.Basic

/-!
# Moves

The alphabet of patterns: five moves. Each changes a number and turns the walker by a fixed amount
before it goes on to the next point. Whether the additive moves count up or down is fixed for a
whole pattern by its sign, which the four moves at its head tell.
-/

namespace HexPatterns.Grid

/-- The direction in which a pattern counts. -/
inductive Sign where
  | positive
  | negative
deriving DecidableEq, Repr

inductive Move where
  | double
  | addFive
  | addOne
  | addTen
  | halve
deriving DecidableEq, Repr

namespace Move

/-- All moves, in the order in which they are tried. -/
def all : List Move := [double, addFive, addOne, addTen, halve]

/-- The place of a move in that order. -/
def index : Move → Fin 5
  | double => 0
  | addFive => 1
  | addOne => 2
  | addTen => 3
  | halve => 4

def symbol : Move → Char
  | double => 'a'
  | addFive => 'q'
  | addOne => 'w'
  | addTen => 'e'
  | halve => 'd'

def ofSymbol? : Char → Option Move
  | 'a' => some double
  | 'q' => some addFive
  | 'w' => some addOne
  | 'e' => some addTen
  | 'd' => some halve
  | _ => none

/-- The next facing, by the facing and then by the place of the move. -/
def transitions : Vector (Vector Facing 5) 6 :=
  #v[#v[4, 5, 0, 1, 2],
    #v[5, 0, 1, 2, 3],
    #v[0, 1, 2, 3, 4],
    #v[1, 2, 3, 4, 5],
    #v[2, 3, 4, 5, 0],
    #v[3, 4, 5, 0, 1]]

def turn (m : Move) (f : Facing) : Facing :=
  (transitions.get f).get m.index

end Move

namespace Sign

/-- The direction in which a target lies. Zero counts as positive. -/
@[specialize] def ofTarget {α : Type} [Scalar α] (target : α) : Sign :=
  if Scalar.le Scalar.zero target then positive else negative

/-- The moves at the head of a pattern of this sign. They count for nothing. -/
def header : Sign → List Move
  | positive => [.double, .addFive, .double, .double]
  | negative => [.halve, .addTen, .halve, .halve]

/-- The sign that a pattern's first moves tell. -/
def ofPattern? (pattern : List Char) : Option Sign :=
  [positive, negative].find? fun s => (s.header.map Move.symbol).isPrefixOf pattern

def initialFacing : Sign → Facing
  | positive => 2
  | negative => 4

/-- Counts on by `n` in the direction of the sign. -/
@[specialize] def advance {α : Type} [Scalar α] (s : Sign) (x : α) (n : Nat) : α :=
  match s with
  | positive => Scalar.add x (Scalar.ofNat n)
  | negative => Scalar.sub x (Scalar.ofNat n)

end Sign

/-- What a move makes of a number. -/
@[specialize] def Move.apply {α : Type} [Scalar α] (m : Move) (s : Sign) (x : α) : α :=
  match m with
  | double => Scalar.double x
  | addFive => s.advance x 5
  | addOne => s.advance x 1
  | addTen => s.advance x 10
  | halve => Scalar.halve x

end HexPatterns.Grid
