/-!
# The lattice

Points of the triangular lattice in two whole coordinates of 32 bits, the six directions in which a
point has neighbours, and the edges between neighbours. An edge has no direction: its two ends are
kept in their order, so that the same edge walked either way is the same value.
-/

namespace HexPatterns.Grid

structure Point where
  x : Int32
  y : Int32
deriving DecidableEq, Repr, Hashable

/-- One of the six directions, counted around. -/
abbrev Facing := Fin 6

/-- What one step in each direction adds to the coordinates. -/
def offsets : Vector (Int32 × Int32) 6 :=
  #v[(1, 0), (0, 1), (-1, 1), (-1, 0), (0, -1), (1, -1)]

namespace Point

def origin : Point := ⟨0, 0⟩

/-- The order by `x`, then by `y`. -/
def le (p q : Point) : Bool :=
  p.x < q.x || (p.x == q.x && p.y ≤ q.y)

/-- The neighbour in a direction. Coordinates wrap around. -/
def neighbor (p : Point) (f : Facing) : Point :=
  ⟨p.x + (offsets.get f).1, p.y + (offsets.get f).2⟩

end Point

/-- An edge, its lower end first. -/
structure Edge where
  lower : Point
  upper : Point
deriving DecidableEq, Repr, Hashable

/-- The edge between two points. -/
def Edge.between (p q : Point) : Edge :=
  if p.le q then ⟨p, q⟩ else ⟨q, p⟩

end HexPatterns.Grid
