/-!
# Positions

A place in a source text: a line and, within it, a character. Both count from zero and are shown
counting from one.
-/

namespace HexPatterns

structure Position where
  line : Nat
  column : Nat
deriving DecidableEq, Repr, Inhabited

namespace Position

/-- The start of a text. -/
def origin : Position := ⟨0, 0⟩

/-- The position as a reader counts it. -/
def shown (p : Position) : String :=
  toString (p.line + 1) ++ ", " ++ toString (p.column + 1)

end Position

end HexPatterns
