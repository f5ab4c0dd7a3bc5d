import Std.Data.HashSet
import HexPatterns.Grid.Move

/-!
# Walks

A pattern is a walk on the lattice: it starts at the origin, and each move turns the walker and
takes it along one edge. `Track` is a walk with its steps. A pattern also counts: from zero, by the
moves behind its header. `replay` walks a pattern and counts along.
-/

namespace HexPatterns.Grid

/-- Where a walker stands and which way it faces. -/
structure Walker where
  position : Point
  facing : Facing
deriving DecidableEq, Repr

namespace Walker

/-- The walker of a sign before its first move. -/
def start (s : Sign) : Walker := ⟨.origin, s.initialFacing⟩

/-- The walker after a move: it turns, then it goes to the next point. -/
def after (w : Walker) (m : Move) : Walker :=
  let facing := m.turn w.facing
  ⟨w.position.neighbor facing, facing⟩

/-- The edge that a move takes. -/
def edge (w : Walker) (m : Move) : Edge :=
  .between w.position (w.after m).position

end Walker

/-- A move that was made, and the edge it took. -/
structure Step where
  move : Move
  edge : Edge
deriving DecidableEq, Repr

/-- A walk: the walker at its end, and its steps, the last one first. -/
structure Track where
  walker : Walker
  steps : List Step
deriving DecidableEq, Repr

namespace Track

/-- The walk of a sign before its first move. -/
def start (s : Sign) : Track := ⟨.start s, []⟩

def extend (t : Track) (m : Move) : Track :=
  ⟨t.walker.after m, ⟨m, t.walker.edge m⟩ :: t.steps⟩

/-- The walk of some moves. -/
def ofMoves (s : Sign) (ms : List Move) : Track :=
  ms.foldl extend (start s)

/-- Whether the walk has taken an edge. -/
def uses (t : Track) (e : Edge) : Bool :=
  t.steps.any (·.edge = e)

/-- The edges of the walk, in order. -/
def edges (t : Track) : List Edge :=
  (t.steps.map Step.edge).reverse

/-- The moves of the walk, written down. -/
def pattern (t : Track) : String :=
  String.ofList (t.steps.map (·.move.symbol)).reverse

end Track

/-- No edge occurs twice, nor is it among those already `seen`. -/
def allNew (seen : Std.HashSet Edge) : List Edge → Bool
  | [] => true
  | e :: es => !seen.contains e && allNew (seen.insert e) es

/-- A pattern that has been walked: its sign, the number it has come to, and the walk. -/
structure Walk (α : Type) where
  sign : Sign
  value : α
  track : Track

namespace Walk

variable {α : Type}

def edges (w : Walk α) : List Edge := w.track.edges

/-- No edge is taken twice. -/
def isSelfAvoiding (w : Walk α) : Bool :=
  allNew ∅ w.edges

end Walk

section Replay

variable {α : Type} [Scalar α]

/-- The number that moves come to from zero. -/
@[specialize] def valueOf (s : Sign) (ms : List Move) : α :=
  ms.foldl (fun x m => m.apply s x) Scalar.zero

/-- Walks a pattern. There is no walk if the header is missing or a character is no move. -/
@[specialize] def replay (pattern : List Char) : Option (Walk α) := do
  let sign ← Sign.ofPattern? pattern
  let moves ← pattern.mapM Move.ofSymbol?
  return ⟨sign, valueOf sign (moves.drop sign.header.length), .ofMoves sign moves⟩

end Replay

end HexPatterns.Grid
