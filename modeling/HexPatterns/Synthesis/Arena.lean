import HexPatterns.Grid.Walk

/-!
# The nodes of a search

A search keeps all its walks in one arena. A node holds the last step of a walk, what the walk has
come to, and the index of the node before it. The edges that a walk has taken and the moves that it
has made are read back along these indices.
-/

namespace HexPatterns.Synthesis

open Grid

structure Node (α : Type) where
  walker : Walker
  /-- The number that the walk has come to. -/
  value : α
  /-- The moves behind the header. -/
  depth : Nat
  /-- The node before this one. The first node of a walk has none. -/
  parent : Option Nat
  step : Step

/-- What a node is known by. -/
structure Stance (κ : Type) where
  position : Point
  facing : Facing
  value : κ
deriving DecidableEq, Hashable

/-- The nodes made so far, in order. -/
structure Arena (α : Type) where
  nodes : Array (Node α)

section Nodes

variable {α : Type}

/-- The node of a move from where a walker stands. -/
def Node.ofMove (w : Walker) (m : Move) (value : α) (depth : Nat) (parent : Option Nat) : Node α :=
  ⟨w.after m, value, depth, parent, ⟨m, w.edge m⟩⟩

namespace Arena

def empty : Arena α := ⟨#[]⟩

def size (a : Arena α) : Nat := a.nodes.size

def push (a : Arena α) (n : Node α) : Arena α := ⟨a.nodes.push n⟩

end Arena

end Nodes

variable {α : Type} [Scalar α]

namespace Node

instance : Inhabited (Node α) := ⟨ofMove (.start .positive) .double Scalar.zero 0 none⟩

/-- The node of a move from node number `i`. -/
@[specialize] def child (s : Sign) (n : Node α) (i : Nat) (m : Move) : Node α :=
  ofMove n.walker m (m.apply s n.value) (n.depth + 1) (some i)

def stance (n : Node α) : Stance (Scalar.Key α) :=
  ⟨n.walker.position, n.walker.facing, Scalar.key n.value⟩

end Node

namespace Arena

def get (a : Arena α) (i : Nat) : Node α := a.nodes[i]!

/-- The nodes of the walk that ends in node number `i`, the last one first. -/
def ancestry (a : Arena α) (i : Nat) : List (Node α) :=
  a.get i :: match (a.get i).parent with
    | none => []
    | some p => if p < i then a.ancestry p else []
termination_by i

/-- Whether the walk that ends in node number `i` has taken an edge. -/
def uses (a : Arena α) (i : Nat) (e : Edge) : Bool :=
  (a.ancestry i).any (·.step.edge = e)

/-- The moves of the walk that ends in node number `i`, written down. -/
def pattern (a : Arena α) (i : Nat) : String :=
  String.ofList ((a.ancestry i).map (·.step.move.symbol)).reverse

/-- The walk of a sign's header, which counts for nothing, and the index of its last node. -/
def seed (s : Sign) : Arena α × Nat :=
  let (a, _, parent) := s.header.foldl
    (fun (a, w, parent) m =>
      (a.push (.ofMove w m Scalar.zero 0 parent), w.after m, some a.size))
    (empty, Walker.start s, none)
  (a, parent.getD 0)

end Arena

end HexPatterns.Synthesis
