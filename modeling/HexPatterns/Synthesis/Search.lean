import Std.Data.HashSet
import HexPatterns.Synthesis.Arena
import HexPatterns.Synthesis.Estimate
import HexPatterns.Synthesis.Frontier

/-!
# Searching for a pattern

A number is spelled by a pattern that walks no edge twice and counts to it. The search starts from
the header of the target's sign and always takes up the state that promises most; a state is a node
of its arena, and waits by its index. Two walks that come to the same point, facing the same way,
with the same number, are one state: the first to arrive stands for both. The search ends when a
state is near enough to the target, when no state is left, or when a budget is spent; its answer is
the state nearest to the target that it took up.

Time is a parameter: `elapsed n` is how many milliseconds had gone when the `n`-th state was taken
up.
-/

namespace HexPatterns.Synthesis

open Grid

/-- The budgets of a search, and how near is near enough. -/
structure Limits (α : Type) where
  timeoutMs : Nat
  /-- States this deep are not expanded. -/
  maxDepth : Nat
  precision : α
  /-- How many states are taken up at most. The first is taken up in any case. -/
  maxExpansions : Nat
deriving Repr

section Accepts

variable {α : Type} [Scalar α]

/-- Whether a residual is near enough. -/
@[inline] def Limits.accepts (l : Limits α) (residual : α) : Bool :=
  Scalar.isZero residual || Scalar.lt residual l.precision

end Accepts

/-- The best state so far. -/
structure Best (α : Type) where
  index : Nat
  /-- How far it is from the target. -/
  residual : α
  /-- Whether that is near enough. -/
  exact : Bool

/-- The pattern found for a target. -/
structure Solution (α : Type) where
  pattern : String
  /-- The number that the pattern comes to. -/
  value : α
  exact : Bool
  residual : α
deriving Repr

/-- A search under way. -/
structure Search (α : Type) [Scalar α] where
  arena : Arena α
  frontier : Frontier Nat
  seen : Std.HashSet (Stance (Scalar.Key α))
  best : Best α
  /-- How many states were taken up. -/
  expansions : Nat

/-- What a round leads to. -/
inductive Round (σ : Type) where
  | over (s : σ)
  | next (s : σ)

variable {α : Type} [Scalar α]

/-- The better of a state and the best one so far, which an equal one does not displace. -/
@[specialize] def Best.improve (limits : Limits α) (target : α) (best : Best α) (index : Nat)
    (value : α) : Best α :=
  let residual := Scalar.distance value target
  if Scalar.lt residual best.residual then ⟨index, residual, limits.accepts residual⟩ else best

namespace Search

section Rounds

variable (limits : Limits α) (target : α)

/-- A search that has taken up no state yet. The seed is as far from the target as zero is. -/
@[specialize] def start : Search α :=
  let (arena, seed) := Arena.seed (.ofTarget target)
  let residual := Scalar.abs target
  { arena
    frontier := Frontier.empty.push 0 seed
    seen := Std.HashSet.emptyWithCapacity.insert (arena.get seed).stance
    best := ⟨seed, residual, limits.accepts residual⟩
    expansions := 0 }

/-- Lets a new state wait. -/
@[specialize] def make (s : Search α) (child : Node α) : Search α :=
  let score := estimate target child.value limits.precision
  let index := s.arena.size
  { s with
    arena := s.arena.push child
    frontier := s.frontier.push score index
    seen := s.seen.insert child.stance }

/-- Makes the state of a move from node number `i`, unless its edge is taken or it is known. -/
@[specialize] def visit (i : Nat) (s : Search α) (m : Move) : Search α :=
  let node := s.arena.get i
  if s.arena.uses i (node.walker.edge m) then s
  else
    let child := node.child (.ofTarget target) i m
    if s.seen.contains child.stance then s else s.make limits target child

/-- Visits the neighbours of a state. -/
@[specialize] def expand (s : Search α) (i : Nat) : Search α :=
  Move.all.foldl (visit limits target i) s

/-- The search, once it has taken up a state. -/
@[specialize] def took (s : Search α) (i : Nat) (frontier : Frontier Nat) : Search α :=
  let best := s.best.improve limits target i (s.arena.get i).value
  { s with frontier, best, expansions := s.expansions + 1 }

/-- The state just taken up is the last one. -/
@[specialize] def isOver (elapsed : Nat → Nat) (s : Search α) : Bool :=
  s.best.exact || limits.maxExpansions ≤ s.expansions || limits.timeoutMs ≤ elapsed s.expansions

/-- Takes up the next state. -/
@[specialize] def round (elapsed : Nat → Nat) (s : Search α) : Round (Search α) :=
  match s.frontier.pop? with
  | none => .over s
  | some (i, frontier) =>
    let s := s.took limits target i frontier
    if s.isOver limits elapsed then .over s
    else if limits.maxDepth ≤ (s.arena.get i).depth then .next s
    else .next (s.expand limits target i)

/-- Runs for `n` rounds at most. -/
@[specialize] def run (elapsed : Nat → Nat) : Nat → Search α → Search α
  | 0, s => s
  | n + 1, s =>
    match round limits target elapsed s with
    | .over s => s
    | .next s => run elapsed n s

end Rounds

/-- The answer of a search. -/
def solution (s : Search α) : Solution α :=
  { pattern := s.arena.pattern s.best.index
    value := (s.arena.get s.best.index).value
    exact := s.best.exact
    residual := s.best.residual }

end Search

/-- Searches a pattern for a target, and counts the states taken up. -/
@[specialize] def search (limits : Limits α) (elapsed : Nat → Nat) (target : α) : Search α :=
  let s := Search.start limits target
  if s.best.exact then s
  else s.run limits target elapsed (max 1 limits.maxExpansions)

end HexPatterns.Synthesis
