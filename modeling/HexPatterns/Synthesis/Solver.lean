import Std.Data.HashMap
import HexPatterns.Synthesis.Search

/-!
# Solvers

A solver answers one target after another under the same limits. It searches each number once and
remembers the answer; its counters tell how often it searched, how often it remembered, and how many
states its searches took up.
-/

namespace HexPatterns.Synthesis

structure Counters where
  searches : Nat
  cacheHits : Nat
  /-- States taken up by all searches. -/
  expansions : Nat
deriving DecidableEq, Repr

structure Solver (α : Type) [Scalar α] where
  limits : Limits α
  memo : Std.HashMap (Scalar.Key α) (Solution α)
  counters : Counters
  /-- How many milliseconds search number `k` had taken when it took up its `n`-th state. -/
  clock : Nat → Nat → Nat

namespace Solver

variable {α : Type} [Scalar α]

/-- A solver that has not searched yet. -/
def new (limits : Limits α) (clock : Nat → Nat → Nat) : Solver α :=
  ⟨limits, ∅, ⟨0, 0, 0⟩, clock⟩

/-- The answer to a target, and the solver that remembers it. -/
@[specialize] def solve (s : Solver α) (target : α) : Solution α × Solver α :=
  let key := Scalar.key target
  match s.memo[key]? with
  | some found => (found, { s with counters.cacheHits := s.counters.cacheHits + 1 })
  | none =>
    let done := search s.limits (s.clock s.counters.searches) target
    (done.solution, { s with
      memo := s.memo.insert key done.solution
      counters := { s.counters with
        searches := s.counters.searches + 1
        expansions := s.counters.expansions + done.expansions } })

end Solver

end HexPatterns.Synthesis
