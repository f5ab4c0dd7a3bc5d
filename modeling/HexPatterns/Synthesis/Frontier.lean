import Std.Data.TreeMap

/-!
# The frontier of a search

States wait to be taken up in the order of their scores, the least first; of equal scores, the one
that came first.
-/

namespace HexPatterns.Synthesis

/-- What a waiting state is ordered by: its score, then its turn. -/
structure Rank where
  score : Nat
  turn : Nat
deriving DecidableEq, Repr

def Rank.cmp : Rank → Rank → Ordering :=
  compareLex (compareOn Rank.score) (compareOn Rank.turn)

structure Frontier (σ : Type) where
  waiting : Std.TreeMap Rank σ Rank.cmp
  /-- The turn of the state that comes next. -/
  next : Nat

namespace Frontier

variable {σ : Type}

def empty : Frontier σ := ⟨∅, 0⟩

/-- Lets a state wait. -/
def push (f : Frontier σ) (score : Nat) (s : σ) : Frontier σ :=
  ⟨f.waiting.insert ⟨score, f.next⟩ s, f.next + 1⟩

/-- The first of the waiting states, and the frontier without it. -/
def pop? (f : Frontier σ) : Option (σ × Frontier σ) :=
  f.waiting.minEntry?.map fun (rank, s) => (s, { f with waiting := f.waiting.erase rank })

end Frontier

end HexPatterns.Synthesis
