import HexPatterns.Decimal.Shortest
import HexPatterns.Path
import HexPatterns.Synthesis.Solver
import HexPatterns.Token.Basic

/-!
# Events

What a compilation notes on its way. Some events are warnings; the others are for those who asked to
be told more. A compilation has no clock, so where a line speaks of a time it shows `<t>`.
-/

namespace HexPatterns

/-- A part of the work on a file that is reported when it is done. -/
inductive Stage where
  | tokenization
  | includes
  | definitions
deriving DecidableEq, Repr

def Stage.label : Stage → String
  | tokenization => "tokenization"
  | includes => "include pass"
  | definitions => "definition pass"

inductive Event where
  | alreadyIncluded (name : String)
  | stageDone (stage : Stage) (name : String)
  | tokenCounts (name : String) (total : Nat) (counts : List (Token.Kind × Nat))
  | roundStarted (number : Nat) (name : String)
  | roundsDone (name : String)
  | stoppedExpanding (name : String) (rounds unresolved : Nat)
  | solverCounters (counters : Synthesis.Counters)
  | fileDone (name : String)
  | cacheHit (number : Float)
  | synthesized (number : Float) (pattern : String)
  | inexact (origin : String) (position : Position) (number value residual : Float)
  | libraryMissing (dir : Path)
deriving Repr

namespace Event

/-- The counts of a file's tokens. -/
def ofTokens (name : String) (ts : List Token) : Event :=
  tokenCounts name ts.length (Token.Kind.all.map fun k => (k, Token.countKind ts k))

def isWarning : Event → Bool
  | stoppedExpanding .. | inexact .. | libraryMissing _ => true
  | _ => false

def text : Event → String
  | alreadyIncluded name => s!"{name} already included"
  | stageDone stage name => stage.label ++ s!" for {name} completed in <t>"
  | tokenCounts name total counts =>
    s!"{name} token stats: total {total}, " ++
      ", ".intercalate (counts.map fun (k, n) => k.label ++ ": " ++ toString n)
  | roundStarted number name => s!"call/generator pass {number} for {name}"
  | roundsDone name => s!"call/generator passes for {name} completed in <t>"
  | stoppedExpanding name rounds unresolved =>
    s!"{name}: stopped expanding after {rounds} iterations with {unresolved} unresolved token(s)"
  | solverCounters c =>
    s!"number synthesis: {c.searches} searches, {c.cacheHits} cache hits, " ++
      s!"{c.expansions} states expanded"
  | fileDone name => s!"parsing {name} took <t> total"
  | cacheHit number => "number cache hit for " ++ showFloat number
  | synthesized number pattern => "synthesized " ++ showFloat number ++ s!" as {pattern} in <t>"
  | inexact origin position number value residual =>
    origin ++ " " ++ position.shown ++ ": couldn't reach " ++ showFloat number ++
      " exactly, closest is " ++ showFloat value ++ " (off by " ++ showFloat residual ++ ")"
  | libraryMissing dir => "couldn't find std path " ++ dir.text

end Event

/-- The events that are shown: warnings, and all the others to those who asked for them. -/
def visibleEvents (verbose : Bool) (events : List Event) : List Event :=
  events.filter fun e => verbose || e.isWarning

end HexPatterns
