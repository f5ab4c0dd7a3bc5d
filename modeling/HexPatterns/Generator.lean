import HexPatterns.Decimal.Literal
import HexPatterns.Event
import HexPatterns.Fault
import HexPatterns.Synthesis.Significand
import HexPatterns.Synthesis.Solver

/-!
# Generators

A generator writes the pattern of a number in place of a directive: by search, or by the number's
leading binary digits.
-/

namespace HexPatterns

open Synthesis

inductive Generator where
  /-- The pattern is searched. -/
  | num
  /-- The pattern spells the leading binary digits. -/
  | bits
deriving DecidableEq, Repr

namespace Generator

def all : List Generator := [num, bits]

def name : Generator → String
  | num => "Num"
  | bits => "Bits"

/-- The generator of a name, in capitals or not. -/
def ofName (s : String) : Except Fault Generator :=
  match all.find? fun g => g.name.map Char.toLower = s.map Char.toLower with
  | some g => .ok g
  | none => .error (.unknownGenerator s)

/-- The number that a generator is given: one argument, which is finite. -/
def readNumber (g : Generator) : List String → Except Fault Float
  | [literal] =>
    match (Decimal.readFloat? literal.toList).filter Float.isFinite with
    | some x => .ok x
    | none => .error (.invalidNumber literal)
  | args => .error (.generatorArguments g.name 1 args.length)

/-- Lets a solver find the pattern of a number for a directive, and notes how it went. -/
def synthesize (x : Float) (t : Token) (s : Solver Float) : String × Solver Float × List Event :=
  let hits := s.counters.cacheHits
  let (solution, after) := s.solve x
  let found :=
    if hits < after.counters.cacheHits then Event.cacheHit x
    else .synthesized x solution.pattern
  let warning :=
    if solution.exact then []
    else [Event.inexact t.origin t.position x solution.value solution.residual]
  (solution.pattern, after, found :: warning)

/-- What takes the place of a directive. -/
def generate (g : Generator) (args : List String) (t : Token) (s : Solver Float) :
    Except Fault (Token × Solver Float × List Event) := do
  let x ← g.readNumber args
  let (pattern, s, events) :=
    match g with
    | num => synthesize x t s
    | bits => (spellDigits x, s, [])
  return (⟨.literal, t.position, pattern, t.origin⟩, s, events)

end Generator

end HexPatterns
