import Std.Data.HashSet
import HexPatterns.Diagnostic
import HexPatterns.Event
import HexPatterns.Files.Store
import HexPatterns.Registry
import HexPatterns.Scalar.Float
import HexPatterns.Settings.Basic
import HexPatterns.Source.Catalog

/-!
# Compilations

A compilation works on one file after another and remembers what it has come across: macros,
sources, numbers, the names of the files it has included. A diagnostic ends the work on a file; what
was done before it stays done.
-/

namespace HexPatterns

open Synthesis

structure Compilation (σ : Type) where
  settings : Settings
  registry : Registry
  solver : Solver Float
  catalog : Catalog
  log : Array Event
  store : σ
  /-- Base names of the files included so far. -/
  included : Std.HashSet String
  /-- The files of the library, once they have been looked for. -/
  library : Option (List Path)
  /-- The directory of the program. -/
  home : Path

/-- Work that may end with a diagnostic; the state of the compilation outlives it. -/
abbrev CompileM (σ : Type) := ExceptT Diagnostic (StateM (Compilation σ))

namespace Compilation

variable {σ : Type}

/-- A compilation that has seen no file. -/
def new (settings : Settings) (clock : Nat → Nat → Nat) (home : Path) (store : σ) :
    Compilation σ :=
  { settings
    registry := .empty
    solver := .new settings.solver clock
    catalog := .empty
    log := #[]
    store
    included := ∅
    library := none
    home }

def isIncluded (c : Compilation σ) (name : String) : Bool :=
  c.included.contains name

end Compilation

namespace CompileM

variable {σ : Type}

def note (e : Event) : CompileM σ Unit :=
  modify fun c => { c with log := c.log.push e }

/-- Notes that a stage is done, and the tokens it has led to. -/
def noteStage (stage : Stage) (name : String) (ts : List Token) : CompileM σ Unit := do
  note (.stageDone stage name)
  note (.ofTokens name ts)

/-- The source that a token is from. -/
def sourceOf (t : Token) : CompileM σ SourceText :=
  return (← get).catalog.find t.origin

end CompileM

end HexPatterns
