import HexPatterns.Path
import HexPatterns.Synthesis.Search

/-!
# Settings

What a compilation can be told. All settings have defaults.
-/

namespace HexPatterns

/-- How the compiled patterns are written. -/
inductive OutputFormat where
  /-- One pattern a line. -/
  | rawhex
  /-- One literal a line, so that the output is a source again. -/
  | macrohex
deriving DecidableEq, Repr

structure Settings where
  /-- Whether the library is put in front of every file. -/
  includeStd : Bool
  /-- The directory of the library, if it is not the usual one. -/
  stdPath : Option Path
  verbose : Bool
  outputFormat : OutputFormat
  /-- How many rounds of expansion a file is given. -/
  maxIterations : Nat
  solver : Synthesis.Limits Float
deriving Repr

namespace Settings

def defaultLimits : Synthesis.Limits Float :=
  { timeoutMs := 5000
    maxDepth := 30
    precision := 1e-3
    maxExpansions := 250000 }

def default : Settings :=
  { includeStd := true
    stdPath := none
    verbose := false
    outputFormat := .rawhex
    maxIterations := 100
    solver := defaultLimits }

/-- The directory of the library: by default `std` in the directory of the program. -/
def libraryPath (s : Settings) (home : Path) : Path :=
  s.stdPath.getD (home.join ⟨"std"⟩)

end Settings

end HexPatterns
