import HexPatterns.Compilation.Expand
import HexPatterns.Compilation.Include

/-!
# Compiling a file

The tokens of a file, includes resolved, go through the definition pass and then through rounds of
expansion. The patterns that are left are written out, one a line.
-/

namespace HexPatterns

/-- The tokens as they are written out: without the blanks around them, one a line. -/
def render (format : OutputFormat) (ts : List Token) : String :=
  "\n".intercalate (ts.map fun t =>
    match format with
    | .rawhex => t.trimmed
    | .macrohex => "!" ++ t.trimmed)

namespace CompileM

variable {σ : Type}

/-- Registers the definitions of a file and expands the rest of its tokens. -/
def expandFile (name : String) (ts : List Token) : CompileM σ (List Token) := do
  let ts ← takeDefinitions ts
  noteStage .definitions name ts
  let rounds := (← get).settings.maxIterations
  let ts ← expandRounds name rounds 0 ts
  note (.roundsDone name)
  if ts.any Token.isExpandable then
    note (.stoppedExpanding name rounds (Token.countExpandable ts))
  note (.solverCounters (← get).solver.counters)
  note (.fileDone name)
  return ts

variable [FileStore σ]

/-- The tokens that a file expands to. Nothing if its name was included before. -/
def expandedTokens (path : Path) : CompileM σ (List Token) := do
  match ← enter includeFile path with
  | none => return []
  | some ts => expandFile path.baseName ts

/-- Compiles a file. -/
def compile (path : Path) : CompileM σ String := do
  let ts ← expandedTokens path
  return render (← get).settings.outputFormat ts

end CompileM

end HexPatterns
