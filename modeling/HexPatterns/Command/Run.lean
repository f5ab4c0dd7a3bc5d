import HexPatterns.Command.Arguments
import HexPatterns.Compilation.Compile
import HexPatterns.Files.Tree

/-!
# Running the command

The settings are read, the source is compiled, and only then the output is written. Nothing is
written if anything goes wrong before. How a text is read as settings and how the sources under a
directory are listed are parameters.
-/

namespace HexPatterns.Command

/-- The lines that events leave on the standard error stream. -/
def logLines (verbose : Bool) (events : List Event) : List String :=
  (visibleEvents verbose events).map fun e => if e.isWarning then "warning: " ++ e.text else e.text

/-- What a run comes to: a diagnostic or a result, and the lines of its log. -/
structure Outcome (α : Type) where
  result : Except Diagnostic α
  lines : List String

section Build

variable {σ : Type} [FileStore σ] (readSettings : String → Except String Settings)

/-- The settings that the arguments ask for. -/
def settingsOf (store : σ) (a : Arguments) : Except Diagnostic Settings := do
  let settings ←
    match a.config with
    | none => pure Settings.default
    | some path =>
      match FileStore.read store path with
      | .error reason => throw (.unlocated (.io "read config" path.text reason))
      | .ok text =>
        match readSettings text with
        | .error reason => throw (.unlocated (.invalidConfig path.text reason))
        | .ok settings => pure settings
  return a.apply settings

/-- Compiles the source under given settings. -/
def buildWith (settings : Settings) (clock : Nat → Nat → Nat) (home : Path) (store : σ)
    (a : Arguments) : Outcome String :=
  if FileStore.isFile store a.sourcePath then
    let c := Compilation.new settings clock home store
    let (result, c) := (CompileM.compile a.sourcePath).run.run c
    ⟨result, logLines settings.verbose c.log.toList⟩
  else ⟨.error (.unlocated (.fileNotFound a.sourcePath.text)), []⟩

/-- Reads the settings and compiles the source. -/
def build (clock : Nat → Nat → Nat) (home : Path) (store : σ) (a : Arguments) : Outcome String :=
  match settingsOf readSettings store a with
  | .error d => ⟨.error d, []⟩
  | .ok settings => buildWith settings clock home store a

end Build

/-- Runs the command in a file tree. The result is the tree with the output in it. -/
def execute (readSettings : String → Except String Settings)
    (sourcesUnder : FileTree → Path → Option (List Path)) (clock : Nat → Nat → Nat) (home : Path)
    (tree : FileTree) (a : Arguments) : Outcome FileTree :=
  let outcome := build readSettings clock home (ListedTree.mk tree sourcesUnder) a
  { outcome with
    result := do
      let text ← outcome.result
      (tree.write a.outputPath text).mapError fun f =>
        .unlocated (.io "write" a.outputPath.text f.message) }

end HexPatterns.Command
