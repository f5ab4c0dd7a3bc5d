import HexPatterns.Command.Run
import HexPatterns.Files.Snapshot
import HexPatterns.Settings.Document

/-!
# The command

Looks at the files that a compilation will ask for, compiles, writes the output and prints what
there is to say. Searches run by a clock that stands still: they are bounded by the expansions they
may make, and a timeout ends them only if it is zero.
-/

namespace HexPatterns.Command

/-- What is seen of a path: the bytes of a regular file, or why there are none. -/
inductive Sight where
  | file (content : ByteArray)
  | other (fault : IoFault)

def look (path : String) : IO Sight := do
  try
    let real ← IO.FS.realPath path
    if !(← real.pathExists) then return .other .notFound
    if ← real.isDir then return .other .isDirectory
    return .file (← IO.FS.readBinFile real)
  catch _ => return .other .notFound

/-- The files below a directory, by paths that start with the given text. -/
partial def filesBelow (dir : Path) : IO (List Path) := do
  let real ← IO.FS.realPath dir.text
  let mut found := []
  for entry in ← real.readDir do
    let path := dir.join ⟨entry.fileName⟩
    if ← entry.path.isDir then found := found ++ (← filesBelow path)
    else found := found ++ [path]
  return found

/-- A walk through files and the includes in them, in the order of a compilation. -/
structure Tour where
  snapshot : Snapshot
  /-- Base names that were met. -/
  met : List String

/-- Looks at a path, unless it was looked at before. Tells whether it is a file. -/
def visit (path : Path) : StateT Tour IO Bool := do
  let s := (← get).snapshot
  if !s.knows path then
    let s :=
      match ← look path.text with
      | .file content =>
        let text := (String.fromUTF8? content).elim (.error IoFault.notText.message) .ok
        { s with files := (path, text) :: s.files }
      | .other fault => { s with others := (path, fault.message) :: s.others }
    modify fun tour => { tour with snapshot := s }
  return (← get).snapshot.isFile path

/-- Looks at the files that a file includes, behind those of the library. -/
partial def tour (library : List Path) (path : Path) : StateT Tour IO Unit := do
  if !(← visit path) || (← get).met.contains path.baseName then return
  modify fun t => { t with met := path.baseName :: t.met }
  let .ok text := (← get).snapshot.read path | return
  let .ok own := Token.scan path.text 0 text.toList | return
  for token in libraryTokens path.text library ++ own do
    if token.isInclude then
      if let [_, requested] := Text.wordsOf token.content then
        if ← visit ⟨requested⟩ then tour library ⟨requested⟩
        else if let some dir := path.parent? then tour library (dir.join ⟨requested⟩)

/-- The sources of the library, if its directory is there. -/
def listLibrary (dir : Path) : IO (Option (List Path)) := do
  match ← look dir.text with
  | .other .isDirectory =>
    let files ← filesBelow dir
    return some ((files.filter Path.isSource).mergeSort Path.le)
  | _ => return none

/-- Looks at all that a run asks for. -/
def survey (home : Path) (a : Arguments) : IO Snapshot := do
  let (_, t) ← ((a.config.toList.forM fun p => discard (visit p)).run ⟨.empty, []⟩ : IO _)
  let .ok settings := settingsOf Settings.read t.snapshot a | return t.snapshot
  let dir := settings.libraryPath home
  let found ← if settings.includeStd then listLibrary dir else pure none
  let listings := (found.map (dir, ·)).toList
  let (_, t) ← (tour (found.getD []) a.sourcePath).run
    { t with snapshot := { t.snapshot with listings } }
  return t.snapshot

/-- The reason for which a file cannot be written. -/
def reasonOf : IO.Error → String
  | .noFileOrDirectory .. => IoFault.notFound.message
  | .inappropriateType _ 20 _ => IoFault.notDirectory.message
  | .inappropriateType _ 21 _ => IoFault.isDirectory.message
  | e => toString e

def writeOutput (path : Path) (text : String) : IO (Option Diagnostic) := do
  try
    IO.FS.writeFile path.text text
    return none
  catch e => return some (.unlocated (.io "write" path.text (reasonOf e)))

/-- Runs the command on the files that are there. -/
def runOn (home : Path) (a : Arguments) : IO (Option Diagnostic) := do
  let snapshot ← survey home a
  let outcome := build Settings.read (fun _ _ => 0) home snapshot a
  for line in outcome.lines do IO.eprintln line
  match outcome.result with
  | .ok text => writeOutput a.outputPath text
  | .error d => return some d

/-- What is printed of a diagnostic. -/
def report (d : Diagnostic) : String :=
  let advice := (d.fault.help.map ("\n  help: " ++ ·)).getD ""
  d.fault.code ++ "\n" ++ d.message ++ advice

def usage : String :=
  "Usage: macrohex [OPTIONS] <SOURCE> [OUTPUT]\n\n" ++
  "  --nostd           do not include the library\n" ++
  "  --verbose         tell more on the way\n" ++
  "  --outputmacrohex  write literals instead of patterns\n" ++
  "  --config <FILE>   read settings from a YAML file\n" ++
  "  -h, --help        show this text\n" ++
  "  -V, --version     show the version"

def complaint : UsageFault → String
  | .missingSource => "no source is given"
  | .unknownArgument => "an argument is unknown"
  | .repeatedOption => "an option is given twice"
  | .unwantedValue => "a flag takes no value"
  | .invalidValue => "a path is missing or empty"
  | .helpWanted => usage
  | .versionWanted => "macrohex 0.1.0"

end HexPatterns.Command

open HexPatterns HexPatterns.Command

def main (args : List String) : IO UInt32 := do
  match Arguments.ofList args with
  | .error fault =>
    if fault = .helpWanted ∨ fault = .versionWanted then
      IO.println (complaint fault)
      return 0
    IO.eprintln ("error: " ++ complaint fault ++ "\n\n" ++ usage)
    return 2
  | .ok a =>
    let home : Path := ⟨toString (← IO.appDir)⟩
    match ← runOn home a with
    | none => return 0
    | some d =>
      IO.eprintln (report d)
      return 1
