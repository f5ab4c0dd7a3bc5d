import HexPatterns.Settings.Basic

/-!
# Arguments of the command

    SOURCE [OUTPUT] [--nostd] [--verbose] [--outputmacrohex] [--config FILE]

Arguments are read from left to right and the first fault ends the reading. A path is only looked at
when the next argument shows that it is complete, so that an argument that is unknown is reported in
preference to an empty path in front of it. A `--` ends the options.
-/

namespace HexPatterns

/-- Why the command line is refused, or what it asks for instead. -/
inductive UsageFault where
  /-- There is no source. -/
  | missingSource
  /-- An option that does not exist, or a third path. -/
  | unknownArgument
  /-- An option that is given twice. -/
  | repeatedOption
  /-- A flag that is given a value. -/
  | unwantedValue
  /-- A path that is empty or missing. -/
  | invalidValue
  | helpWanted
  | versionWanted
deriving DecidableEq, Repr

structure Arguments where
  source : Path
  output : Option Path
  config : Option Path
  noStd : Bool
  verbose : Bool
  outputMacrohex : Bool
deriving DecidableEq, Repr

namespace Arguments

/-- The file to compile: the source, which may be given without its extension. -/
def sourcePath (a : Arguments) : Path :=
  if a.source.extension?.isSome then a.source else a.source.withExtension Path.sourceExtension

/-- The file to write: by default the source with another extension. -/
def outputPath (a : Arguments) : Path :=
  a.output.getD (a.sourcePath.withExtension Path.outputExtension)

/-- Flags override settings. -/
def apply (a : Arguments) (s : Settings) : Settings :=
  { s with
    includeStd := s.includeStd && !a.noStd
    verbose := s.verbose || a.verbose
    outputFormat := if a.outputMacrohex then .macrohex else s.outputFormat }

/-! ## Reading -/

/-- What a path is given for. -/
inductive Slot where
  | source
  | output
  | config
deriving DecidableEq, Repr

inductive Flag where
  | noStd
  | verbose
  | outputMacrohex
deriving DecidableEq, Repr

/-- The arguments read so far. -/
structure Reading where
  paths : List (Slot × Path)
  flags : List Flag
  /-- A path that has not been looked at, or an option that still waits for one. -/
  pending : Option (Slot × Option String)
  /-- How many paths were given on their own. -/
  positional : Nat
  /-- Whether options have been ended. -/
  trailing : Bool

namespace Reading

def start : Reading := ⟨[], [], none, 0, false⟩

def path? (r : Reading) (slot : Slot) : Option Path :=
  r.paths.lookup slot

/-- Takes a path for a slot that has none yet. -/
def takePath (r : Reading) (slot : Slot) (text : String) : Except UsageFault Reading :=
  if (r.path? slot).isSome then .error .repeatedOption
  else if text.isEmpty then .error .invalidValue
  else .ok { r with paths := (slot, ⟨text⟩) :: r.paths }

/-- Looks at the path that is pending. -/
def settle (r : Reading) : Except UsageFault Reading :=
  match r.pending with
  | none => .ok r
  | some (_, none) => .error .invalidValue
  | some (slot, some text) => { r with pending := none }.takePath slot text

def takeFlag (r : Reading) (f : Flag) : Except UsageFault Reading := do
  let r ← r.settle
  if r.flags.contains f then .error .repeatedOption else .ok { r with flags := f :: r.flags }

/-- A path that is given on its own: the source, then the output. -/
def takePositional (r : Reading) (text : String) : Except UsageFault Reading :=
  let next (slot : Slot) : Except UsageFault Reading := do
    let r ← r.settle
    return { r with pending := some (slot, some text), positional := r.positional + 1 }
  match r.positional with
  | 0 => next .source
  | 1 => next .output
  | _ => .error .unknownArgument

/-- An option that starts with two dashes, and the value that is attached to it. -/
def takeLong (r : Reading) (name : String) (value : Option String) : Except UsageFault Reading :=
  let bare (act : Except UsageFault Reading) : Except UsageFault Reading :=
    if value.isSome then .error .unwantedValue else act
  match name with
  | "nostd" => bare (r.takeFlag .noStd)
  | "verbose" => bare (r.takeFlag .verbose)
  | "outputmacrohex" => bare (r.takeFlag .outputMacrohex)
  | "help" => bare do let _ ← r.settle; .error .helpWanted
  | "version" => bare do let _ ← r.settle; .error .versionWanted
  | "config" => do
    let r ← r.settle
    match value with
    | some text => r.takePath .config text
    | none => return { r with pending := some (.config, none) }
  | _ => .error .unknownArgument

/-- An option that starts with one dash. -/
def takeShort (r : Reading) (name : Char) : Except UsageFault Reading := do
  if name = 'h' then let _ ← r.settle; .error .helpWanted
  else if name = 'V' then let _ ← r.settle; .error .versionWanted
  else .error .unknownArgument

/-- The name of an option and the value behind its equals sign. -/
def splitOption (cs : List Char) : String × Option String :=
  let name := String.ofList (cs.takeWhile (· ≠ '='))
  match cs.dropWhile (· ≠ '=') with
  | _ :: value => (name, some (String.ofList value))
  | [] => (name, none)

def take (r : Reading) (arg : String) : Except UsageFault Reading :=
  if r.trailing then r.takePositional arg
  else
    match arg.toList with
    | ['-', '-'] => .ok { r with trailing := true }
    | '-' :: '-' :: cs => let (name, value) := splitOption cs; r.takeLong name value
    | '-' :: c :: _ => r.takeShort c
    | _ =>
      match r.pending with
      | some (slot, none) => .ok { r with pending := some (slot, some arg) }
      | _ => r.takePositional arg

/-- The arguments, once all are read. -/
def finish (r : Reading) : Except UsageFault Arguments := do
  let r ← r.settle
  match r.path? .source with
  | none => .error .missingSource
  | some source => return {
      source
      output := r.path? .output
      config := r.path? .config
      noStd := r.flags.contains .noStd
      verbose := r.flags.contains .verbose
      outputMacrohex := r.flags.contains .outputMacrohex }

end Reading

/-- Reads a command line, without the name of the command. -/
def ofList (args : List String) : Except UsageFault Arguments := do
  (← args.foldlM Reading.take Reading.start).finish

end Arguments

end HexPatterns
