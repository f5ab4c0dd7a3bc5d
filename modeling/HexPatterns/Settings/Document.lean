import HexPatterns.Decimal.Literal
import HexPatterns.Settings.Basic
import HexPatterns.Text.Blank
import HexPatterns.Yaml.Node

/-!
# Settings in YAML

Settings are a mapping that names those that differ from the defaults. A known key may occur once;
unknown keys are passed over. Numbers and truth values are plain scalars; a text may be written
either way.
-/

namespace HexPatterns

namespace Yaml.Node

/-- The text of a scalar, however it is written. -/
def text? : Node → Option String
  | plain text | quoted text => some text
  | _ => none

def isNull : Node → Bool
  | plain text => ["", "~", "null", "Null", "NULL"].contains text
  | _ => false

def bool? : Node → Option Bool
  | plain text =>
    if ["true", "True", "TRUE"].contains text then some true
    else if ["false", "False", "FALSE"].contains text then some false
    else none
  | _ => none

/-- A number of sixty-four bits without sign. A zero in front of other digits makes it a text. -/
def nat? : Node → Option Nat
  | plain text =>
    let cs := text.toList
    let cs := if cs.head? = some '+' then cs.drop 1 else cs
    let value :=
      match cs with
      | '0' :: 'x' :: rest => digitsIn? 16 rest
      | '0' :: 'o' :: rest => digitsIn? 8 rest
      | '0' :: 'b' :: rest => digitsIn? 2 rest
      | ['0'] => some 0
      | '0' :: _ => none
      | _ => digitsIn? 10 cs
    value.filter (· < UInt64.size)
  | _ => none

/-- A number. It is finite unless it is one of the words for what is not. -/
def float? : Node → Option Float
  | plain text =>
    if [".inf", ".Inf", ".INF", "+.inf", "+.Inf", "+.INF"].contains text then some (1.0 / 0.0)
    else if ["-.inf", "-.Inf", "-.INF"].contains text then some (-1.0 / 0.0)
    else if [".nan", ".NaN", ".NAN"].contains text then some (0.0 / 0.0)
    else (Decimal.readFloat? text.toList).filter Float.isFinite
  | _ => none

def outputFormat? (n : Node) : Option OutputFormat :=
  match n.text? with
  | some "rawhex" => some .rawhex
  | some "macrohex" => some .macrohex
  | _ => none

/-- The entries of a mapping by the texts of their keys. -/
def entries? : Node → Option (List (String × Node))
  | mapping entries => entries.mapM fun (key, value) => key.text?.map (·, value)
  | _ => none

end Yaml.Node

namespace Settings

open Yaml

/-- Why a text gives no settings. -/
inductive Fault where
  | yaml (fault : Yaml.Fault)
  | notMapping
  | repeatedKey (key : String)
  | invalidValue (key : String)
deriving DecidableEq, Repr

def Fault.message : Fault → String
  | yaml fault => fault.message
  | notMapping => "a mapping is expected"
  | repeatedKey key => s!"{key} is set twice"
  | invalidValue key => s!"{key} has an invalid value"

/-- The entries of a mapping. The value that is missing counts as an empty one; a null does not. -/
def entriesOf : Node → Except Fault (List (String × Node))
  | .plain "" => .ok []
  | n => (n.entries?.map .ok).getD (.error .notMapping)

/-- The value of a key, if it is there; it may be there only once. -/
def uniqueValue (entries : List (String × Node)) (key : String) : Except Fault (Option Node) :=
  match entries.filter (·.1 = key) with
  | [] => .ok none
  | [(_, value)] => .ok (some value)
  | _ => .error (.repeatedKey key)

/-- A setting, or its default if the key is missing. -/
def setting {α : Type} (entries : List (String × Node)) (key : String) (read? : Node → Option α)
    (default : α) : Except Fault α := do
  match ← uniqueValue entries key with
  | none => return default
  | some value => (read? value).elim (.error (.invalidValue key)) .ok

def limitsOfNode (n : Node) : Except Fault (Synthesis.Limits Float) := do
  let entries ← entriesOf n
  let d := defaultLimits
  return {
    timeoutMs := ← setting entries "timeout_ms" Node.nat? d.timeoutMs
    maxDepth := ← setting entries "max_depth" Node.nat? d.maxDepth
    precision := ← setting entries "precision" Node.float? d.precision
    maxExpansions := ← setting entries "max_expansions" Node.nat? d.maxExpansions }

/-- A path, or none by way of a null. -/
def pathOfNode? (n : Node) : Option (Option Path) :=
  if n.isNull then some none else n.text?.map fun text => some ⟨text⟩

def ofNode (n : Node) : Except Fault Settings := do
  let entries ← entriesOf n
  let d := Settings.default
  let solver ←
    match ← uniqueValue entries "solver" with
    | some value => limitsOfNode value
    | none => pure d.solver
  return {
    includeStd := ← setting entries "include_std" Node.bool? d.includeStd
    stdPath := ← setting entries "std_path" pathOfNode? d.stdPath
    verbose := ← setting entries "verbose" Node.bool? d.verbose
    outputFormat := ← setting entries "output_format" Node.outputFormat? d.outputFormat
    maxIterations := ← setting entries "max_iterations" Node.nat? d.maxIterations
    solver }

/-- The settings that a text in YAML gives. A blank text and one without a document give the
defaults. -/
def ofText (text : String) : Except Fault Settings := do
  if Text.allBlank text.toList then return Settings.default
  match ← (Node.ofText? text.toList).mapError Fault.yaml with
  | none => return Settings.default
  | some n => ofNode n

/-- The settings that a text gives, or what is wrong with it. -/
def read (text : String) : Except String Settings :=
  (ofText text).mapError Fault.message

end Settings

end HexPatterns
