/-!
# Faults

Everything that can end a compilation. A fault is a cause with what is needed to name it; its
wording, its code and the advice that goes with it are all found here.
-/

namespace HexPatterns

inductive Fault where
  | fileNotFound (path : String)
  | io (operation path reason : String)
  | unclosedMacro
  | emptyDirective (marker : Char)
  | includeArity (actual : Nat)
  | malformedDefinition (reason : String)
  | duplicateMacro (name : String)
  | undefinedMacro (name : String)
  | generatorArity
  | unknownGenerator (found : String)
  | generatorArguments (generator : String) (expected actual : Nat)
  | invalidNumber (value : String)
  | invalidConfig (path reason : String)
deriving DecidableEq, Repr

namespace Fault

/-- The part of the work in which a fault arises. -/
inductive Category where
  | io
  | lex
  | shape
  | resolution
  | config
deriving DecidableEq, Repr

def Category.name : Category → String
  | .io => "io"
  | .lex => "lex"
  | .shape => "structure"
  | .resolution => "resolution"
  | .config => "config"

def message : Fault → String
  | fileNotFound path => s!"could not find {path}"
  | io operation path reason => s!"failed to {operation} {path}: {reason}"
  | unclosedMacro => "macro never closed"
  | emptyDirective marker => s!"expected something after {marker}"
  | includeArity actual => s!"includes require 1 arg, but got {actual}"
  | malformedDefinition reason => s!"malformed macro definition: {reason}"
  | duplicateMacro name => s!"macro already exists by name of {name}"
  | undefinedMacro name => s!"couldn't find macro \"{name}\""
  | generatorArity => "generator expected gen type and at least one argument"
  | unknownGenerator found => s!"generator expected valid gen type but got {found}"
  | generatorArguments generator expected actual =>
    s!"{generator} generator expected {expected} argument(s) but got {actual}"
  | invalidNumber value => s!"invalid number {value}"
  | invalidConfig path reason => s!"invalid configuration in {path}: {reason}"

def category : Fault → Category
  | fileNotFound _ | io .. => .io
  | unclosedMacro | emptyDirective _ => .lex
  | includeArity _ | malformedDefinition _ => .shape
  | duplicateMacro _ | undefinedMacro _ | generatorArity | unknownGenerator _
  | generatorArguments .. | invalidNumber _ => .resolution
  | invalidConfig .. => .config

/-- The fault's name in words; a label under the source text shows it. -/
def label : Fault → String
  | fileNotFound _ => "file not found"
  | io .. => "io"
  | unclosedMacro => "unclosed macro"
  | emptyDirective _ => "empty directive"
  | includeArity _ => "include arity"
  | malformedDefinition _ => "malformed definition"
  | duplicateMacro _ => "duplicate macro"
  | undefinedMacro _ => "undefined macro"
  | generatorArity => "generator arity"
  | unknownGenerator _ => "unknown generator"
  | generatorArguments .. => "generator arguments"
  | invalidNumber _ => "invalid number"
  | invalidConfig .. => "invalid config"

/-- The code under which a fault can be looked up: its category and its label, with `_` between
words. -/
def code (f : Fault) : String :=
  "macrohex::" ++ f.category.name ++ "::" ++ f.label.map fun c => if c = ' ' then '_' else c

/-- Advice, for the faults that have some. -/
def help : Fault → Option String
  | unclosedMacro => some "every `<` opening a definition needs a matching `>`"
  | includeArity _ => some "use `#include <path>` with a path free of spaces"
  | malformedDefinition _ => some "definitions look like <\"name\" body>"
  | duplicateMacro _ =>
    some "macro names are shared by every file in a compilation, std included"
  | undefinedMacro _ => some "define it with <\"name\" ...> or include the file that does"
  | unknownGenerator _ => some "known generators: num, bits"
  | _ => none

end Fault

end HexPatterns
