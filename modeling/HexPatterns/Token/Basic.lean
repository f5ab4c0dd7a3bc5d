import HexPatterns.Source.Position
import HexPatterns.Text.Blank

/-!
# Tokens

A source is a sequence of tokens of four kinds. A token knows where it was read: the path of its
file and the position of its first character. Tokens of a macro body keep the place of the body.
-/

namespace HexPatterns

/-- What a token asks for. -/
inductive Token.Kind where
  /-- `#...`: an include or a generator. -/
  | directive
  /-- `!...`: text for the output, taken as it is. -/
  | literal
  /-- `<"name" ...>`: a macro. -/
  | definition
  /-- Any other line: the name of a macro whose body belongs here. -/
  | call
deriving DecidableEq, Repr

structure Token where
  kind : Token.Kind
  position : Position
  content : String
  /-- The path of the file that the token comes from. -/
  origin : String
deriving DecidableEq, Repr

namespace Token

namespace Kind

/-- All kinds, in the order in which counts are given. -/
def all : List Kind := [directive, literal, definition, call]

/-- The kind as counts name it. -/
def label : Kind → String
  | directive => "CompilerAction"
  | literal => "Pattern"
  | definition => "MacroDefinition"
  | call => "MacroCall"

/-- Directives and calls stand for other tokens. -/
def isExpandable : Kind → Bool
  | directive | call => true
  | literal | definition => false

end Kind

/-- The content without the blanks at its two ends. -/
def trimmed (t : Token) : String :=
  Text.trimmed t.content

def isExpandable (t : Token) : Bool :=
  t.kind.isExpandable

/-- How many tokens of a kind there are. -/
def countKind (ts : List Token) (k : Kind) : Nat :=
  ts.countP (·.kind = k)

/-- How many tokens still stand for others. -/
def countExpandable (ts : List Token) : Nat :=
  ts.countP isExpandable

end Token

end HexPatterns
