import HexPatterns.Fault
import HexPatterns.Text.Line
import HexPatterns.Token.Basic

/-!
# Reading tokens

A source is read line by line, each line up to its first `//`. Outside a definition a line that is
not blank is one token, told by its first character other than space and tabulator: `#` starts a
directive, `!` a literal, `<` a definition, anything else is a call. A definition runs, over any
number of lines, to the `>` that matches its `<`; what follows on the line of that `>` is dropped.
Its content keeps the line structure: every line end is a `\n`, and a blank line is empty.
-/

namespace HexPatterns.Token

/-- Why a text is no sequence of tokens, and where. -/
inductive LexError where
  /-- Nothing follows a `#` or `!` on its line. -/
  | emptyDirective (marker : Char) (position : Position)
  /-- The definition opened here never ends. -/
  | unclosedMacro (position : Position)
deriving DecidableEq, Repr

def LexError.fault : LexError → Fault
  | emptyDirective marker _ => .emptyDirective marker
  | unclosedMacro _ => .unclosedMacro

def LexError.position : LexError → Position
  | emptyDirective _ p | unclosedMacro p => p

/-- A definition that has been opened and not yet closed. -/
structure Opening where
  /-- Where its `<` stands. -/
  position : Position
  /-- How many brackets are open inside it. -/
  inner : Nat
  /-- The content read so far, last character first. -/
  read : List Char
deriving DecidableEq, Repr

namespace Opening

def push (o : Opening) (c : Char) : Opening :=
  { o with read := c :: o.read }

/-- Reads a line: the definition is still open after it, or its content is complete. -/
def readLine (o : Opening) : List Char → Opening ⊕ List Char
  | [] => .inl o
  | '<' :: cs => readLine { o.push '<' with inner := o.inner + 1 } cs
  | '>' :: cs =>
    match o.inner with
    | 0 => .inr o.read.reverse
    | n + 1 => readLine { o.push '>' with inner := n } cs
  | c :: cs => readLine (o.push c) cs

end Opening

/-- What a line leaves behind: the token it completes, and the definition it leaves open. -/
abbrev Yield := Option Token × Option Opening

section Scan

variable (origin : String)

/-- Reads the rest of a line inside a definition. -/
def scanInside (o : Opening) (cs : List Char) : Yield :=
  match o.readLine cs with
  | .inl o => (none, some (o.push '\n'))
  | .inr content => (some ⟨.definition, o.position, String.ofList content, origin⟩, none)

/-- The token behind a marker, which may not be empty. -/
def scanMarked (kind : Kind) (marker : Char) (p : Position) (rest : List Char) :
    Except LexError Yield :=
  if rest.isEmpty then .error (.emptyDirective marker p)
  else .ok (some ⟨kind, p, String.ofList rest, origin⟩, none)

/-- Reads line `n` from a column on, outside a definition. -/
def scanOutside (n column : Nat) : List Char → Except LexError Yield
  | [] => .ok (none, none)
  | ' ' :: cs => scanOutside n (column + 1) cs
  | '\t' :: cs => scanOutside n (column + 1) cs
  | '#' :: cs => scanMarked origin .directive '#' ⟨n, column⟩ cs
  | '!' :: cs => scanMarked origin .literal '!' ⟨n, column⟩ cs
  | '<' :: cs => .ok (scanInside origin ⟨⟨n, column⟩, 0, []⟩ cs)
  | cs => .ok (some ⟨.call, ⟨n, column⟩, String.ofList cs, origin⟩, none)

/-- Reads line `n`, freed of its comment. -/
def scanLine (n : Nat) (o? : Option Opening) (cs : List Char) : Except LexError Yield :=
  match o? with
  | some o => .ok (if Text.allBlank cs then (none, some (o.push '\n')) else scanInside origin o cs)
  | none => if Text.allBlank cs then .ok (none, none) else scanOutside origin n 0 cs

/-- Reads lines, the first of which has number `n`. -/
def scanLines (n : Nat) : Option Opening → List (List Char) → Except LexError (List Token)
  | none, [] => .ok []
  | some o, [] => .error (.unclosedMacro o.position)
  | o?, cs :: rest => do
    let (t?, o?) ← scanLine origin n o? cs
    let ts ← scanLines (n + 1) o? rest
    return t?.toList ++ ts

end Scan

/-- The tokens of a text from the file `origin`, whose first line has number `n` in that file. -/
def scan (origin : String) (n : Nat) (text : List Char) : Except LexError (List Token) :=
  scanLines origin n none ((Text.lines text).map fun l => Text.dropComment l.chars)

end HexPatterns.Token
