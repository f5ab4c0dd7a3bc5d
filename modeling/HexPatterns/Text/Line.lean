import HexPatterns.Text.Blank

/-!
# Lines

A text is cut into lines at `\r\n`, at `\n`, and at a `\r` that no `\n` follows. Each line keeps the
byte at which it starts, so that a place given by line and column can be found again in the text.
A text has one line more than it has line ends.
-/

namespace HexPatterns.Text

/-- A stretch of bytes. -/
structure Span where
  offset : Nat
  length : Nat
deriving DecidableEq, Repr

/-- One line without its end, and the byte offset of its first character. -/
structure Line where
  offset : Nat
  chars : List Char
deriving DecidableEq, Repr

namespace Line

/-- The lines of a text that starts at byte `offset`, when `read` (last character first) has been
read of the first of them. -/
def splitFrom (offset : Nat) (read : List Char) : List Char → List Line
  | [] => [⟨offset, read.reverse⟩]
  | '\r' :: '\n' :: cs =>
    ⟨offset, read.reverse⟩ :: splitFrom (offset + byteLength read + 2) [] cs
  | c :: cs =>
    if c = '\r' ∨ c = '\n' then
      ⟨offset, read.reverse⟩ :: splitFrom (offset + byteLength read + 1) [] cs
    else
      splitFrom offset (c :: read) cs

/-- From a column of the line to its end; a column behind the line stands for its end. -/
def spanFrom (l : Line) (column : Nat) : Span :=
  ⟨l.offset + byteLength (l.chars.take column), byteLength (l.chars.drop column)⟩

end Line

/-- The lines of a text. -/
def lines (cs : List Char) : List Line :=
  Line.splitFrom 0 [] cs

/-- A line up to its first `//`. -/
def dropComment : List Char → List Char
  | [] => []
  | '/' :: '/' :: _ => []
  | c :: cs => c :: dropComment cs

end HexPatterns.Text
