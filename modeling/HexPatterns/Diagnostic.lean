import HexPatterns.Fault
import HexPatterns.Source.Text
import HexPatterns.Token.Lexer

/-!
# Diagnostics

A fault, together with the place it is laid to: the name of the source and the position in it, the
token that is to blame, and the stretch of source text to show. Faults of the file system and of
the settings have no place.
-/

namespace HexPatterns

/-- Where a fault is laid to. -/
structure Location where
  file : String
  position : Position
deriving DecidableEq, Repr

/-- A stretch of a source text. -/
structure Excerpt where
  /-- The name of the source. -/
  name : String
  /-- Its whole text. -/
  text : String
  span : Text.Span
deriving DecidableEq, Repr

structure Diagnostic where
  fault : Fault
  location : Option Location
  excerpt : Option Excerpt
  /-- The content of the token that is to blame. -/
  token : Option String
deriving DecidableEq, Repr

namespace Diagnostic

/-- A fault without a place. -/
def unlocated (f : Fault) : Diagnostic := ⟨f, none, none, none⟩

/-- What is reported: place, message and, on a line of its own, the token. -/
def message (d : Diagnostic) : String :=
  let head :=
    match d.location with
    | some l => l.file ++ " " ++ l.position.shown ++ ": " ++ d.fault.message
    | none => d.fault.message
  match d.token with
  | some token => head ++ "\n    -> " ++ token
  | none => head

end Diagnostic

namespace SourceText

/-- The text from a position to the end of its line. -/
def excerptAt? (s : SourceText) (p : Position) : Option Excerpt := do
  let text ← s.text
  let span ← s.spanAt? p
  return ⟨s.name, text, span⟩

/-- Lays a fault to a position of the source. -/
def report (s : SourceText) (f : Fault) (p : Position) : Diagnostic :=
  ⟨f, some ⟨s.name, p⟩, s.excerptAt? p, none⟩

/-- Lays a fault to a token of the source. -/
def reportToken (s : SourceText) (f : Fault) (t : Token) : Diagnostic :=
  { s.report f t.position with token := some t.content }

/-- The tokens of a text, errors being laid to the source that it is part of. -/
def scan (s : SourceText) (origin : String) (n : Nat) (text : List Char) :
    Except Diagnostic (List Token) :=
  (Token.scan origin n text).mapError fun e => s.report e.fault e.position

end SourceText

end HexPatterns
