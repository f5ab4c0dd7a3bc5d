import HexPatterns.Source.Position
import HexPatterns.Text.Line

/-!
# Source texts

The text of a source is kept under the name that messages show for it, so that a position can be
turned into a stretch of bytes: from the named character to the end of its line.
-/

namespace HexPatterns

/-- A named source; the text is missing when the source was never read. -/
structure SourceText where
  name : String
  text : Option String
deriving DecidableEq, Repr

namespace SourceText

/-- A source that was read. -/
def ofText (name text : String) : SourceText := ⟨name, some text⟩

/-- A source of which only the name is known. -/
def unread (name : String) : SourceText := ⟨name, none⟩

/-- The bytes from a position to the end of its line, if the text is there and has such a line. -/
def spanAt? (s : SourceText) (p : Position) : Option Text.Span := do
  let text ← s.text
  let line ← (Text.lines text.toList)[p.line]?
  return line.spanFrom p.column

end SourceText

end HexPatterns
