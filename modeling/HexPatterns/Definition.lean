import HexPatterns.Fault
import HexPatterns.Text.Blank

/-!
# Definitions

The content of a definition is a name between quotation marks and a body. The body starts at its
first character that is not blank; how many line ends were passed on the way to it is kept, so that
the body can be read at its own line.
-/

namespace HexPatterns

structure Definition where
  name : String
  body : List Char
  /-- Line ends between the name and the body. -/
  skipped : Nat
deriving DecidableEq, Repr

namespace Definition

/-- Takes the content of a definition apart. It has to begin with a quoted name. -/
def ofContent (content : List Char) : Except Fault Definition :=
  if content.count '"' < 2 then
    .error (.malformedDefinition "expected a quoted macro name")
  else
    match content with
    | '"' :: rest =>
      let after := (rest.dropWhile (· ≠ '"')).drop 1
      .ok {
        name := String.ofList (rest.takeWhile (· ≠ '"'))
        body := Text.trimStart after
        skipped := (after.takeWhile Text.isBlank).count '\n' }
    | found =>
      .error (.malformedDefinition
        ("expected first \" but got " ++ String.ofList (found.take 1)))

end Definition

end HexPatterns
