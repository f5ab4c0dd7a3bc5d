/-!
# Reading YAML

YAML is read from the front, and where a thing stands matters: its column is its indentation, and a
key has to end on its own line. A cursor is a place in a text together with the text that follows
it. Lines end with a line feed, a carriage return or both, and with three rarer characters.
-/

namespace HexPatterns.Yaml

/-- Why a text is not read. -/
inductive Fault where
  | controlCharacter
  | tabIndentation
  | endlessQuotation
  | quotedDocumentMark
  | unknownEscape
  | unexpectedCharacter
  | unexpectedColon
  | missingColon
  | misplacedItem
  | misplacedKey
  | misplacedValue
  | unsupported
  | missingValue
  | missingKey
  | missingItem
  | missingComma
  | severalDocuments
deriving DecidableEq, Repr

def Fault.message : Fault → String
  | controlCharacter => "there is a control character"
  | tabIndentation => "a tabulator is used for indentation"
  | endlessQuotation => "a quotation never ends"
  | quotedDocumentMark => "the document ends inside a quotation"
  | unknownEscape => "there is no such escape"
  | unexpectedCharacter => "nothing can start with this character"
  | unexpectedColon => "a colon is not expected here"
  | missingColon => "a key has no colon"
  | misplacedItem => "an item is not expected here"
  | misplacedKey => "a key is not expected here"
  | misplacedValue => "a value is not expected here"
  | unsupported => "anchors, tags, directives and block scalars are not supported"
  | missingValue => "a value is expected"
  | missingKey => "a key is expected"
  | missingItem => "an item is expected"
  | missingComma => "a comma or a closing bracket is expected"
  | severalDocuments => "there is more than one document"

def isSpace (c : Char) : Bool :=
  c = ' ' || c = '\t'

/-- The characters that end a line. -/
def isBreak (c : Char) : Bool :=
  c = '\n' || c = '\r' || c.toNat == 0x85 || c.toNat == 0x2028 || c.toNat == 0x2029

/-- What a line end is read as. The separators of lines and of paragraphs are kept. -/
def readBreak (c : Char) : Char :=
  if c.toNat == 0x2028 || c.toNat == 0x2029 then c else '\n'

/-- Spaces and line ends stand between words. -/
def isGap (c : Char) : Bool :=
  isSpace c || isBreak c

/-- The text does not go on with a word. -/
def endsWord (cs : List Char) : Bool :=
  cs.head?.all isGap

/-- The character that tells the encoding of a text. -/
def encodingMark : Char := Char.ofNat 0xFEFF

/-- A bracket, or the comma between brackets. -/
def isFlowMark (c : Char) : Bool :=
  ",[]\x7b\x7d".toList.contains c

/-- A place in a text. All counts are of characters and start from zero. -/
structure Place where
  index : Nat
  line : Nat
  column : Nat
deriving DecidableEq, Repr

namespace Place

def start : Place := ⟨0, 0, 0⟩

/-- The place `n` characters on, in the same line. -/
def forward (p : Place) (n : Nat) : Place :=
  { p with index := p.index + n, column := p.column + n }

/-- The start of the next line, behind a line end of `n` characters. -/
def nextLine (p : Place) (n : Nat) : Place :=
  ⟨p.index + n, p.line + 1, 0⟩

end Place

/-- A place in a text, and the text from there on. -/
structure Cursor where
  place : Place
  rest : List Char

namespace Cursor

def ofText (cs : List Char) : Cursor := ⟨.start, cs⟩

/-- Passes `n` characters, none of them a line end. -/
def skip (c : Cursor) (n : Nat) : Cursor :=
  ⟨c.place.forward n, c.rest.drop n⟩

/-- Passes a line end. -/
def skipBreak (c : Cursor) : Cursor :=
  match c.rest with
  | '\r' :: '\n' :: cs => ⟨c.place.nextLine 2, cs⟩
  | cs => ⟨c.place.nextLine 1, cs.drop 1⟩

/-- A mark of three characters stands on its own at the start of the line. -/
def atMark (c : Cursor) (mark : String) : Bool :=
  c.place.column == 0 && mark.toList.isPrefixOf c.rest && endsWord (c.rest.drop 3)

/-- A document starts or ends here. -/
def atDocumentMark (c : Cursor) : Bool :=
  c.atMark "---" || c.atMark "..."

end Cursor

end HexPatterns.Yaml
