import HexPatterns.Yaml.Scalar

/-!
# Tokens of YAML

The layout of a text is told by tokens: a block starts where a line is indented further than the
block around it, and ends before the first line that is indented less. A key looks like any other
value until its colon is found; it is remembered as a possible key, and when the colon comes its
token is put in front of it. A key and its colon stand on one line, at most 1024 characters apart.
-/

namespace HexPatterns.Yaml

inductive Token where
  | documentStart
  | documentEnd
  /-- A block of items starts. -/
  | itemBlock
  /-- A block of keys and values starts. -/
  | entryBlock
  | blockEnd
  | openSequence
  | closeSequence
  | openMapping
  | closeMapping
  | comma
  | item
  | key
  | value
  /-- A scalar without quotes. -/
  | plain (text : String)
  | quoted (text : String)
deriving DecidableEq, Repr

/-- A value that a colon may follow. -/
structure PossibleKey where
  place : Place
  /-- How many tokens come before it. -/
  number : Nat
  /-- It stands where its block wants a key. -/
  required : Bool
deriving DecidableEq, Repr

/-- A colon at `p` makes it a key. -/
def PossibleKey.reaches (k : PossibleKey) (p : Place) : Bool :=
  k.place.line == p.line && p.index ≤ k.place.index + 1024

/-- The layout of the text that has been read. -/
structure Layout where
  cursor : Cursor
  tokens : Array Token
  /-- The columns of the blocks that are open, the innermost first. -/
  indents : List Nat
  /-- The possible key within the innermost brackets. -/
  key : Option PossibleKey
  /-- The possible keys outside of them, one for each pair of brackets that is open. -/
  outer : List (Option PossibleKey)
  /-- A value that starts now may be a key. -/
  keyAllowed : Bool

namespace Layout

def start (cs : List Char) : Layout := ⟨.ofText cs, #[], [], none, [], true⟩

def column (l : Layout) : Nat := l.cursor.place.column

/-- Brackets are open. -/
def inFlow (l : Layout) : Bool := !l.outer.isEmpty

def push (l : Layout) (t : Token) : Layout :=
  { l with tokens := l.tokens.push t }

/-- Passes `n` characters, which make a token. -/
def take (l : Layout) (n : Nat) (t : Token) : Layout :=
  { l.push t with cursor := l.cursor.skip n }

/-! ## Between tokens -/

/-- Passes spaces, comments and line ends. A tabulator is no space where a key may start. A mark of
the encoding may stand in front of any line; it takes a column. -/
def passFrom (inFlow : Bool) (allowed comment : Bool) (p : Place) : List Char → Bool × Cursor
  | [] => (allowed, ⟨p, []⟩)
  | '\r' :: '\n' :: cs => passFrom inFlow (allowed || !inFlow) false (p.nextLine 2) cs
  | c :: cs =>
    if isBreak c then passFrom inFlow (allowed || !inFlow) false (p.nextLine 1) cs
    else if comment || c = ' ' || (c = '\t' && (inFlow || !allowed)) ||
        (c = encodingMark && p.column == 0) then
      passFrom inFlow allowed comment (p.forward 1) cs
    else if c = '#' then passFrom inFlow allowed true (p.forward 1) cs
    else (allowed, ⟨p, c :: cs⟩)

/-- Passes all that stands between tokens. -/
def pass (l : Layout) : Layout :=
  let c := l.cursor
  let (keyAllowed, cursor) := passFrom l.inFlow l.keyAllowed false c.place c.rest
  { l with cursor, keyAllowed }

/-! ## Blocks -/

/-- Closes the blocks that are indented further than a place outside brackets. -/
def closeBlocks (outside : Nat → Bool) (l : Layout) : Layout :=
  if l.inFlow then l
  else
    let closed := l.indents.takeWhile outside
    { l with
      tokens := l.tokens ++ closed.map fun _ => Token.blockEnd
      indents := l.indents.drop closed.length }

/-- Opens a block in a column, unless it is open already. Its token gets the given number. -/
def openBlock (column number : Nat) (t : Token) (l : Layout) : Layout :=
  if l.inFlow || l.indents.head?.any (column ≤ ·) then l
  else
    { l with
      tokens := l.tokens.insertIdxIfInBounds number t
      indents := column :: l.indents }

/-- The least column of a line that continues a scalar. -/
def scalarIndent (l : Layout) : Nat :=
  (l.indents.head?.map (· + 1)).getD 0

/-! ## Possible keys -/

/-- Forgets the possible key, which no colon has followed. -/
def dropKey (l : Layout) : Except Fault Layout :=
  if l.key.any PossibleKey.required then .error .missingColon else .ok { l with key := none }

/-- Remembers what starts here as a possible key. -/
def saveKey (l : Layout) : Except Fault Layout :=
  if l.keyAllowed then
    l.dropKey.map fun l =>
      { l with
        key := some {
          place := l.cursor.place
          number := l.tokens.size
          required := !l.inFlow && l.indents.head? = some l.column } }
  else .ok l

/-! ## Reading a token -/

/-- A mark that starts or ends a document. -/
def readMark (l : Layout) (t : Token) : Except Fault Layout := do
  let l ← (l.closeBlocks fun _ => true).dropKey
  return { l.take 3 t with keyAllowed := false }

/-- An opening bracket. -/
def readOpening (l : Layout) (t : Token) : Except Fault Layout := do
  let l ← l.saveKey
  return { l.take 1 t with key := none, outer := l.key :: l.outer, keyAllowed := true }

/-- A closing bracket. -/
def readClosing (l : Layout) (t : Token) : Except Fault Layout := do
  let l ← l.dropKey
  let l := { l.take 1 t with keyAllowed := false }
  match l.outer with
  | [] => return l
  | key :: outer => return { l with key, outer }

def readComma (l : Layout) : Except Fault Layout := do
  let l ← l.dropKey
  return { l.take 1 .comma with keyAllowed := true }

/-- The dash in front of an item. -/
def readItem (l : Layout) : Except Fault Layout := do
  if !l.inFlow && !l.keyAllowed then .error .misplacedItem
  else
    let l ← (l.openBlock l.column l.tokens.size .itemBlock).dropKey
    return { l.take 1 .item with keyAllowed := true }

/-- The question mark in front of a key. -/
def readKey (l : Layout) : Except Fault Layout := do
  if !l.inFlow && !l.keyAllowed then .error .misplacedKey
  else
    let l ← (l.openBlock l.column l.tokens.size .entryBlock).dropKey
    return { l.take 1 .key with keyAllowed := !l.inFlow }

/-- The colon behind a possible key. -/
def readValueOf (k : PossibleKey) (l : Layout) : Layout :=
  let l := { l with
    tokens := l.tokens.insertIdxIfInBounds k.number .key
    key := none
    keyAllowed := false }
  (l.openBlock k.place.column k.number .entryBlock).take 1 .value

/-- A colon that no possible key precedes. -/
def readLoneValue (l : Layout) : Except Fault Layout :=
  if !l.inFlow && !l.keyAllowed then .error .misplacedValue
  else
    let l := l.openBlock l.column l.tokens.size .entryBlock
    .ok { l.take 1 .value with keyAllowed := !l.inFlow }

/-- A colon in front of a value. -/
def readValue (l : Layout) : Except Fault Layout :=
  match l.key with
  | some k =>
    if k.reaches l.cursor.place then .ok (l.readValueOf k)
    else l.dropKey >>= readLoneValue
  | none => l.readLoneValue

def readQuoted (l : Layout) (mark : Char) : Except Fault Layout := do
  let l ← l.saveKey
  let (text, cursor) ← quotedScalar mark l.cursor
  return { l.push (.quoted text) with cursor, keyAllowed := false }

def readPlain (l : Layout) : Except Fault Layout := do
  let l ← l.saveKey
  let (text, broken, cursor) ← plainScalar l.inFlow l.scalarIndent l.cursor
  return { l.push (.plain text) with cursor, keyAllowed := broken }

/-- Reads the token that starts with the characters `c :: cs`. -/
def readToken (l : Layout) (c : Char) (cs : List Char) : Except Fault Layout :=
  if l.cursor.atMark "---" then l.readMark .documentStart
  else if l.cursor.atMark "..." then l.readMark .documentEnd
  else if c = '[' then l.readOpening .openSequence
  else if c = '{' then l.readOpening .openMapping
  else if c = ']' then l.readClosing .closeSequence
  else if c = '}' then l.readClosing .closeMapping
  else if c = ',' then l.readComma
  else if c = '-' && endsWord cs then l.readItem
  else if c = '?' && (l.inFlow || endsWord cs) then l.readKey
  else if c = ':' && (l.inFlow || endsWord cs) then l.readValue
  else if c = '"' || c = apostrophe then l.readQuoted c
  else if startsPlain l.inFlow (c :: cs) then l.readPlain
  else if "&*!|>%".toList.contains c then .error .unsupported
  else .error .unexpectedCharacter

/-- The tokens, once all is read. -/
def finish (l : Layout) : Except Fault (List Token) :=
  (l.closeBlocks fun _ => true).dropKey.map fun l => l.tokens.toList

/-- Reads all tokens. Each of them takes a character at least. -/
def readAll : Nat → Layout → Except Fault (List Token)
  | 0, l => l.finish
  | fuel + 1, l => do
    let l := l.pass
    let l := l.closeBlocks (l.column < ·)
    match l.cursor.rest with
    | [] => l.finish
    | c :: cs => readAll fuel (← l.readToken c cs)

end Layout

/-- The tokens of a text. -/
def Token.scan (cs : List Char) : Except Fault (List Token) :=
  Layout.readAll (cs.length + 1) (.start cs)

end HexPatterns.Yaml
