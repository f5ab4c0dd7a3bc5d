import HexPatterns.Yaml.Token

/-!
# Documents of YAML

A document is one value: a scalar, a sequence or a mapping. Whether a scalar was quoted is kept,
since a quoted one is never a number. Where a value is missing it is the empty plain scalar.

The functions that read values take an amount of fuel. Between two tokens that are taken there are
fewer than four calls, so four times the number of tokens is enough.
-/

namespace HexPatterns.Yaml

inductive Node where
  /-- A scalar without quotes; the empty one is the value that is missing. -/
  | plain (text : String)
  | quoted (text : String)
  | sequence (items : List Node)
  | mapping (entries : List (Node × Node))

namespace Node

/-- The value that is missing. -/
def missing : Node := plain ""

/-- A value and the tokens behind it. -/
abbrev Read := Except Fault (Node × List Token)

/-- The next token is one of those that cannot start a value here. -/
def stopsAt (stops : List Token) (ts : List Token) : Bool :=
  ts.head?.any stops.contains

mutual

/-- A value. Blocks are only found outside brackets, and items without a block of their own only as
the value of a key. -/
def read (block bare : Bool) : Nat → List Token → Read
  | 0, _ => .error .missingValue
  | fuel + 1, ts =>
    match ts with
    | .plain text :: ts => .ok (plain text, ts)
    | .quoted text :: ts => .ok (quoted text, ts)
    | .openSequence :: ts => readItems fuel true [] ts
    | .openMapping :: ts => readEntries fuel true [] ts
    | .itemBlock :: ts => if block then readItemBlock fuel [] ts else .error .missingValue
    | .entryBlock :: ts => if block then readEntryBlock fuel [] ts else .error .missingValue
    | .item :: _ => if bare then readBareItems fuel [] ts else .error .missingValue
    | _ => .error .missingValue

/-- A value, unless one of the given tokens comes first. -/
def readUnless (stops : List Token) (block : Bool) : Nat → List Token → Read
  | 0, _ => .error .missingValue
  | fuel + 1, ts => if stopsAt stops ts then .ok (missing, ts) else read block block fuel ts

/-- The items of a block, up to its end. -/
def readItemBlock : Nat → List Node → List Token → Read
  | 0, _, _ => .error .missingItem
  | fuel + 1, items, ts => do
    match ts with
    | .item :: ts =>
      let (item, ts) ←
        if stopsAt [.item, .blockEnd] ts then pure (missing, ts) else read true false fuel ts
      readItemBlock fuel (item :: items) ts
    | .blockEnd :: ts => return (sequence items.reverse, ts)
    | _ => .error .missingItem

/-- Items in the column of the key that they belong to. -/
def readBareItems : Nat → List Node → List Token → Read
  | 0, _, _ => .error .missingItem
  | fuel + 1, items, ts => do
    match ts with
    | .item :: ts =>
      let (item, ts) ←
        if stopsAt [.item, .key, .value, .blockEnd] ts then pure (missing, ts)
        else read true false fuel ts
      readBareItems fuel (item :: items) ts
    | ts => return (sequence items.reverse, ts)

/-- The value behind a key, if there is a colon. -/
def readValue (stops : List Token) (block : Bool) : Nat → List Token → Read
  | 0, _ => .error .missingValue
  | fuel + 1, ts =>
    match ts with
    | .value :: ts => readUnless stops block fuel ts
    | ts => .ok (missing, ts)

/-- The entries of a block, up to its end. -/
def readEntryBlock : Nat → List (Node × Node) → List Token → Read
  | 0, _, _ => .error .missingKey
  | fuel + 1, entries, ts => do
    match ts with
    | .key :: ts =>
      let (key, ts) ← readUnless [.key, .value, .blockEnd] true fuel ts
      let (value, ts) ← readValue [.key, .value, .blockEnd] true fuel ts
      readEntryBlock fuel ((key, value) :: entries) ts
    | .blockEnd :: ts => return (mapping entries.reverse, ts)
    | _ => .error .missingKey

/-- The items up to a closing bracket. An entry among them is a mapping of its own. -/
def readItems : Nat → Bool → List Node → List Token → Read
  | 0, _, _, _ => .error .missingComma
  | fuel + 1, first, items, ts => do
    match ts with
    | .closeSequence :: ts => return (sequence items.reverse, ts)
    | .comma :: ts =>
      if first then .error .missingValue
      else if stopsAt [.closeSequence] ts then readItems fuel false items ts
      else
        let (item, ts) ← readItem fuel ts
        readItems fuel false (item :: items) ts
    | ts =>
      if first then
        let (item, ts) ← readItem fuel ts
        readItems fuel false (item :: items) ts
      else .error .missingComma

/-- An item between brackets. -/
def readItem : Nat → List Token → Read
  | 0, _ => .error .missingValue
  | fuel + 1, ts => do
    match ts with
    | .key :: ts =>
      -- a token that stands where the key is missing is passed over
      let (key, ts) ←
        if stopsAt [.value, .comma, .closeSequence] ts then pure (missing, ts.drop 1)
        else read false false fuel ts
      let (value, ts) ← readValue [.comma, .closeSequence] false fuel ts
      return (mapping [(key, value)], ts)
    | ts => read false false fuel ts

/-- The entries up to a closing brace. -/
def readEntries : Nat → Bool → List (Node × Node) → List Token → Read
  | 0, _, _, _ => .error .missingComma
  | fuel + 1, first, entries, ts => do
    match ts with
    | .closeMapping :: ts => return (mapping entries.reverse, ts)
    | .comma :: ts =>
      if first then .error .missingValue
      else if stopsAt [.closeMapping] ts then readEntries fuel false entries ts
      else
        let (entry, ts) ← readEntry fuel ts
        readEntries fuel false (entry :: entries) ts
    | ts =>
      if first then
        let (entry, ts) ← readEntry fuel ts
        readEntries fuel false (entry :: entries) ts
      else .error .missingComma

/-- An entry between braces. What no colon follows is a key without value. -/
def readEntry : Nat → List Token → Except Fault ((Node × Node) × List Token)
  | 0, _ => .error .missingKey
  | fuel + 1, ts => do
    match ts with
    | .key :: ts =>
      let (key, ts) ← readUnless [.value, .comma, .closeMapping] false fuel ts
      let (value, ts) ← readValue [.comma, .closeMapping] false fuel ts
      return ((key, value), ts)
    | ts =>
      let (key, ts) ← read false false fuel ts
      return ((key, missing), ts)

end

/-- The value of the only document, if there is a document. -/
def ofTokens? (ts : List Token) : Except Fault (Option Node) := do
  let fuel := 4 * ts.length + 4
  let (node?, rest) ←
    match ts with
    | [] => pure (none, [])
    | .documentStart :: ts =>
      if ts.isEmpty || stopsAt [.documentStart, .documentEnd] ts then pure (some missing, ts)
      else (read true false fuel ts).map fun (node, ts) => (some node, ts)
    | ts => (read true false fuel ts).map fun (node, ts) => (some node, ts)
  if (rest.dropWhile (· = .documentEnd)).isEmpty then return node?
  else .error .severalDocuments

end Node

/-- The characters that a text may hold. -/
def isPrintable (c : Char) : Bool :=
  let n := c.toNat
  c = '\t' || c = '\n' || c = '\r' || (0x20 ≤ n && n ≤ 0x7E) || n == 0x85 ||
    (0xA0 ≤ n && n ≤ 0xFFFD) || 0x10000 ≤ n

/-- The value that a text holds. There is none if it holds nothing but comments. -/
def Node.ofText? (cs : List Char) : Except Fault (Option Node) :=
  if cs.all isPrintable then Token.scan cs >>= Node.ofTokens? else .error .controlCharacter

end HexPatterns.Yaml
