import HexPatterns.Yaml.Cursor

/-!
# Scalars

A scalar is a sequence of words with gaps between them. Spaces within a line are kept; one line end
is read as a space, and several as all but the first of them. A scalar between apostrophes or
quotation marks ends with the mark that opens it. A plain one ends at a comment, at a colon that a
word does not follow, between brackets also at a bracket or a comma, and outside of them where the
indentation ends.
-/

namespace HexPatterns.Yaml

def apostrophe : Char := Char.ofNat 39

/-! ## Gaps -/

/-- What stands between two words of a scalar. Characters are kept last one first. -/
inductive Gap where
  /-- Spaces within a line. -/
  | spaces (read : List Char)
  /-- Line ends: the first one, unless it was escaped, and the others. -/
  | lines (first : Option Char) (others : List Char)
deriving DecidableEq, Repr

namespace Gap

def isBroken : Gap → Bool
  | spaces _ => false
  | lines .. => true

/-- Spaces next to a line end do not count. -/
def addSpace (c : Char) : Gap → Gap
  | spaces cs => spaces (c :: cs)
  | g => g

def addBreak (c : Char) : Gap → Gap
  | spaces _ => lines (some c) []
  | lines first others => lines first (c :: others)

/-- What the gap is read as, last character first. -/
def folded : Gap → List Char
  | spaces cs => cs
  | lines (some '\n') [] => [' ']
  | lines (some '\n') others => others
  | lines (some c) others => others ++ [c]
  | lines none others => others

/-- Reads on in a gap. In a new line there is no tabulator in front of column `indent`. -/
def read (indent : Nat) (g : Gap) (p : Place) : List Char → Except Fault (Gap × Cursor)
  | [] => .ok (g, ⟨p, []⟩)
  | '\r' :: '\n' :: cs => read indent (g.addBreak '\n') (p.nextLine 2) cs
  | c :: cs =>
    if isBreak c then read indent (g.addBreak (readBreak c)) (p.nextLine 1) cs
    else if isSpace c then
      if g.isBroken && c = '\t' && p.column < indent then .error .tabIndentation
      else read indent (g.addSpace c) (p.forward 1) cs
    else .ok (g, ⟨p, c :: cs⟩)

end Gap

/-! ## Quoted scalars -/

/-- The value of a digit, in bases up to sixteen. -/
def digitValue? (c : Char) : Option Nat :=
  let lower := c.toLower
  if c.isDigit then some (c.toNat - '0'.toNat)
  else if 'a' ≤ lower ∧ lower ≤ 'f' then some (lower.toNat - 'a'.toNat + 10)
  else none

/-- The value of digits in a base up to sixteen. There has to be one. -/
def digitsIn? (base : Nat) (cs : List Char) : Option Nat :=
  if cs.isEmpty then none
  else cs.foldlM (fun n c => ((digitValue? c).filter (· < base)).map (base * n + ·)) 0

/-- The character with a number of `n` hexadecimal digits. -/
def hexChar? (n : Nat) (cs : List Char) : Option Char := do
  let code ← digitsIn? 16 (cs.take n)
  if (cs.take n).length = n ∧ code.isValidChar then some (Char.ofNat code) else none

/-- The character that an escape stands for, and how long the escape is behind its backslash. -/
def escape? : List Char → Option (Char × Nat)
  | [] => none
  | c :: cs =>
    match c with
    | 'x' => (hexChar? 2 cs).map (·, 3)
    | 'u' => (hexChar? 4 cs).map (·, 5)
    | 'U' => (hexChar? 8 cs).map (·, 9)
    | '0' => some (Char.ofNat 0, 1)
    | 'a' => some (Char.ofNat 7, 1)
    | 'b' => some (Char.ofNat 8, 1)
    | 't' | '\t' => some ('\t', 1)
    | 'n' => some ('\n', 1)
    | 'v' => some (Char.ofNat 11, 1)
    | 'f' => some (Char.ofNat 12, 1)
    | 'r' => some ('\r', 1)
    | 'e' => some (Char.ofNat 27, 1)
    | ' ' | '"' | '/' | '\\' => some (c, 1)
    | 'N' => some (Char.ofNat 0x85, 1)
    | '_' => some (Char.ofNat 0xA0, 1)
    | 'L' => some (Char.ofNat 0x2028, 1)
    | 'P' => some (Char.ofNat 0x2029, 1)
    | _ => none

/-- The character that a quoted word goes on with, and how it is written: an apostrophe between
apostrophes is written twice; between quotation marks there are escapes. Nothing if the word ends
here, or its line with an escape. -/
def quotedChar? (mark : Char) : List Char → Except Fault (Option (Char × Nat))
  | [] => .ok none
  | c :: cs =>
    if isGap c then .ok none
    else if c = mark then
      .ok (if mark = apostrophe ∧ cs.head? = some mark then some (c, 2) else none)
    else if c = '\\' ∧ mark = '"' then
      if cs.head?.any isBreak then .ok none
      else
        match escape? cs with
        | some (d, n) => .ok (some (d, n + 1))
        | none => .error .unknownEscape
    else .ok (some (c, 1))

/-- The rest of a quoted word, of which `read` (last character first) has been read. -/
def quotedWord (mark : Char) : Nat → List Char → Cursor → Except Fault (List Char × Cursor)
  | 0, read, c => .ok (read, c)
  | fuel + 1, read, c => do
    match ← quotedChar? mark c.rest with
    | some (d, n) => quotedWord mark fuel (d :: read) (c.skip n)
    | none => return (read, c)

/-- The gap behind a quoted word. An escaped line end starts a gap that is read as nothing. -/
def quotedGap (c : Cursor) : Except Fault (Gap × Cursor) :=
  if c.rest.head? = some '\\' then
    let next := (c.skip 1).skipBreak
    (Gap.lines none []).read 0 next.place next.rest
  else (Gap.spaces []).read 0 c.place c.rest

/-- The rest of a quoted scalar, of which `read` (last character first) has been read. -/
def quotedRest (mark : Char) : Nat → List Char → Cursor → Except Fault (String × Cursor)
  | 0, _, _ => .error .endlessQuotation
  | fuel + 1, read, c => do
    if c.atDocumentMark then .error .quotedDocumentMark
    else
      let (read, c) ← quotedWord mark (c.rest.length + 1) read c
      match c.rest with
      | [] => .error .endlessQuotation
      | d :: _ =>
        if d = mark then return (String.ofList read.reverse, c.skip 1)
        else
          let (gap, c) ← quotedGap c
          quotedRest mark fuel (gap.folded ++ read) c

/-- The scalar that starts with the mark under the cursor. -/
def quotedScalar (mark : Char) (c : Cursor) : Except Fault (String × Cursor) :=
  quotedRest mark (c.rest.length + 1) [] (c.skip 1)

/-! ## Plain scalars -/

/-- The rest of a plain word, of which `read` (last character first) has been read. -/
def plainWord (inFlow : Bool) (read : List Char) (p : Place) :
    List Char → Except Fault (List Char × Cursor)
  | [] => .ok (read, ⟨p, []⟩)
  | c :: cs =>
    if isGap c || (inFlow && isFlowMark c) then .ok (read, ⟨p, c :: cs⟩)
    else if c = ':' && inFlow && cs.head?.any (fun d => d = '?' || isFlowMark d) then
      .error .unexpectedColon
    else if c = ':' && endsWord cs then .ok (read, ⟨p, c :: cs⟩)
    else plainWord inFlow (c :: read) (p.forward 1) cs

/-- The rest of a plain scalar, of which `read` (last character first) and the gap behind it have
been read. Tells in addition whether a line end follows the last word. -/
def plainRest (inFlow : Bool) (indent : Nat) :
    Nat → List Char → Gap → Cursor → Except Fault (String × Bool × Cursor)
  | 0, read, gap, c => .ok (String.ofList read.reverse, gap.isBroken, c)
  | fuel + 1, read, gap, c => do
    let (word, next) ←
      if c.atDocumentMark || c.rest.head? = some '#' then pure ([], c)
      else plainWord inFlow [] c.place c.rest
    if word.isEmpty then return (String.ofList read.reverse, gap.isBroken, c)
    let read := word ++ (gap.folded ++ read)
    let (gap, c) ← (Gap.spaces []).read indent next.place next.rest
    if !inFlow && c.place.column < indent then
      return (String.ofList read.reverse, gap.isBroken, c)
    else plainRest inFlow indent fuel read gap c

/-- The plain scalar under the cursor, and whether a line end follows its last word. Its lines are
indented by `indent` at least. -/
def plainScalar (inFlow : Bool) (indent : Nat) (c : Cursor) :
    Except Fault (String × Bool × Cursor) :=
  plainRest inFlow indent (c.rest.length + 1) [] (.spaces []) c

/-- A plain scalar can start like this. -/
def startsPlain (inFlow : Bool) : List Char → Bool
  | [] => false
  | c :: cs =>
    if c = '-' then !cs.head?.any isSpace
    else if c = '?' ∨ c = ':' then !inFlow && !endsWord cs
    else !(isGap c || isFlowMark c || c = apostrophe || "#&*!|>%@`\"".toList.contains c)

end HexPatterns.Yaml
