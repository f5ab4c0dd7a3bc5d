/-!
# Paths

A path is kept as it was written, and shown so; what it means is its list of components. Separators
may be repeated or stand at the end, and a `.` counts only at the front, so that `a//b`, `a/./b` and
`a/b/` mean the same path as `a/b`. A `..` is a component of its own and cancels nothing.
-/

namespace HexPatterns

/-- A part of a path. The order of the constructors is that of sorted paths. -/
inductive Component where
  | root
  | current
  | parent
  | name (name : String)
deriving DecidableEq, Repr, Ord

structure Path where
  text : String
deriving DecidableEq, Repr, Inhabited

namespace Path

/-- A component with the place in the text at which it ends. -/
structure Piece where
  component : Component
  stop : Nat
deriving DecidableEq, Repr

/-- The pieces among segments that follow each other from place `start` on. -/
def piecesFrom (start : Nat) : List (List Char) → List Piece
  | [] => []
  | segment :: rest =>
    let stop := start + segment.length
    let more := piecesFrom (stop + 1) rest
    match segment with
    | [] => more
    | ['.'] => more
    | ['.', '.'] => ⟨.parent, stop⟩ :: more
    | segment => ⟨.name (String.ofList segment), stop⟩ :: more

/-- What stands between the separators. -/
def segments (p : Path) : List (List Char) :=
  p.text.toList.splitOnP (· = '/')

def pieces (p : Path) : List Piece :=
  match p.segments with
  | [[]] => []
  | [] :: rest => ⟨.root, 1⟩ :: piecesFrom 1 rest
  | ['.'] :: rest => ⟨.current, 1⟩ :: piecesFrom 2 rest
  | segments => piecesFrom 0 segments

def components (p : Path) : List Component :=
  p.pieces.map Piece.component

/-- Two texts mean the same path. -/
def same (p q : Path) : Bool :=
  p.components = q.components

/-- The order of paths: component by component. -/
def le (p q : Path) : Bool :=
  (compare p.components q.components).isLE

/-- The path lies under a directory, or is it. -/
def isUnder (p dir : Path) : Bool :=
  dir.components.isPrefixOf p.components

def isAbsolute (p : Path) : Bool :=
  p.text.toList.head? = some '/'

/-- The first `n` characters of the text. -/
def take (p : Path) (n : Nat) : Path :=
  ⟨String.ofList (p.text.toList.take n)⟩

/-- A separator ends the text. -/
def endsLikeDirectory (p : Path) : Bool :=
  p.text.toList.getLast? = some '/'

/-- The text without the separators that end it. -/
def body (p : Path) : Path :=
  ⟨String.ofList (p.text.toList.reverse.dropWhile (· = '/')).reverse⟩

/-- The path of the directory: the text up to the end of the last component but one. -/
def parent? (p : Path) : Option Path :=
  match p.pieces.reverse with
  | [] => none
  | ⟨.root, _⟩ :: _ => none
  | [_] => some (p.take 0)
  | _ :: before :: _ => some (p.take before.stop)

/-- A path as seen from a directory. An absolute path is the same from everywhere. -/
def join (dir p : Path) : Path :=
  if p.isAbsolute then p
  else if dir.text.isEmpty || dir.endsLikeDirectory then ⟨dir.text ++ p.text⟩
  else ⟨dir.text ++ "/" ++ p.text⟩

/-- The last component, if it is a name. -/
def fileName? (p : Path) : Option String :=
  match p.components.getLast? with
  | some (.name n) => some n
  | _ => none

/-- The name by which a file counts as included: its file name or, for want of one, the text. -/
def baseName (p : Path) : String :=
  p.fileName?.getD p.text

/-- A file name without its extension, and the extension: what follows the last dot, unless that is
the first character. -/
def splitName (name : List Char) : List Char × Option (List Char) :=
  let stem := ((name.reverse.dropWhile (· ≠ '.')).drop 1).reverse
  if stem.isEmpty then (name, none)
  else (stem, some (name.reverse.takeWhile (· ≠ '.')).reverse)

def extension? (p : Path) : Option String :=
  p.fileName?.bind fun n => (splitName n.toList).2.map String.ofList

/-- The path with an extension behind the stem of its file name, where the text ends. A path without
file name stays as it is. -/
def setExtension (p : Path) (extension : String) : Path :=
  match p.pieces.getLast? with
  | some ⟨.name n, stop⟩ =>
    let stem := (splitName n.toList).1
    ⟨(p.take (stop - n.length + stem.length)).text ++ "." ++ extension⟩
  | _ => p

/-- The path with another extension, or with one at all. The text is first cut short by as many
characters as the extension has; what this leaves of `..x` is no file name and stays `..`. -/
def withExtension (p : Path) (extension : String) : Path :=
  let old := p.extension?.getD ""
  (p.take (p.text.length - old.length)).setExtension extension

/-- The extension of sources. -/
def sourceExtension : String := "macrohex"

/-- The extension of compiled patterns. -/
def outputExtension : String := "rawhex"

def isSource (p : Path) : Bool :=
  p.extension? = some sourceExtension

end Path

end HexPatterns
