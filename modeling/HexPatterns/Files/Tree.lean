import HexPatterns.Files.Store
import HexPatterns.Text.Blank

/-!
# File trees

A directory with all that is in it, as an operating system shows it: a path is followed name by
name, every name but the last has to be that of a directory, and `..` leads to the directory above.
Of what lies outside the tree nothing is known but that there are directories.
-/

namespace HexPatterns

/-- Why an operation on a file fails. -/
inductive IoFault where
  | notFound
  | notDirectory
  | isDirectory
  | nameTooLong
  | nameWithNul
  | notText
deriving DecidableEq, Repr

def IoFault.message : IoFault → String
  | notFound => "No such file or directory (os error 2)"
  | notDirectory => "Not a directory (os error 20)"
  | isDirectory => "Is a directory (os error 21)"
  | nameTooLong => "File name too long (os error 36)"
  | nameWithNul => "file name contained an unexpected NUL byte"
  | notText => "stream did not contain valid UTF-8"

namespace FileTree

/-- A file with its bytes, or a directory. -/
inductive Entry where
  | file (content : ByteArray)
  | directory

/-- A place in the tree, by the names that lead to it, or a directory outside it. -/
inductive Place where
  | inside (names : List String)
  | outside
deriving DecidableEq, Repr

end FileTree

structure FileTree where
  /-- All that is in the tree, by the names that lead to it. -/
  entries : List (List String × FileTree.Entry)

namespace FileTree

def empty : FileTree := ⟨[]⟩

/-- What is at a place. -/
def entryAt (t : FileTree) : Place → Option Entry
  | .inside [] => some .directory
  | .inside names => t.entries.lookup names
  | .outside => some .directory

/-- Puts an entry in a place, instead of the one that is there. -/
def put (t : FileTree) (names : List String) (e : Entry) : FileTree :=
  ⟨t.entries.filter (·.1 ≠ names) ++ [(names, e)]⟩

/-- Makes a directory and those above it. -/
def makeDirectory (t : FileTree) (names : List String) : FileTree :=
  (List.range names.length).foldl (fun t n => t.put (names.take (n + 1)) .directory) t

/-- Puts a file in a place and makes the directories above it. -/
def makeFile (t : FileTree) (names : List String) (content : ByteArray) : FileTree :=
  (t.makeDirectory names.dropLast).put names (.file content)

/-- How many bytes a name may have. -/
def nameLimit : Nat := 255

/-- How many bytes a path may have. -/
def pathLimit : Nat := 4095

/-- Follows the segments of a path. The place that they lead to need not exist. -/
def follow (t : FileTree) : Place → List (List Char) → Except IoFault Place
  | place, [] => .ok place
  | place, segment :: rest =>
    match t.entryAt place with
    | none => .error .notFound
    | some (.file _) => .error .notDirectory
    | some .directory =>
      match segment, place with
      | [], _ => t.follow place rest
      | ['.'], _ => t.follow place rest
      | ['.', '.'], .inside (name :: names) => t.follow (.inside (name :: names).dropLast) rest
      | ['.', '.'], _ => t.follow .outside rest
      | name, place =>
        if nameLimit < Text.byteLength name then .error .nameTooLong
        else
          match place with
          | .inside names => t.follow (.inside (names ++ [String.ofList name])) rest
          | .outside => .error .notFound

/-- The place that the segments of a path lead to. -/
def locateBy (t : FileTree) (p : Path) (segments : List (List Char)) : Except IoFault Place :=
  if p.text.toList.contains (Char.ofNat 0) then .error .nameWithNul
  else if p.text.isEmpty then .error .notFound
  else if pathLimit < p.text.utf8ByteSize then .error .nameTooLong
  else t.follow (if p.isAbsolute then .outside else .inside []) segments

/-- The place that a path leads to. -/
def locate (t : FileTree) (p : Path) : Except IoFault Place :=
  t.locateBy p p.segments

/-- What a path leads to. -/
def find (t : FileTree) (p : Path) : Except IoFault Entry := do
  let place ← t.locate p
  match t.entryAt place with
  | some e => return e
  | none => .error .notFound

def isFile (t : FileTree) (p : Path) : Bool :=
  match t.find p with
  | .ok (.file _) => true
  | _ => false

/-- The text of a file. -/
def read (t : FileTree) (p : Path) : Except IoFault String := do
  match ← t.find p with
  | .directory => .error .isDirectory
  | .file content =>
    match String.fromUTF8? content with
    | some text => return text
    | none => .error .notText

/-- The sources in a directory and in those below it, sorted; nothing if there is no such
directory. -/
def sourcesUnder (t : FileTree) (dir : Path) : Option (List Path) :=
  match t.find dir, t.locate dir with
  | .ok .directory, .ok (.inside names) =>
    let found := t.entries.filterMap fun
      | (place, .file _) =>
        if names.isPrefixOf place then
          some ((place.drop names.length).foldl (fun p name => p.join ⟨name⟩) dir)
        else none
      | (_, .directory) => none
    some ((found.filter Path.isSource).mergeSort Path.le)
  | .ok .directory, _ => some []
  | _, _ => none

/-- Writes a text to a file, which is made if its directory exists. A path that ends like that of a
directory, behind whatever name, is never that of a file. -/
def write (t : FileTree) (p : Path) (text : String) : Except IoFault FileTree := do
  if p.endsLikeDirectory then
    let _ ← t.locateBy p (p.body.segments.dropLast ++ [['.']])
    .error .isDirectory
  else
    let place ← t.locate p
    match t.entryAt place, place with
    | some .directory, _ => .error .isDirectory
    | _, .inside names => return t.put names (.file text.toUTF8)
    | _, .outside => .error .notFound

end FileTree

/-- A file tree, and how the sources under its directories are listed. -/
structure ListedTree where
  tree : FileTree
  sourcesUnder : FileTree → Path → Option (List Path)

instance : FileStore ListedTree where
  isFile s := s.tree.isFile
  read s p := (s.tree.read p).mapError IoFault.message
  sourcesUnder s := s.sourcesUnder s.tree
  -- files in a tree have names of their own
  nesting s _ := s.tree.entries.length + 1

end HexPatterns
