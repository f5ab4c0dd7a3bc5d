import HexPatterns.Files.Store

/-!
# File sets

Files by path, in memory. A path is found under any text that means it. Directories exist only by
the files under them.
-/

namespace HexPatterns

structure FileSet where
  /-- Paths and texts; no path is there twice. -/
  files : List (Path × String)

namespace FileSet

def empty : FileSet := ⟨[]⟩

/-- The file with a path, if it is there. -/
def find? (s : FileSet) (p : Path) : Option (Path × String) :=
  s.files.find? fun f => f.1.same p

/-- Adds a file. A file that is already there gets the new text and keeps its path as written. -/
def insert (s : FileSet) (p : Path) (text : String) : FileSet :=
  if (s.find? p).isSome then
    ⟨s.files.map fun f => if f.1.same p then (f.1, text) else f⟩
  else ⟨s.files ++ [(p, text)]⟩

def ofList (files : List (Path × String)) : FileSet :=
  files.foldl (fun s f => s.insert f.1 f.2) empty

def isFile (s : FileSet) (p : Path) : Bool :=
  (s.find? p).isSome

def read (s : FileSet) (p : Path) : Except String String :=
  match s.find? p with
  | some f => .ok f.2
  | none => .error (p.text ++ " not loaded")

/-- The sources under a directory, sorted. A directory without sources counts as missing. -/
def sourcesUnder (s : FileSet) (dir : Path) : Option (List Path) :=
  let found := (s.files.map Prod.fst).filter fun p => p.isUnder dir && p.isSource
  if found.isEmpty then none else some (found.mergeSort Path.le)

/-- How many components the paths have at most. -/
def depth (s : FileSet) : Nat :=
  s.files.foldr (fun f n => max f.1.components.length n) 0

/-- How many characters the paths and the texts have at most. -/
def width (s : FileSet) : Nat :=
  s.files.foldr (fun f n => max (max f.1.text.length f.2.length) n) 0

/-- How many characters a path has at most that is come to by includes, from the given one on. Every
component of it was written somewhere. -/
def reach (s : FileSet) (p : Path) : Nat :=
  (s.depth + 1) * (max s.width p.text.length + 1)

instance : FileStore FileSet where
  isFile := isFile
  read := read
  sourcesUnder := sourcesUnder
  -- Paths without file name go by their text, and there may be many more texts than files. A
  -- character is one of less than `2 ^ 21`.
  nesting s p := Nat.pow 2 (21 * (s.reach p + 1))

end FileSet

end HexPatterns
