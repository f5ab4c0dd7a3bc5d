import HexPatterns.Files.Store

/-!
# Snapshots

What was seen of a file system before a compilation: some paths, by their texts, and what was found
there. A path that was not looked at counts as missing.
-/

namespace HexPatterns

structure Snapshot where
  /-- The regular files, with their texts or the reason why there is none. -/
  files : List (Path × Except String String)
  /-- Why the other paths cannot be read. -/
  others : List (Path × String)
  /-- The sources in the directories that were listed. -/
  listings : List (Path × List Path)

namespace Snapshot

def empty : Snapshot := ⟨[], [], []⟩

/-- The path was looked at. -/
def knows (s : Snapshot) (p : Path) : Bool :=
  s.files.any (·.1 = p) || s.others.any (·.1 = p)

def isFile (s : Snapshot) (p : Path) : Bool :=
  s.files.any (·.1 = p)

def read (s : Snapshot) (p : Path) : Except String String :=
  match s.files.lookup p with
  | some found => found
  | none => .error ((s.others.lookup p).getD "not looked at")

instance : FileStore Snapshot where
  isFile := isFile
  read := read
  sourcesUnder s dir := s.listings.lookup dir
  -- a regular file has a name
  nesting s _ := s.files.length + 1

end Snapshot

end HexPatterns
