import HexPatterns.Path

/-!
# File stores

All that a compilation wants to know of files: whether a path is one, what is in it, and which
sources lie under a directory.
-/

namespace HexPatterns

class FileStore (σ : Type) where
  /-- The path is that of a file. -/
  isFile : σ → Path → Bool
  /-- The text of a file, or why it cannot be read. -/
  read : σ → Path → Except String String
  /-- The sources under a directory, in order; nothing if the directory is missing. -/
  sourcesUnder : σ → Path → Option (List Path)
  /-- A bound on the length of a chain of files, from the given one on, in which each file is
  included by the one before it and no two have the same base name. -/
  nesting : σ → Path → Nat

end HexPatterns
