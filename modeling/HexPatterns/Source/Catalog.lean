import Std.Data.HashMap
import HexPatterns.Path
import HexPatterns.Source.Text

/-!
# The catalog of sources

The sources read so far, by the path that their tokens carry as origin.
-/

namespace HexPatterns

structure Catalog where
  sources : Std.HashMap String SourceText

namespace Catalog

def empty : Catalog := ⟨∅⟩

def insert (c : Catalog) (origin : String) (s : SourceText) : Catalog :=
  ⟨c.sources.insert origin s⟩

/-- The source of an origin. If it was never read, only its name is known. -/
def find (c : Catalog) (origin : String) : SourceText :=
  c.sources[origin]?.getD (.unread (Path.baseName ⟨origin⟩))

end Catalog

end HexPatterns
