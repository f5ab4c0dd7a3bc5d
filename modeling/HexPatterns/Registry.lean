import Std.Data.TreeMap
import HexPatterns.Fault
import HexPatterns.Token.Basic

/-!
# The registry of macros

Macro bodies by name. A name is given away once; names are listed in the order of their bytes.
-/

namespace HexPatterns

structure Registry where
  bodies : Std.TreeMap String (List Token) compare

namespace Registry

def empty : Registry := ⟨∅⟩

instance : Inhabited Registry := ⟨empty⟩

/-- The body of a macro. -/
def lookup (r : Registry) (name : String) : Option (List Token) :=
  r.bodies[name]?

def contains (r : Registry) (name : String) : Bool :=
  r.bodies.contains name

/-- Gives a new name to a body. -/
def register (r : Registry) (name : String) (body : List Token) : Except Fault Registry :=
  if r.contains name then .error (.duplicateMacro name)
  else .ok ⟨r.bodies.insert name body⟩

/-- The body that a call stands for: the one of the name as written, else of the trimmed name. -/
def resolve (r : Registry) (call : String) : Option (List Token) :=
  r.lookup call <|> r.lookup (Text.trimmed call)

def names (r : Registry) : List String :=
  r.bodies.keys

def size (r : Registry) : Nat :=
  r.bodies.size

end Registry

end HexPatterns
