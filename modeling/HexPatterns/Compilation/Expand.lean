import HexPatterns.Compilation.Basic
import HexPatterns.Definition
import HexPatterns.Generator

/-!
# Definitions, calls and generators

Three passes over the tokens of a file. The first registers the definitions and takes them out. The
others take turns: one puts macro bodies in the place of calls, one puts patterns in the place of
generator directives. What a pass puts in, it does not look at again.
-/

namespace HexPatterns

section Define

variable (catalog : Catalog)

/-- The name and the body that a definition gives. -/
def readDefinition (t : Token) : Except Diagnostic (String × List Token) := do
  let source := catalog.find t.origin
  let d ← (Definition.ofContent t.content.toList).mapError (source.reportToken · t)
  let body ← source.scan t.origin (t.position.line + d.skipped) d.body
  return (d.name, body)

/-- Registers a definition. -/
def define (r : Registry) (t : Token) : Except Diagnostic Registry := do
  let (name, body) ← readDefinition catalog t
  (r.register name body).mapError ((catalog.find t.origin).reportToken · t)

/-- Registers the definitions among the tokens and returns the others. The registry holds what was
registered before a definition that fails. -/
def registerDefinitions (r : Registry) : List Token → Registry × Except Diagnostic (List Token)
  | [] => (r, .ok [])
  | t :: ts =>
    if t.kind = .definition then
      match define catalog r t with
      | .ok r => registerDefinitions r ts
      | .error d => (r, .error d)
    else
      let (r, rest) := registerDefinitions r ts
      (r, rest.map (t :: ·))

/-- What a token stands for, if it is a call: the body of the macro. -/
def expandCall (r : Registry) (t : Token) : Except Diagnostic (List Token) :=
  if t.kind = .call then
    match r.resolve t.content with
    | some body => .ok body
    | none => .error ((catalog.find t.origin).reportToken (.undefinedMacro t.content) t)
  else .ok [t]

/-- Puts the bodies of macros in the place of calls. -/
def expandCalls (r : Registry) : List Token → Except Diagnostic (List Token)
  | [] => .ok []
  | t :: ts => do
    let here ← expandCall catalog r t
    let rest ← expandCalls r ts
    return here ++ rest

end Define

/-- The directive is for a generator. -/
def Token.isGenerator (t : Token) : Bool :=
  t.kind = .directive && t.content.toList.head? = some 'g'

/-- The generator that a directive names, and its arguments. -/
def readGenerator (t : Token) : Except Fault (Generator × List String) :=
  match (Text.words (t.content.toList.drop 1)).map String.ofList with
  | name :: arg :: args => (Generator.ofName name).map fun g => (g, arg :: args)
  | _ => .error .generatorArity

namespace CompileM

variable {σ : Type}

/-- Puts a pattern in the place of a generator directive. -/
def runGenerator (t : Token) : CompileM σ Token := do
  let c ← get
  let result := do
    let (g, args) ← readGenerator t
    g.generate args t c.solver
  match result with
  | .error f => throw ((← sourceOf t).reportToken f t)
  | .ok (t, solver, events) =>
    modify fun c => { c with solver, log := c.log ++ events }
    return t

/-- Puts patterns in the place of generator directives. -/
def runGenerators : List Token → CompileM σ (List Token)
  | [] => return []
  | t :: ts => do
    let here ← if t.isGenerator then runGenerator t else pure t
    let rest ← runGenerators ts
    return here :: rest

/-- Registers the definitions of a file. -/
def takeDefinitions (ts : List Token) : CompileM σ (List Token) := do
  let c ← get
  let (registry, result) := registerDefinitions c.catalog c.registry ts
  set { c with registry }
  MonadExcept.ofExcept result

/-- Puts the bodies of macros in the place of calls. -/
def takeCalls (ts : List Token) : CompileM σ (List Token) := do
  let c ← get
  MonadExcept.ofExcept (expandCalls c.catalog c.registry ts)

/-- Expands calls and generators in turn, for `n` rounds at most, until nothing is left to expand.
Rounds are counted on from `k`. -/
def expandRounds (name : String) : Nat → Nat → List Token → CompileM σ (List Token)
  | 0, _, ts => return ts
  | n + 1, k, ts => do
    if ts.any Token.isExpandable then
      note (.roundStarted (k + 1) name)
      let ts ← takeCalls ts
      let ts ← runGenerators ts
      note (.ofTokens name ts)
      expandRounds name n (k + 1) ts
    else return ts

end CompileM

end HexPatterns
