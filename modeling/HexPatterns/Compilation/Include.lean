import HexPatterns.Compilation.Basic

/-!
# Includes

An include stands for the tokens of another file, its own includes resolved. A file is included
once: the second time, by whatever path, a file of the same name contributes nothing. The files of
the library are included in front of every file, the library's own files among them.

The depth to which includes are followed is bounded by the file store. Along a chain of includes
that are followed each file has a new name, so the bound is never reached.
-/

namespace HexPatterns

/-- The directive includes a file. -/
def Token.isInclude (t : Token) : Bool :=
  t.kind = .directive && "include".toList.isPrefixOf t.content.toList

/-- The directives that include the files of the library. -/
def libraryTokens (origin : String) (files : List Path) : List Token :=
  files.map fun p => ⟨.directive, .origin, "include " ++ p.text, origin⟩

namespace CompileM

variable {σ : Type} [FileStore σ]

/-- The files of the library. They are looked for once. -/
def libraryFiles : CompileM σ (List Path) := do
  let c ← get
  match c.library with
  | some files => return files
  | none =>
    let dir := c.settings.libraryPath c.home
    let found := FileStore.sourcesUnder c.store dir
    if found.isNone then note (.libraryMissing dir)
    let files := found.getD []
    modify fun c => { c with library := some files }
    return files

/-- The file that is asked for: the path as written, or else as seen from the file that asks. -/
def includePath (includer : String) (requested : Path) : CompileM σ Path := do
  if FileStore.isFile (← get).store requested then return requested
  return match Path.parent? ⟨includer⟩ with
    | some dir => dir.join requested
    | none => requested

/-- The file that an include asks for. It has to exist. -/
def includedFile (t : Token) : CompileM σ Path := do
  let source ← sourceOf t
  match Text.wordsOf t.content with
  | [_, requested] =>
    let path ← includePath t.origin ⟨requested⟩
    if FileStore.isFile (← get).store path then return path
    throw (source.reportToken (.fileNotFound path.text) t)
  | fields => throw (source.reportToken (.includeArity fields.length) t)

/-- Puts the tokens of included files, which `follow` provides, in the place of the includes. -/
def resolveIncludesBy (follow : Path → CompileM σ (List Token)) :
    List Token → CompileM σ (List Token)
  | [] => return []
  | t :: ts => do
    let here ← if t.isInclude then follow (← includedFile t) else pure [t]
    let rest ← resolveIncludesBy follow ts
    return here ++ rest

/-- The tokens of a file as it is written, behind the includes of the library. -/
def tokensOf (path : Path) (name : String) : CompileM σ (List Token) := do
  match FileStore.read (← get).store path with
  | .error reason => throw (.unlocated (.io "read" path.text reason))
  | .ok text =>
    let source := SourceText.ofText name text
    modify fun c => { c with catalog := c.catalog.insert path.text source }
    let library ←
      if (← get).settings.includeStd then pure (libraryTokens path.text (← libraryFiles))
      else pure []
    let own ← source.scan path.text 0 text.toList
    return library ++ own

/-- The tokens of a file, includes resolved by `follow`. Nothing if its name was included before. -/
def enter (follow : Path → CompileM σ (List Token)) (path : Path) :
    CompileM σ (Option (List Token)) := do
  if !FileStore.isFile (← get).store path then
    throw (.unlocated (.fileNotFound path.text))
  let name := path.baseName
  if (← get).isIncluded name then
    note (.alreadyIncluded name)
    return none
  modify fun c => { c with included := c.included.insert name }
  let ts ← tokensOf path name
  noteStage .tokenization name ts
  let ts ← resolveIncludesBy follow ts
  noteStage .includes name ts
  return some ts

/-- The tokens that a file contributes where it is included, by chains of at most `n` files. -/
def contribution : Nat → Path → CompileM σ (List Token)
  | 0, _ => return []
  | n + 1, path => do
    match ← enter (contribution n) path with
    | none => return []
    | some ts =>
      note (.fileDone path.baseName)
      return ts

/-- The tokens that a file contributes where it is included. -/
def includeFile (path : Path) : CompileM σ (List Token) := do
  contribution (FileStore.nesting (← get).store path) path

/-- Puts the tokens of included files in the place of the includes. -/
def resolveIncludes (ts : List Token) : CompileM σ (List Token) :=
  resolveIncludesBy includeFile ts

end CompileM

end HexPatterns
