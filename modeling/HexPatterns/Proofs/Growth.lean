import Mathlib
import HexPatterns.Compilation.Compile
import HexPatterns.Proofs.Alike
import HexPatterns.Proofs.Leftovers
import HexPatterns.Proofs.Memo

/-!
# A compilation only grows

Whatever is asked of a compilation, and whether it succeeds or fails, it forgets nothing: names that
were included stay included, macros keep their bodies, sources their texts, numbers their patterns,
and the library its files. A file is entered only if its name is new, and the name is marked before
the text is put in the catalog. So the sources that are put there have names that are included, and
those are not replaced. `Compilation.Grows` says this of two compilations; that a piece of work
`Adds` follows from its steps.
-/

namespace HexPatterns

open Synthesis

section Parts

/-- The solver remembers all that it did, and has counted on. -/
structure Synthesis.Solver.Grows {α : Type} [Scalar α] (s s' : Solver α) : Prop where
  memo : ∀ (key : Scalar.Key α) found, s.memo[key]? = some found → s'.memo[key]? = some found
  searches : s.counters.searches ≤ s'.counters.searches
  cacheHits : s.counters.cacheHits ≤ s'.counters.cacheHits
  expansions : s.counters.expansions ≤ s'.counters.expansions

theorem Synthesis.Solver.Grows.refl {α : Type} [Scalar α] (s : Solver α) : s.Grows s :=
  ⟨fun _ _ h => h, le_rfl, le_rfl, le_rfl⟩

theorem Synthesis.Solver.Grows.trans {α : Type} [Scalar α] {s s' s'' : Solver α} (h : s.Grows s')
    (h' : s'.Grows s'') : s.Grows s'' :=
  ⟨fun key found hfound => h'.memo key found (h.memo key found hfound),
    h.searches.trans h'.searches, h.cacheHits.trans h'.cacheHits,
    h.expansions.trans h'.expansions⟩

theorem Synthesis.Solver.grows_solve {α : Type} [Scalar α] (s : Solver α) (x : α) :
    s.Grows (s.solve x).2 := by
  rcases s.solve_cases x with ⟨found, -, heq⟩ | ⟨hnone, done, -, heq⟩
  · rw [heq]
    exact ⟨fun _ _ h => h, le_rfl, Nat.le_succ _, le_rfl⟩
  · rw [heq]
    refine ⟨fun key found hfound => ?_, Nat.le_succ _, le_rfl, Nat.le_add_right _ _⟩
    have hne : ¬ (Scalar.key x == key) = true := fun hkey => by
      rw [← beq_iff_eq.1 hkey, hnone] at hfound
      cases hfound
    rw [Std.HashMap.getElem?_insert, if_neg hne]
    exact hfound

/-- All macros of the one registry have the same bodies in the other. -/
def Registry.Below (r r' : Registry) : Prop :=
  ∀ name body, r.lookup name = some body → r'.lookup name = some body

theorem Registry.Below.trans {r r' r'' : Registry} (h : r.Below r') (h' : r'.Below r'') :
    r.Below r'' :=
  fun name body hbody => h' name body (h name body hbody)

theorem Registry.below_of_register {r r' : Registry} {name : String} {body : List Token}
    (h : r.register name body = .ok r') : r.Below r' := by
  intro other found hfound
  rw [Registry.lookup_of_register h, if_neg]
  · exact hfound
  · rintro rfl
    rw [Registry.register_of_lookup_ne _ (by simp [hfound])] at h
    cases h

theorem Registry.below_registerDefinitions (catalog : Catalog) : ∀ (ts : List Token) (r : Registry),
    r.Below (registerDefinitions catalog r ts).1
  | [], r => fun _ _ h => h
  | t :: ts, r => by
    unfold registerDefinitions
    split
    · split
      · rename_i r' hdef
        obtain ⟨_, _, _, _, hreg⟩ := define_eq_ok_iff.1 hdef
        exact (below_of_register hreg).trans (below_registerDefinitions catalog ts r')
      · exact fun _ _ h => h
    · exact below_registerDefinitions catalog ts r

end Parts

namespace Compilation

variable {σ : Type}

/-- One compilation has come of the other: all that was there is still there. -/
structure Grows (c c' : Compilation σ) : Prop where
  store : c'.store = c.store
  included : ∀ name, c.isIncluded name = true → c'.isIncluded name = true
  registry : c.registry.Below c'.registry
  sources : ∀ origin source, c.isIncluded (Path.baseName ⟨origin⟩) = true →
    c.catalog.sources[origin]? = some source → c'.catalog.sources[origin]? = some source
  /-- What is put in the catalog has a name that is included. -/
  stored : ∀ origin source, c'.catalog.sources[origin]? = some source →
    c.catalog.sources[origin]? = some source
      ∨ c'.isIncluded (Path.baseName ⟨origin⟩) = true
  library : ∀ files, c.library = some files → c'.library = some files
  solver : c.solver.Grows c'.solver

namespace Grows

variable {c d c' : Compilation σ}

theorem trans (h : c.Grows d) (h' : d.Grows c') : c.Grows c' where
  store := h'.store.trans h.store
  included name hname := h'.included name (h.included name hname)
  registry := h.registry.trans h'.registry
  sources origin source hname hsource :=
    h'.sources origin source (h.included _ hname) (h.sources origin source hname hsource)
  stored origin source hsource := by
    rcases h'.stored origin source hsource with hsource | hname
    · exact (h.stored origin source hsource).imp_right (h'.included _)
    · exact .inr hname
  library files hfiles := h'.library files (h.library files hfiles)
  solver := h.solver.trans h'.solver

/-- The parts that a compilation can change without looking at the others. -/
theorem of_parts {settings : Settings} {registry : Registry} {solver : Solver Float}
    {log : Array Event} {library : Option (List Path)} (hregistry : c.registry.Below registry)
    (hsolver : c.solver.Grows solver)
    (hlibrary : ∀ files, c.library = some files → library = some files) :
    c.Grows { c with settings, registry, solver, log, library } where
  store := rfl
  included _ h := h
  registry := hregistry
  sources _ _ _ h := h
  stored _ _ h := .inl h
  library := hlibrary
  solver := hsolver

theorem refl (c : Compilation σ) : c.Grows c :=
  of_parts (fun _ _ h => h) (.refl _) fun _ h => h

theorem registering (c : Compilation σ) (catalog : Catalog) (ts : List Token) :
    c.Grows { c with registry := (registerDefinitions catalog c.registry ts).1 } :=
  of_parts (Registry.below_registerDefinitions catalog ts c.registry) (.refl _) fun _ h => h

theorem noting (h : c.Grows c') (e : Event) : c.Grows (c'.noting e) :=
  h.trans (of_parts (fun _ _ h => h) (.refl _) fun _ h => h)

theorem isIncluded_eq_false (h : c.Grows c') {name : String}
    (hname : c'.isIncluded name = false) : c.isIncluded name = false :=
  Bool.eq_false_iff.2 fun hold => Bool.eq_false_iff.1 hname (h.included name hold)

theorem marking (c : Compilation σ) (name : String) :
    c.Grows { c with included := c.included.insert name } where
  store := rfl
  included other hother := by
    rw [isIncluded, Std.HashSet.contains_insert, Bool.or_eq_true]
    exact .inr hother
  registry _ _ h := h
  sources _ _ _ h := h
  stored _ _ h := .inl h
  library _ h := h
  solver := .refl _

/-- A file is entered: its name is marked and its text put in the catalog. No source of an included
name is replaced, as the name is new. -/
theorem entering (path : Path)
    (hnew : c.isIncluded path.baseName = false) (source : SourceText) :
    c.Grows { c with
      included := c.included.insert path.baseName
      catalog := c.catalog.insert path.text source } where
  store := rfl
  included := (marking c path.baseName).included
  registry _ _ h := h
  sources origin source' hname hsource := by
    have hne : ¬ (path.text == origin) = true := fun heq => by
      rw [← beq_iff_eq.1 heq, hnew] at hname
      cases hname
    rw [Catalog.insert, Std.HashMap.getElem?_insert, if_neg hne]
    exact hsource
  stored origin source' hsource := by
    rw [Catalog.insert, Std.HashMap.getElem?_insert] at hsource
    split at hsource
    · rename_i heq
      rw [← beq_iff_eq.1 heq]
      exact .inr Std.HashSet.contains_insert_self
    · exact .inl hsource
  library _ h := h
  solver := .refl _

end Grows

end Compilation

namespace CompileM

variable {σ α β : Type}

/-- Begun anywhere, and whether it gives a result or fails, the work leaves a grown compilation
behind. -/
def Adds (x : CompileM σ α) : Prop :=
  ∀ c, Ensures x c (fun _ => c.Grows) (fun _ => c.Grows)

section Steps

variable {x : CompileM σ α}

/-- Work that adds, begun at a compilation that has grown. -/
theorem Adds.after (hx : Adds x) {c d : Compilation σ} (h : c.Grows d) :
    Ensures x d (fun _ => c.Grows) (fun _ => c.Grows) :=
  (hx d).mono (fun _ _ h' => h.trans h') (fun _ _ h' => h.trans h')

theorem Adds.grows_of_run (hx : Adds x) {c c' : Compilation σ} {r : Except Diagnostic α}
    (h : x.run.run c = (r, c')) : c.Grows c' := by
  cases r with
  | error d => exact (hx c).2 d c' h
  | ok a => exact (hx c).1 a c' h

theorem adds_pure (a : α) : Adds (pure a : CompileM σ α) := fun c => by
  rw [ensures_pure]
  exact .refl c

theorem adds_throw (d : Diagnostic) : Adds (throw d : CompileM σ α) := fun c => by
  rw [ensures_throw]
  exact .refl c

theorem adds_get : Adds (get : CompileM σ (Compilation σ)) := fun c => by
  rw [ensures_get]
  exact .refl c

theorem Adds.bind {f : α → CompileM σ β} (hx : Adds x) (hf : ∀ a, Adds (f a)) :
    Adds (x >>= f) := fun c => by
  rw [ensures_bind]
  exact (hx c).mono (fun a _ h => (hf a).after h) (fun _ _ h => h)

theorem adds_ite {p : Prop} [Decidable p] {y : CompileM σ α} (hx : Adds x) (hy : Adds y) :
    Adds (if p then x else y) := by
  split
  · exact hx
  · exact hy

theorem adds_ofExcept (r : Except Diagnostic α) :
    Adds (MonadExcept.ofExcept r : CompileM σ α) := fun c => by
  rw [ensures_ofExcept]
  exact ⟨fun _ _ => .refl c, fun _ _ => .refl c⟩

theorem adds_liftM (r : Except Diagnostic α) : Adds (liftM r : CompileM σ α) := fun c => by
  rw [ensures_liftM]
  exact ⟨fun _ _ => .refl c, fun _ _ => .refl c⟩

theorem adds_note (e : Event) : Adds (note e : CompileM σ Unit) := fun c => by
  rw [ensures_note]
  exact (Compilation.Grows.refl c).noting e

theorem adds_noteStage (stage : Stage) (name : String) (ts : List Token) :
    Adds (noteStage stage name ts : CompileM σ Unit) :=
  (adds_note _).bind fun _ => adds_note _

theorem adds_sourceOf (t : Token) : Adds (sourceOf t : CompileM σ SourceText) :=
  adds_get.bind fun _ => adds_pure _

end Steps

section Includes

variable [FileStore σ]

theorem adds_libraryFiles : Adds (libraryFiles : CompileM σ (List Path)) := fun c => by
  simp only [libraryFiles, ensures_bind, ensures_get]
  split
  · rw [ensures_pure]
    exact .refl c
  · rename_i hnone
    have hgrows : ∀ log library, c.Grows { c with log, library } := fun log library =>
      .of_parts (fun _ _ h => h) (.refl _) fun files h => by rw [hnone] at h; cases h
    simp only [ensures_ite, ensures_bind, ensures_note, ensures_pure, ensures_modify]
    split
    · exact hgrows _ _
    · exact hgrows _ _

theorem adds_includePath (includer : String) (requested : Path) :
    Adds (includePath includer requested : CompileM σ Path) :=
  adds_get.bind fun _ => adds_ite (adds_pure _) (adds_pure _)

theorem adds_includedFile (t : Token) : Adds (includedFile t : CompileM σ Path) := by
  refine (adds_sourceOf t).bind fun source => ?_
  split
  · exact (adds_includePath _ _).bind fun _ =>
      adds_get.bind fun _ => adds_ite (adds_pure _) (adds_throw _)
  · exact adds_throw _

/-- A text is read when its name is marked already, so growth is measured from before the mark. -/
theorem ensures_tokensOf_marked {c : Compilation σ} {path : Path}
    (hnew : c.isIncluded path.baseName = false) :
    Ensures (tokensOf path path.baseName) { c with included := c.included.insert path.baseName }
      (fun _ c' => c.Grows c' ∧ c'.isIncluded path.baseName = true)
      (fun _ c' => c.Grows c' ∧ c'.isIncluded path.baseName = true) := by
  rw [tokensOf, ensures_bind, ensures_get]
  split
  · rw [ensures_throw]
    exact ⟨.marking c _, Std.HashSet.contains_insert_self⟩
  · rename_i text _
    rw [ensures_bind, ensures_modify]
    have hentered := Compilation.Grows.entering path hnew (.ofText path.baseName text)
    refine Ensures.mono (Adds.after ?_ (.refl _))
      (fun _ _ h => ⟨hentered.trans h, h.included _ Std.HashSet.contains_insert_self⟩)
      (fun _ _ h => ⟨hentered.trans h, h.included _ Std.HashSet.contains_insert_self⟩)
    have hown : ∀ library, Adds (do
        let own ← liftM ((SourceText.ofText path.baseName text).scan path.text 0 text.toList)
        pure (library ++ own) : CompileM σ (List Token)) :=
      fun library => (adds_liftM _).bind fun _ => adds_pure _
    refine adds_get.bind fun _ => adds_ite ?_ ((adds_pure _).bind hown)
    exact adds_libraryFiles.bind fun _ => (adds_pure _).bind hown

variable {follow : Path → CompileM σ (List Token)}

theorem adds_resolveIncludesBy (hfollow : ∀ p, Adds (follow p)) :
    ∀ ts : List Token, Adds (resolveIncludesBy follow ts)
  | [] => adds_pure _
  | t :: ts => by
    have hrest : ∀ here, Adds (do
        let rest ← resolveIncludesBy follow ts
        pure (here ++ rest)) :=
      fun here => (adds_resolveIncludesBy hfollow ts).bind fun _ => adds_pure _
    unfold resolveIncludesBy
    refine adds_ite ?_ ((adds_pure _).bind hrest)
    exact (adds_includedFile t).bind fun p => (hfollow p).bind hrest

theorem adds_enter (hfollow : ∀ p, Adds (follow p)) (path : Path) :
    Adds (enter follow path) := fun c => by
  simp only [enter, ensures_bind, ensures_get, ensures_ite, ensures_throw, ensures_note,
    ensures_pure, ensures_modify]
  split
  · exact .refl c
  · split
    · exact (Compilation.Grows.refl c).noting _
    · rename_i hnew
      refine (ensures_tokensOf_marked (Bool.not_eq_true _ ▸ hnew)).mono (fun ts d hd => ?_)
        (fun _ _ h => h.1)
      refine ((adds_noteStage _ _ _).after hd.1).mono (fun _ e he => ?_) (fun _ _ h => h)
      refine ((adds_resolveIncludesBy hfollow ts).after he).mono (fun us f hf => ?_)
        (fun _ _ h => h)
      exact (adds_noteStage _ _ _).after hf

theorem adds_contribution : ∀ (n : Nat) (path : Path),
    Adds (contribution n path : CompileM σ (List Token))
  | 0, _ => adds_pure _
  | n + 1, path => by
    refine (adds_enter (adds_contribution n) path).bind fun result => ?_
    cases result with
    | none => exact adds_pure _
    | some ts => exact (adds_note _).bind fun _ => adds_pure _

theorem adds_includeFile (path : Path) : Adds (includeFile path : CompileM σ (List Token)) :=
  adds_get.bind fun _ => adds_contribution _ path

end Includes

section Expands

theorem adds_runGenerator (t : Token) : Adds (runGenerator t : CompileM σ Token) := by
  intro c
  rw [Ensures]
  constructor
  · intro p c' h
    obtain ⟨s, events, hgen, rfl⟩ := gives_runGenerator.1 h
    obtain ⟨g, _, x, _, _, _, _, hs⟩ := generation_eq_ok_iff.1 hgen
    refine .of_parts (fun _ _ h => h) ?_ fun _ h => h
    cases g with
    | bits =>
      cases hs
      exact .refl _
    | num =>
      simp only [Generator.synthesize, Prod.mk.injEq] at hs
      rw [hs.2.1]
      exact c.solver.grows_solve x
  · intro d c' h
    rcases hgen : generation t c.solver with f | ⟨p, s, events⟩
    · cases (fails_runGenerator hgen).symm.trans h
      exact .refl c
    · exact absurd h (gives_runGenerator.2 ⟨s, events, hgen, rfl⟩).not_fails

theorem adds_runGenerators : ∀ ts : List Token, Adds (runGenerators ts : CompileM σ (List Token))
  | [] => adds_pure _
  | t :: ts => by
    have hrest : ∀ here, Adds (do
        let rest ← runGenerators ts
        pure (here :: rest) : CompileM σ (List Token)) :=
      fun here => (adds_runGenerators ts).bind fun _ => adds_pure _
    unfold runGenerators
    exact adds_ite ((adds_runGenerator t).bind hrest) ((adds_pure _).bind hrest)

theorem adds_takeDefinitions (ts : List Token) :
    Adds (takeDefinitions ts : CompileM σ (List Token)) := fun c => by
  simp only [takeDefinitions, ensures_bind, ensures_get, ensures_set]
  exact (adds_ofExcept _).after (.registering c c.catalog ts)

theorem adds_takeCalls (ts : List Token) : Adds (takeCalls ts : CompileM σ (List Token)) :=
  adds_get.bind fun _ => adds_ofExcept _

theorem adds_expandRounds (name : String) : ∀ (n k : Nat) (ts : List Token),
    Adds (expandRounds name n k ts : CompileM σ (List Token))
  | 0, _, _ => adds_pure _
  | n + 1, k, ts => by
    refine adds_ite ?_ (adds_pure _)
    exact (adds_note _).bind fun _ => (adds_takeCalls ts).bind fun us =>
      (adds_runGenerators us).bind fun vs => (adds_note _).bind fun _ =>
        adds_expandRounds name n (k + 1) vs

theorem adds_expandFile (name : String) (ts : List Token) :
    Adds (expandFile name ts : CompileM σ (List Token)) := by
  have hend : ∀ us : List Token, Adds (do
      note (.solverCounters (← get).solver.counters)
      note (.fileDone name)
      pure us : CompileM σ (List Token)) := fun us =>
    adds_get.bind fun _ => (adds_note _).bind fun _ => (adds_note _).bind fun _ => adds_pure us
  refine (adds_takeDefinitions ts).bind fun us => (adds_noteStage _ _ _).bind fun _ =>
    adds_get.bind fun c => (adds_expandRounds name _ 0 us).bind fun vs =>
      (adds_note _).bind fun _ => ?_
  exact adds_ite ((adds_note _).bind fun _ => hend vs) (hend vs)

variable [FileStore σ]

theorem adds_expandedTokens (path : Path) :
    Adds (expandedTokens path : CompileM σ (List Token)) := by
  refine (adds_enter adds_includeFile path).bind fun result => ?_
  cases result with
  | none => exact adds_pure _
  | some ts => exact adds_expandFile _ ts

theorem adds_compile (path : Path) : Adds (compile path : CompileM σ String) :=
  (adds_expandedTokens path).bind fun _ => adds_get.bind fun _ => adds_pure _

end Expands

end CompileM

/-- How far the work on a file goes: until its tokens are expanded, or until its includes are
resolved. -/
inductive Mode
  | full
  | includesOnly

namespace CompileM

variable {σ : Type} [FileStore σ] {c : Compilation σ}

def parseFile : Mode → Path → CompileM σ (List Token)
  | .full => expandedTokens
  | .includesOnly => includeFile

theorem adds_parseFile (mode : Mode) (path : Path) :
    Adds (parseFile mode path : CompileM σ (List Token)) := by
  cases mode with
  | full => exact adds_expandedTokens path
  | includesOnly => exact adds_includeFile path

theorem gives_enter_again (follow : Path → CompileM σ (List Token)) {path : Path}
    (hfile : FileStore.isFile c.store path = true) (hseen : c.isIncluded path.baseName = true) :
    Gives (enter follow path) c none (c.noting (.alreadyIncluded path.baseName)) := by
  simp [enter, hfile, hseen]

theorem gives_contribution_again (n : Nat) {path : Path}
    (hfile : FileStore.isFile c.store path = true) (hseen : c.isIncluded path.baseName = true) :
    ∃ log, Gives (contribution n path) c [] { c with log }
      ∧ ({ c with log } : Compilation σ).lexed = c.lexed := by
  cases n with
  | zero => exact ⟨c.log, gives_pure.2 ⟨rfl, rfl⟩, rfl⟩
  | succ n =>
    exact ⟨c.log.push (.alreadyIncluded path.baseName),
      gives_contribution_succ.2 (.inl ⟨gives_enter_again _ hfile hseen, rfl⟩),
      by simp [Compilation.lexed]⟩

theorem gives_parseFile_again (mode : Mode) {path : Path}
    (hfile : FileStore.isFile c.store path = true) (hseen : c.isIncluded path.baseName = true) :
    ∃ log, Gives (parseFile mode path) c [] { c with log } := by
  cases mode with
  | full =>
    refine ⟨c.log.push (.alreadyIncluded path.baseName), gives_bind.2 ?_⟩
    exact ⟨none, _, gives_enter_again includeFile hfile hseen, gives_pure.2 ⟨rfl, rfl⟩⟩
  | includesOnly =>
    obtain ⟨log, hlog, -⟩ :=
      gives_contribution_again (FileStore.nesting c.store path) hfile hseen
    exact ⟨log, gives_bind.2 ⟨c, c, gives_get.2 ⟨rfl, rfl⟩, hlog⟩⟩

end CompileM

/-- What can be asked of a compilation. -/
inductive Operation
  | compile (path : Path)
  | parseFile (mode : Mode) (path : Path)
  | resolveIncludes (ts : List Token)
  | runGenerators (ts : List Token)
  | registerDefinitions (catalog : Catalog) (ts : List Token)
  | expandCalls (catalog : Catalog) (ts : List Token)
  | register (name : String) (body : List Token)
  | solve (x : Float)
  | configure (settings : Settings)

namespace Operation

variable {σ : Type} [FileStore σ]

open CompileM

/-- The work that is asked for. Only what it leaves behind is of interest, not its result. -/
def work : Operation → CompileM σ Unit
  | compile path => do
    let _ ← CompileM.compile path
    return
  | parseFile mode path => do
    let _ ← CompileM.parseFile mode path
    return
  | resolveIncludes ts => do
    let _ ← CompileM.resolveIncludes ts
    return
  | runGenerators ts => do
    let _ ← CompileM.runGenerators ts
    return
  | registerDefinitions catalog ts => do
    let c ← get
    let (registry, result) := HexPatterns.registerDefinitions catalog c.registry ts
    set { c with registry }
    let _ ← MonadExcept.ofExcept result
    return
  | expandCalls catalog ts => do
    let _ ← MonadExcept.ofExcept (HexPatterns.expandCalls catalog (← get).registry ts)
    return
  | register name body => do
    let c ← get
    match c.registry.register name body with
    | .ok registry => set { c with registry }
    | .error f => throw (.unlocated f)
  | solve x => modify fun c => { c with solver := (c.solver.solve x).2 }
  | configure settings => modify fun c => { c with settings }

theorem adds_work : ∀ op : Operation, Adds (op.work : CompileM σ Unit)
  | compile path => (adds_compile path).bind fun _ => adds_pure ()
  | parseFile mode path => (adds_parseFile mode path).bind fun _ => adds_pure ()
  | resolveIncludes ts => (adds_resolveIncludesBy adds_includeFile ts).bind fun _ => adds_pure ()
  | runGenerators ts => (adds_runGenerators ts).bind fun _ => adds_pure ()
  | registerDefinitions catalog ts => fun c => by
    rw [work, ensures_bind, ensures_get]
    dsimp only
    rw [ensures_bind, ensures_set]
    exact ((adds_ofExcept _).bind fun _ => adds_pure ()).after (.registering c catalog ts)
  | expandCalls catalog ts => adds_get.bind fun _ => (adds_ofExcept _).bind fun _ => adds_pure ()
  | register name body => fun c => by
    simp only [work, ensures_bind, ensures_get]
    split
    · rename_i r hr
      rw [ensures_set]
      exact .of_parts (Registry.below_of_register hr) (.refl _) fun _ h => h
    · rw [ensures_throw]
      exact .refl c
  | solve x => fun c => by
    rw [work, ensures_modify]
    exact .of_parts (fun _ _ h => h) (c.solver.grows_solve x) fun _ h => h
  | configure settings => fun c => by
    rw [work, ensures_modify]
    exact .of_parts (fun _ _ h => h) (.refl _) fun _ h => h

end Operation

namespace Compilation

variable {σ : Type} [FileStore σ]

/-- The compilation that operations leave behind, one after the other, failed ones among them. -/
def after (c : Compilation σ) (ops : List Operation) : Compilation σ :=
  ops.foldl (fun c op => (op.work.run.run c).2) c

theorem grows_after : ∀ (ops : List Operation) (c : Compilation σ), c.Grows (c.after ops)
  | [], c => .refl c
  | op :: ops, _ => (op.adds_work.grows_of_run rfl).trans (grows_after ops _)

/-- Whatever operations a compilation goes through, and however each of them ends, all that it knew
it still knows, and its counters have not gone back. A source can only be replaced while its name is
not included, and the name of a source that an operation puts in the catalog is. A file of a name
that was included before gives nothing and changes nothing but the log. -/
theorem after_keeps (c : Compilation σ) (ops : List Operation) :
    (∀ name, c.isIncluded name = true → (c.after ops).isIncluded name = true)
      ∧ (∀ name body, c.registry.lookup name = some body →
          (c.after ops).registry.lookup name = some body)
      ∧ (∀ (origin : String) source, c.isIncluded (Path.baseName ⟨origin⟩) = true →
          c.catalog.sources[origin]? = some source →
            (c.after ops).catalog.sources[origin]? = some source)
      ∧ (∀ (origin : String) source, (c.after ops).catalog.sources[origin]? = some source →
          c.catalog.sources[origin]? = some source
            ∨ (c.after ops).isIncluded (Path.baseName ⟨origin⟩) = true)
      ∧ (∀ (key : Scalar.Key Float) found, c.solver.memo[key]? = some found →
          (c.after ops).solver.memo[key]? = some found)
      ∧ (∀ files, c.library = some files → (c.after ops).library = some files)
      ∧ c.solver.counters.searches ≤ (c.after ops).solver.counters.searches
      ∧ c.solver.counters.cacheHits ≤ (c.after ops).solver.counters.cacheHits
      ∧ c.solver.counters.expansions ≤ (c.after ops).solver.counters.expansions
      ∧ ∀ mode path, FileStore.isFile c.store path = true → c.isIncluded path.baseName = true →
          ∃ log, CompileM.Gives (CompileM.parseFile mode path) c [] { c with log } := by
  have h := grows_after ops c
  exact ⟨h.included, h.registry, h.sources, h.stored, h.solver.memo, h.library, h.solver.searches,
    h.solver.cacheHits, h.solver.expansions,
    fun mode _ hfile hseen => CompileM.gives_parseFile_again mode hfile hseen⟩

/-- With `main` entered, a missing file, a file that asks for `main` again and a number: the text of
`main` stays in its place, and `main` gives nothing more. -/
theorem after_keeps_cyclicFiles :
    let source := SourceText.ofText "main" "#include lib\n#include lib\n!m"
    let c : Compilation FileSet := { new plainSettings (fun _ _ => 0) ⟨""⟩ cyclicFiles with
      included := (∅ : Std.HashSet String).insert "main"
      catalog := Catalog.empty.insert "main" source }
    let ops : List Operation :=
      [.parseFile .full ⟨"nowhere"⟩, .parseFile .includesOnly ⟨"lib"⟩, .solve 3.0]
    c.isIncluded "main" = true ∧ (c.after ops).isIncluded "main" = true
      ∧ c.catalog.sources["main"]? = some source
      ∧ (c.after ops).catalog.sources["main"]? = some source
      ∧ FileStore.isFile c.store ⟨"main"⟩ = true
      ∧ ∃ log, CompileM.Gives (CompileM.parseFile .full ⟨"main"⟩) c [] { c with log } := by
  intro source c ops
  have hbase : (Path.mk "main").baseName = "main" := by decide
  have hseen : c.isIncluded "main" = true := Std.HashSet.contains_insert_self
  have hseen' : c.isIncluded (Path.mk "main").baseName = true := by
    rw [hbase]
    exact hseen
  have hsource : c.catalog.sources["main"]? = some source := Std.HashMap.getElem?_insert_self
  obtain ⟨hincluded, -, hsources, -, -, -, -, -, -, hagain⟩ := after_keeps c ops
  exact ⟨hseen, hincluded _ hseen, hsource, hsources _ _ hseen' hsource, rfl,
    hagain .full ⟨"main"⟩ rfl hseen'⟩

end Compilation

end HexPatterns
