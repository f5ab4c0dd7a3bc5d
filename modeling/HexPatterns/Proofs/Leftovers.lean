import Mathlib
import HexPatterns.Compilation.Compile
import HexPatterns.Proofs.Expansion
import HexPatterns.Proofs.Nesting

/-!
# What is left when a file is expanded

The definition pass takes out the definitions that stand in a file. A definition inside a macro's
body is text of the body until the macro is registered and a token of the body from then on. A call
of the macro puts it among the tokens of the file, where no pass looks for definitions any more. So
expansion that comes to its end leaves literals and just the definitions that calls lead to.
-/

namespace HexPatterns

/-- The tokens that are not definitions. -/
def withoutDefinitions (ts : List Token) : List Token :=
  ts.filter fun t => t.kind ≠ .definition

section Uncovered

variable (r : Registry)

/-- `Uncovers r ts t`: `t` is one of the tokens `ts`, or calls lead from them to a body with it. -/
inductive Uncovers : List Token → Token → Prop
  | here {ts t} : t ∈ ts → Uncovers ts t
  | call {ts body call t} : call ∈ ts → call.kind = .call → r.resolve call.content = some body →
      Uncovers body t → Uncovers ts t

end Uncovered

section Relation

variable {r : Registry} {gen : Token → Token → Prop} {ts out : List Token} {n : Nat} {t : Token}

theorem Uncovers.mono {us : List Token} (h : Uncovers r ts t) (hsub : ts ⊆ us) :
    Uncovers r us t := by
  cases h with
  | here ht => exact .here (hsub ht)
  | call hc hkind hbody h => exact .call (hsub hc) hkind hbody h

theorem uncovers_cons_of_ne_call {u : Token} (hu : u.kind ≠ .call) :
    Uncovers r (u :: ts) t ↔ t = u ∨ Uncovers r ts t := by
  constructor
  · rintro (ht | ⟨hc, hkind, hbody, h⟩)
    · exact (List.mem_cons.1 ht).imp_right .here
    · rcases List.mem_cons.1 hc with rfl | hc
      · exact absurd hkind hu
      · exact .inr (.call hc hkind hbody h)
  · rintro (rfl | h)
    · exact .here List.mem_cons_self
    · exact h.mono (List.subset_cons_self _ _)

theorem uncovers_cons_of_call {u : Token} {body : List Token} (hu : u.kind = .call)
    (hbody : r.resolve u.content = some body) :
    Uncovers r (u :: ts) t ↔ t = u ∨ Uncovers r body t ∨ Uncovers r ts t := by
  constructor
  · rintro (ht | ⟨hc, hkind, hbody', h⟩)
    · exact (List.mem_cons.1 ht).imp_right fun ht => .inr (.here ht)
    · rcases List.mem_cons.1 hc with rfl | hc
      · cases hbody.symm.trans hbody'
        exact .inr (.inl h)
      · exact .inr (.inr (.call hc hkind hbody' h))
  · rintro (rfl | h | h)
    · exact .here List.mem_cons_self
    · exact .call List.mem_cons_self hu hbody h
    · exact h.mono (List.subset_cons_self _ _)

/-- The definitions in an expansion are those that calls lead to. -/
theorem Expansion.mem_iff_uncovers (hgen : ∀ t p, gen t p → p.kind = .literal)
    (h : Expansion r gen ts n out) (ht : t.kind = .definition) : t ∈ out ↔ Uncovers r ts t := by
  induction h with
  | nil =>
    refine ⟨fun h => absurd h List.not_mem_nil, ?_⟩
    rintro (h | ⟨h, -, -, -⟩) <;> exact absurd h List.not_mem_nil
  | self hu _ ih =>
    rw [uncovers_cons_of_ne_call (Token.kind_ne_call hu), List.mem_cons, ih]
  | @generator u p _ _ _ hu hp _ ih =>
    have hkind := Token.kind_of_isGenerator hu
    have hne : t ≠ p := fun h => by rw [h, hgen _ _ hp] at ht; cases ht
    have hne' : t ≠ u := fun h => by rw [h, hkind] at ht; cases ht
    rw [uncovers_cons_of_ne_call (by simp [hkind]), List.mem_cons, ih]
    simp [hne, hne']
  | @call u _ _ _ _ _ _ hu hbody _ _ ihin ih =>
    have hne : t ≠ u := fun h => by rw [h, hu] at ht; cases ht
    rw [uncovers_cons_of_call hu hbody, List.mem_append, ihin, ih]
    simp [hne]

end Relation

section Definitions

variable {catalog : Catalog} {r r' : Registry}

theorem Registry.lookup_of_register {name : String} {body : List Token}
    (h : r.register name body = .ok r') (other : String) :
    r'.lookup other = if name = other then some body else r.lookup other := by
  unfold register at h
  split at h
  · cases h
  · cases h
    simp [lookup, Std.TreeMap.getElem?_insert]

theorem define_eq_ok_iff {t : Token} :
    define catalog r t = .ok r' ↔
      ∃ d body, Definition.ofContent t.content.toList = .ok d
        ∧ Token.scan t.origin (t.position.line + d.skipped) d.body = .ok body
        ∧ r.register d.name body = .ok r' := by
  unfold define readDefinition
  rcases Definition.ofContent t.content.toList with f | d
  · simp [bind, Except.bind, Except.mapError]
  · rcases hscan : (catalog.find t.origin).scan t.origin (t.position.line + d.skipped) d.body
      with f | body
    · have hno : ∀ body, Token.scan t.origin (t.position.line + d.skipped) d.body ≠ .ok body :=
        fun body h => by rw [SourceText.scan_eq_ok_iff.2 h] at hscan; cases hscan
      simp [bind, Except.bind, Except.mapError, hscan, hno]
    · have hbody := SourceText.scan_eq_ok_iff.1 hscan
      cases hreg : r.register d.name body <;>
        simp [bind, Except.bind, pure, Except.pure, Except.mapError, hscan, hbody, hreg]

/-- Every token of a registered body has the property. -/
def Registry.All (r : Registry) (P : Token → Prop) : Prop :=
  ∀ name body, r.lookup name = some body → ∀ t ∈ body, P t

section All

variable {P : Token → Prop}

theorem Registry.all_empty : Registry.empty.All P := by
  intro name body hbody
  simp [lookup, empty] at hbody

theorem Registry.All.define {t : Token} (hr : r.All P)
    (hbody : ∀ d body, Definition.ofContent t.content.toList = .ok d →
      Token.scan t.origin (t.position.line + d.skipped) d.body = .ok body → ∀ u ∈ body, P u)
    (h : define catalog r t = .ok r') : r'.All P := by
  obtain ⟨d, body, hd, hscan, hreg⟩ := define_eq_ok_iff.1 h
  intro name found hfound
  rw [Registry.lookup_of_register hreg] at hfound
  split at hfound
  · cases hfound
    exact hbody d body hd hscan
  · exact hr name found hfound

theorem Registry.All.resolve (hr : r.All P) {call : String} {body : List Token}
    (h : r.resolve call = some body) : ∀ t ∈ body, P t := by
  unfold Registry.resolve at h
  rcases hfirst : r.lookup call with _ | first
  · rw [hfirst] at h
    exact hr _ body h
  · rw [hfirst] at h
    cases h
    exact hr _ _ hfirst

theorem Registry.All.expandCalls (hr : r.All P) : ∀ {ts us : List Token}, (∀ t ∈ ts, P t) →
    expandCalls catalog r ts = .ok us → ∀ u ∈ us, P u
  | [], us, _, h => by
    cases h
    simp
  | t :: ts, us, hts, h => by
    obtain ⟨ht, hts⟩ := List.forall_mem_cons.1 hts
    obtain ⟨here, rest, hhere, hrest, rfl⟩ := expandCalls_cons_eq_ok_iff.1 h
    intro u hu
    rcases List.mem_append.1 hu with hu | hu
    · rcases expandCall_eq_ok_iff.1 hhere with ⟨-, hbody⟩ | ⟨-, rfl⟩
      · exact hr.resolve hbody u hu
      · rw [List.mem_singleton.1 hu]
        exact ht
    · exact Registry.All.expandCalls hr hts hrest u hu

end All

/-- The definition pass takes out the definitions and nothing else. -/
theorem eq_withoutDefinitions_of_registerDefinitions :
    ∀ {ts us : List Token} {r r' : Registry},
      registerDefinitions catalog r ts = (r', .ok us) → us = withoutDefinitions ts
  | [], us, r, r', h => by
    cases h
    rfl
  | t :: ts, us, r, r', h => by
    unfold registerDefinitions at h
    split at h
    · rename_i ht
      split at h
      · rw [eq_withoutDefinitions_of_registerDefinitions h]
        simp [withoutDefinitions, ht]
      · cases h
    · rename_i ht
      rcases hrest : registerDefinitions catalog r ts with ⟨r₁, f | rest⟩
      · simp [hrest, Except.map] at h
      · simp only [hrest, Except.map, Prod.mk.injEq, Except.ok.injEq] at h
        rw [← h.2, eq_withoutDefinitions_of_registerDefinitions hrest]
        simp [withoutDefinitions, ht]

end Definitions

/-- The compilation, once `rounds` rounds at most have led to the tokens `out` of a file. -/
def Compilation.finished {σ : Type} (c : Compilation σ) (name : String) (rounds : Nat)
    (out : List Token) : Compilation σ :=
  let done := c.noting (.roundsDone name)
  let done := if out.any Token.isExpandable then
    done.noting (.stoppedExpanding name rounds (Token.countExpandable out)) else done
  (done.noting (.solverCounters done.solver.counters)).noting (.fileDone name)

/-- Expansion was stopped while something was left to expand. -/
def Compilation.Stopped {σ : Type} (c : Compilation σ) : Prop :=
  ∃ name rounds unresolved, Event.stoppedExpanding name rounds unresolved ∈ c.log

theorem Compilation.isIncluded_new {σ : Type} (settings : Settings) (clock : Nat → Nat → Nat)
    (home : Path) (store : σ) (name : String) :
    (new settings clock home store).isIncluded name = false := by
  simp [isIncluded, new]

section Finished

variable {σ : Type} {c : Compilation σ} {name : String} {rounds : Nat} {out : List Token}

theorem Compilation.finished_registry : (c.finished name rounds out).registry = c.registry := by
  unfold finished
  split <;> rfl

theorem Compilation.stopped_finished (h : out.any Token.isExpandable = true) :
    (c.finished name rounds out).Stopped :=
  ⟨name, rounds, Token.countExpandable out, by simp [finished, h]⟩

end Finished

namespace CompileM

variable {σ : Type} {c c' : Compilation σ} {ts us out : List Token}

@[simp] theorem gives_takeDefinitions :
    Gives (takeDefinitions ts) c us c' ↔
      ∃ r, registerDefinitions c.catalog c.registry ts = (r, .ok us)
        ∧ c' = { c with registry := r } := by
  rcases hreg : registerDefinitions c.catalog c.registry ts with ⟨r, result⟩
  simp [takeDefinitions, hreg]

theorem gives_expandFile {name : String} :
    Gives (expandFile name ts) c out c' ↔
      ∃ r us d, registerDefinitions c.catalog c.registry ts = (r, .ok us)
        ∧ Gives (expandRounds name c.settings.maxIterations 0 us)
          ((Compilation.noting { c with registry := r } (.stageDone .definitions name)).noting
            (.ofTokens name us)) out d
        ∧ c' = d.finished name c.settings.maxIterations out := by
  simp only [expandFile, gives_bind, gives_takeDefinitions, gives_noteStage, gives_get, gives_note,
    gives_ite, gives_pure, exists_and_left, and_assoc, exists_eq_left, exists_const]
  constructor
  · rintro ⟨us, _, ⟨r, hreg, rfl⟩, out', d, hrounds, h⟩
    refine ⟨r, us, hreg, d, ?_⟩
    unfold Compilation.finished
    split at h
    all_goals
      obtain ⟨rfl, rfl⟩ := h
      rename_i hout
      exact ⟨hrounds, by simp only [hout]; rfl⟩
  · rintro ⟨r, us, hreg, d, hrounds, rfl⟩
    refine ⟨us, _, ⟨r, hreg, rfl⟩, out, d, hrounds, ?_⟩
    unfold Compilation.finished
    split
    all_goals exact ⟨rfl, rfl⟩

/-- Expansion that was not stopped leaves literals and the definitions that calls lead to. -/
theorem kinds_of_expandFile {name : String} (h : Gives (expandFile name ts) c out c')
    (hdone : ¬ c'.Stopped) :
    registerDefinitions c.catalog c.registry ts = (c'.registry, .ok (withoutDefinitions ts))
      ∧ (∀ t ∈ out, t.kind = .literal ∨ t.kind = .definition)
      ∧ ∀ t, t.kind = .definition →
        (t ∈ out ↔ Uncovers c'.registry (withoutDefinitions ts) t) := by
  obtain ⟨r, us, d, hreg, hrounds, rfl⟩ := gives_expandFile.1 h
  cases eq_withoutDefinitions_of_registerDefinitions hreg
  have hout : out.any Token.isExpandable = false :=
    Bool.eq_false_iff.2 fun hany => hdone (Compilation.stopped_finished hany)
  obtain ⟨hregistry, hexpansion⟩ := @expansion_of_expandRounds σ (fun _ => True)
    (fun _ p => p.kind = .literal) (fun _ hg => ⟨kind_of_generation hg, trivial⟩) name _ _ _ _ _ _
    hrounds trivial
  obtain ⟨m, hm⟩ := hexpansion hout
  have hr : d.registry = r := hregistry
  rw [Compilation.finished_registry, hr]
  refine ⟨hreg, fun t ht => ?_, fun t ht => hm.mem_iff_uncovers (fun _ _ hp => hp) ht⟩
  exact Token.isExpandable_eq_false_iff.1 (by simpa using List.any_eq_false.1 hout t ht)

variable [FileStore σ]

theorem kept_includeFile {path : Path} (h : Gives (includeFile path) c out c') : c.Kept c' :=
  kept_contribution (gives_includeFile.1 h)

theorem gives_expandedTokens_of_new {path : Path} (hnew : c.isIncluded path.baseName = false) :
    Gives (expandedTokens path) c out c' ↔
      ∃ ts d, Gives (enter includeFile path) c (some ts) d
        ∧ Gives (expandFile path.baseName ts) d out c' := by
  simp only [expandedTokens, gives_bind]
  constructor
  · rintro ⟨_ | ts, d, henter, h⟩
    · have hnone := (gives_enter.1 henter).2
      simp [hnew] at hnone
    · exact ⟨ts, d, henter, h⟩
  · rintro ⟨ts, d, henter, h⟩
    exact ⟨some ts, d, henter, h⟩

section Plain

theorem gives_resolveIncludesBy_of_own {follow : Path → CompileM σ (List Token)} :
    ∀ {ts : List Token} {c : Compilation σ}, (∀ t ∈ ts, t.isInclude = false) →
      Gives (resolveIncludesBy follow ts) c ts c
  | [], c, _ => by simp [resolveIncludesBy]
  | t :: ts, c, h => by
    obtain ⟨ht, hts⟩ := List.forall_mem_cons.1 h
    exact gives_resolveIncludesBy_cons.2
      ⟨[t], ts, c, by simp [ht], gives_resolveIncludesBy_of_own hts, rfl⟩

theorem gives_enter_of_read (follow : Path → CompileM σ (List Token)) {path : Path} {text : String}
    (hstd : c.settings.includeStd = false) (hfile : FileStore.isFile c.store path = true)
    (hnew : c.isIncluded path.baseName = false) (htext : FileStore.read c.store path = .ok text)
    (hscan : Token.scan path.text 0 text.toList = .ok ts)
    (hown : ∀ t ∈ ts, t.isInclude = false) :
    Gives (enter follow path) c (some ts)
      (((c.entered path.baseName (c.catalog.insert path.text (.ofText path.baseName text))
        ts).noting (.stageDone .includes path.baseName)).noting (.ofTokens path.baseName ts)) := by
  refine gives_enter.2 ⟨hfile, ?_⟩
  rw [if_neg (by simp [hnew])]
  exact ⟨ts, _, ts, _, gives_tokensOf_of_read path.baseName hstd htext hscan,
    gives_resolveIncludesBy_of_own hown, rfl, rfl⟩

theorem gives_enter_of_own (follow : Path → CompileM σ (List Token)) {path : Path}
    (hstd : c.settings.includeStd = false) (hfile : FileStore.isFile c.store path = true)
    (hnew : c.isIncluded path.baseName = false) (hlex : Lexes c.store path ts)
    (hown : ∀ t ∈ ts, t.isInclude = false) :
    ∃ catalog, Gives (enter follow path) c (some ts)
      (((c.entered path.baseName catalog ts).noting (.stageDone .includes path.baseName)).noting
        (.ofTokens path.baseName ts)) := by
  obtain ⟨text, htext, hscan⟩ := hlex
  exact ⟨_, gives_enter_of_read follow hstd hfile hnew htext hscan hown⟩

theorem gives_runGenerators_of_done {σ : Type} :
    ∀ {ts : List Token} {c : Compilation σ}, ts.any Token.isExpandable = false →
      Gives (runGenerators ts) c ts c
  | [], c, _ => by simp [runGenerators]
  | t :: ts, c, h => by
    rw [List.any_cons, Bool.or_eq_false_iff] at h
    refine gives_runGenerators_cons_of_not (Bool.eq_false_iff.2 fun ht => ?_)
      (gives_runGenerators_of_done h.2)
    rw [Token.isExpandable_of_isGenerator ht] at h
    cases h.1

/-- A file without includes, whose calls one round replaces by tokens that stand for themselves. -/
theorem exists_gives_expandedTokens (settings : Settings) (clock : Nat → Nat → Nat) (home : Path)
    (store : σ) (path : Path) {r : Registry} (hstd : settings.includeStd = false)
    (hrounds : 0 < settings.maxIterations) (hfile : FileStore.isFile store path = true)
    (hlex : Lexes store path ts) (hown : ∀ t ∈ ts, t.isInclude = false)
    (hreg : ∀ catalog, registerDefinitions catalog .empty ts = (r, .ok us))
    (hcalls : ∀ catalog, expandCalls catalog r us = .ok out)
    (hus : us.any Token.isExpandable = true) (hout : out.any Token.isExpandable = false) :
    ∃ c', Gives (expandedTokens path) (Compilation.new settings clock home store) out c'
      ∧ ¬ c'.Stopped := by
  obtain ⟨d, henter, hempty, hsettings, hlog⟩ : ∃ d,
      Gives (enter includeFile path) (Compilation.new settings clock home store) (some ts) d
        ∧ d.registry = .empty ∧ d.settings = settings ∧ ¬ d.Stopped := by
    obtain ⟨catalog, henter⟩ := gives_enter_of_own includeFile
      (c := Compilation.new settings clock home store) hstd hfile (Compilation.isIncluded_new ..)
      hlex hown
    exact ⟨_, henter, rfl, rfl, by
      simp [Compilation.Stopped, Compilation.entered, Compilation.new, Event.ofTokens]⟩
  obtain ⟨n, hn⟩ := Nat.exists_eq_add_one.2 hrounds
  have hround : ∀ e : Compilation σ, e.registry = r →
      Gives (expandRounds path.baseName d.settings.maxIterations 0 us) e out
        ((e.noting (.roundStarted 1 path.baseName)).noting (.ofTokens path.baseName out)) := by
    intro e he
    rw [hsettings, hn, gives_expandRounds_succ, if_pos hus]
    exact ⟨out, out, _, he ▸ hcalls _, gives_runGenerators_of_done hout,
      gives_expandRounds_of_done hout⟩
  refine ⟨_, (gives_expandedTokens_of_new (Compilation.isIncluded_new ..)).2 ⟨ts, d, henter,
    gives_expandFile.2 ⟨r, us, _, hempty ▸ hreg _, hround _ rfl, rfl⟩⟩, ?_⟩
  simpa [Compilation.Stopped, Compilation.finished, hout, Event.ofTokens] using hlog

end Plain

/-- In a new compilation, a file expands to literals and definitions only, unless expansion was
stopped. The definitions are those in the bodies of macros that calls lead to, from the tokens of
the file on, includes resolved and definitions taken out. So only literals are left just if calls
lead to no definition. -/
theorem expandedTokens_leaves (settings : Settings) (clock : Nat → Nat → Nat) (home : Path)
    (store : σ) (path : Path) (out : List Token) (c' : Compilation σ)
    (h : Gives (expandedTokens path) (Compilation.new settings clock home store) out c')
    (hdone : ¬ c'.Stopped) :
    ∃ ts d, Gives (enter includeFile path) (Compilation.new settings clock home store) (some ts) d
      ∧ registerDefinitions d.catalog .empty ts = (c'.registry, .ok (withoutDefinitions ts))
      ∧ (∀ t ∈ out, t.kind = .literal ∨ t.kind = .definition)
      ∧ (∀ t, t.kind = .definition →
        (t ∈ out ↔ Uncovers c'.registry (withoutDefinitions ts) t))
      ∧ ((∀ t ∈ out, t.kind = .literal) ↔
        ∀ t, Uncovers c'.registry (withoutDefinitions ts) t → t.kind ≠ .definition) := by
  obtain ⟨ts, d, henter, hfile⟩ := (gives_expandedTokens_of_new (Compilation.isIncluded_new ..)).1 h
  have hempty : d.registry = .empty := (kept_enter kept_includeFile henter).registry
  obtain ⟨hreg, hkinds, hleft⟩ := kinds_of_expandFile hfile hdone
  refine ⟨ts, d, henter, hempty ▸ hreg, hkinds, hleft, ?_⟩
  constructor
  · intro hall t ht hkind
    have hliteral := hall t ((hleft t hkind).2 ht)
    rw [hkind] at hliteral
    cases hliteral
  · intro hno t ht
    exact (hkinds t ht).resolve_right fun hkind => hno t ((hleft t hkind).1 ht) hkind

end CompileM

section Nested

open CompileM

/-- The settings without the library. -/
def plainSettings : Settings :=
  { Settings.default with includeStd := false }

/-- The definition of the macro `m`, which has a definition in its body. -/
def outerDefinition : Token :=
  ⟨.definition, ⟨0, 0⟩, "\"m\" <\"n\" !a>", "main.macrohex"⟩

/-- The definition in the body of `m`. -/
def innerDefinition : Token :=
  ⟨.definition, ⟨0, 0⟩, "\"n\" !a", "main.macrohex"⟩

/-- The registry that holds the macro `m`. -/
def outerMacro : Registry :=
  ⟨(∅ : Std.TreeMap String (List Token) compare).insert "m" [innerDefinition]⟩

theorem define_outerDefinition (catalog : Catalog) :
    define catalog .empty outerDefinition = .ok outerMacro :=
  define_eq_ok_iff.2 ⟨⟨"m", "<\"n\" !a>".toList, 0⟩, _, by cbv, by cbv, rfl⟩

/-- A file that does not call `m`, but another macro. -/
def hiddenDefinition : FileSet :=
  ⟨[(⟨"main.macrohex"⟩, "<\"m\" <\"n\" !a>>\n<\"k\" !b>\nk")]⟩

theorem expandedTokens_leaves_hiddenDefinition :
    let literal : Token := ⟨.literal, ⟨1, 0⟩, "b", "main.macrohex"⟩
    let c := Compilation.new plainSettings (fun _ _ => 0) ⟨""⟩ hiddenDefinition
    ∃ c', Gives (expandedTokens ⟨"main.macrohex"⟩) c [literal] c' ∧ ¬ c'.Stopped
      ∧ ∃ ts d, Gives (enter includeFile ⟨"main.macrohex"⟩) c (some ts) d
        ∧ ∀ t, Uncovers c'.registry (withoutDefinitions ts) t → t.kind ≠ .definition := by
  intro literal c
  let k : Token := ⟨.definition, ⟨1, 0⟩, "\"k\" !b", "main.macrohex"⟩
  let call : Token := ⟨.call, ⟨2, 0⟩, "k", "main.macrohex"⟩
  let r : Registry := ⟨outerMacro.bodies.insert "k" [literal]⟩
  have hk : ∀ catalog, define catalog outerMacro k = .ok r := fun _ =>
    define_eq_ok_iff.2 ⟨⟨"k", "!b".toList, 0⟩, _, by cbv, by cbv, rfl⟩
  have hreg : ∀ catalog,
      registerDefinitions catalog .empty [outerDefinition, k, call] = (r, .ok [call]) := by
    intro catalog
    have hkind : outerDefinition.kind = .definition := rfl
    simp [registerDefinitions, hkind, define_outerDefinition, k, hk, call, Except.map]
  have hbody : r.resolve "k" = some [literal] := by rfl
  have hcalls : ∀ catalog, expandCalls catalog r [call] = .ok [literal] := fun catalog =>
    expandCalls_cons_eq_ok_iff.2
      ⟨[literal], [], expandCall_eq_ok_iff.2 (.inl ⟨rfl, hbody⟩), rfl, rfl⟩
  obtain ⟨c', hgives, hdone⟩ := exists_gives_expandedTokens plainSettings
    (fun _ _ => 0) ⟨""⟩ hiddenDefinition ⟨"main.macrohex"⟩ rfl (by decide) rfl ⟨_, rfl, by cbv⟩
    (by decide) hreg hcalls rfl rfl
  obtain ⟨ts, d, henter, -, -, -, hiff⟩ :=
    expandedTokens_leaves plainSettings _ _ hiddenDefinition _ _ _ hgives hdone
  exact ⟨c', hgives, hdone, ts, d, henter, hiff.1 (by simp [literal])⟩

/-- A file that calls `m`. -/
def nestedDefinition : FileSet :=
  ⟨[(⟨"main.macrohex"⟩, "<\"m\" <\"n\" !a>>\nm")]⟩

/-- The definition in the body of a macro that is called is left, and written out. -/
theorem nestedDefinition_survives :
    innerDefinition.kind = .definition ∧ render .rawhex [innerDefinition] = "\"n\" !a"
      ∧ ∃ c', Gives (expandedTokens ⟨"main.macrohex"⟩)
          (Compilation.new plainSettings (fun _ _ => 0) ⟨""⟩ nestedDefinition) [innerDefinition] c'
        ∧ ¬ c'.Stopped := by
  let call : Token := ⟨.call, ⟨1, 0⟩, "m", "main.macrohex"⟩
  have hreg : ∀ catalog,
      registerDefinitions catalog .empty [outerDefinition, call] = (outerMacro, .ok [call]) := by
    intro catalog
    have hkind : outerDefinition.kind = .definition := rfl
    simp [registerDefinitions, hkind, define_outerDefinition, call, Except.map]
  have hbody : outerMacro.resolve "m" = some [innerDefinition] := by rfl
  have hcalls : ∀ catalog, expandCalls catalog outerMacro [call] = .ok [innerDefinition] :=
    fun catalog => expandCalls_cons_eq_ok_iff.2
      ⟨[innerDefinition], [], expandCall_eq_ok_iff.2 (.inl ⟨rfl, hbody⟩), rfl, rfl⟩
  obtain ⟨c', hgives, hdone⟩ := exists_gives_expandedTokens plainSettings
    (fun _ _ => 0) ⟨""⟩ nestedDefinition ⟨"main.macrohex"⟩ rfl (by decide) rfl ⟨_, rfl, by cbv⟩
    (by decide) hreg hcalls rfl rfl
  exact ⟨rfl, by cbv, c', hgives, hdone⟩

end Nested

end HexPatterns
