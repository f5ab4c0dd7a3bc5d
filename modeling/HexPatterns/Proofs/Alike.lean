import Mathlib
import HexPatterns.Proofs.Leftovers

/-!
# Compilations side by side

Where a token was read matters to what a diagnostic shows and to nothing else. Tokens are alike if
they have the same kind and the same content. A text has alike tokens wherever it is read
(`Token.scan_alike`), and on alike tokens the passes go the same way: they end with alike tokens, or
they fail with the same fault (`CompileM.inStep_expandFile`). As long as time does not run out this
does not depend on what the solvers were asked before.
-/

namespace HexPatterns

section EndAlike

variable {ε φ α β γ δ : Type}

/-- Both results are values, which `R` relates, or both are errors, which `F` relates. -/
inductive EndAlike (F : ε → φ → Prop) (R : α → β → Prop) : Except ε α → Except φ β → Prop
  | ok {a b} : R a b → EndAlike F R (.ok a) (.ok b)
  | error {e f} : F e f → EndAlike F R (.error e) (.error f)

namespace EndAlike

variable {F : ε → φ → Prop} {R : α → β → Prop} {S : γ → δ → Prop} {x : Except ε α}
  {y : Except φ β}

theorem bind {f : α → Except ε γ} {g : β → Except φ δ} (h : EndAlike F R x y)
    (hnext : ∀ a b, R a b → EndAlike F S (f a) (g b)) : EndAlike F S (x >>= f) (y >>= g) := by
  cases h with
  | ok hab => exact hnext _ _ hab
  | error hef => exact .error hef

theorem map {f : α → γ} {g : β → δ} (h : EndAlike F R x y)
    (hfg : ∀ a b, R a b → S (f a) (g b)) : EndAlike F S (x.map f) (y.map g) := by
  cases h with
  | ok hab => exact .ok (hfg _ _ hab)
  | error hef => exact .error hef

theorem mapError {ε' φ' : Type} {F' : ε' → φ' → Prop} {f : ε → ε'} {g : φ → φ'}
    (h : EndAlike F R x y) (hfg : ∀ e e', F e e' → F' (f e) (g e')) :
    EndAlike F' R (x.mapError f) (y.mapError g) := by
  cases h with
  | ok hab => exact .ok hab
  | error hef => exact .error (hfg _ _ hef)

end EndAlike

end EndAlike

namespace Token

/-- The tokens ask for the same. -/
structure Alike (t u : Token) : Prop where
  kind : t.kind = u.kind
  content : t.content = u.content

theorem Alike.refl (t : Token) : t.Alike t :=
  ⟨rfl, rfl⟩

variable {origin origin' : String} {n n' column column' : Nat} {cs : List Char}

/-- The definition, as if it had been opened elsewhere. -/
def Opening.move (p : Position) (o : Opening) : Opening :=
  { o with position := p }

/-- The definitions have been opened at any two places and were read alike since. -/
def Opening.Alike (o o' : Opening) : Prop :=
  ∃ p, o' = o.move p

theorem Opening.readLine_move (p : Position) (o : Opening) (cs : List Char) :
    (o.move p).readLine cs = (o.readLine cs).map (·.move p) id := by
  fun_induction readLine o cs with
  | case1 o => rfl
  | case2 o cs ih => exact ih
  | case3 o cs hinner => simp [readLine, move, hinner]
  | case4 o cs n hinner ih =>
    rw [readLine]
    simp only [move, hinner]
    exact ih
  | case5 o c cs hopen hclose ih =>
    rw [readLine]
    · exact ih
    · exact hopen
    · exact hclose

/-- Two lines leave alike tokens and alike definitions behind. -/
def Yield.Alike (y z : Yield) : Prop :=
  Option.Rel Token.Alike y.1 z.1 ∧ Option.Rel Opening.Alike y.2 z.2

theorem scanInside_alike {o o' : Opening} (h : o.Alike o') :
    Yield.Alike (scanInside origin o cs) (scanInside origin' o' cs) := by
  obtain ⟨p, rfl⟩ := h
  unfold scanInside
  rw [Opening.readLine_move]
  rcases o.readLine cs with left | content
  · exact ⟨.none, .some ⟨p, rfl⟩⟩
  · exact ⟨.some ⟨rfl, rfl⟩, .none⟩

theorem scanMarked_alike (kind : Kind) (marker : Char) (p p' : Position) :
    EndAlike (fun e f => e.fault = f.fault) Yield.Alike (scanMarked origin kind marker p cs)
      (scanMarked origin' kind marker p' cs) := by
  unfold scanMarked
  split
  · exact .error rfl
  · exact .ok ⟨.some ⟨rfl, rfl⟩, .none⟩

theorem scanOutside_alike :
    EndAlike (fun e f => e.fault = f.fault) Yield.Alike (scanOutside origin n column cs)
      (scanOutside origin' n' column' cs) := by
  fun_induction scanOutside origin n column cs generalizing column' with
  | case1 column => exact .ok ⟨.none, .none⟩
  | case2 column cs ih => exact ih
  | case3 column cs ih => exact ih
  | case4 column cs => exact scanMarked_alike ..
  | case5 column cs => exact scanMarked_alike ..
  | case6 column cs => exact .ok (scanInside_alike ⟨_, rfl⟩)
  | case7 column cs hnil hspace htab hhash hbang hopen =>
    rw [scanOutside]
    · exact .ok ⟨.some ⟨rfl, rfl⟩, .none⟩
    all_goals assumption

theorem scanLine_alike {o? o?' : Option Opening} (h : Option.Rel Opening.Alike o? o?') :
    EndAlike (fun e f => e.fault = f.fault) Yield.Alike (scanLine origin n o? cs)
      (scanLine origin' n' o?' cs) := by
  cases h with
  | none =>
    simp only [scanLine]
    split
    · exact .ok ⟨.none, .none⟩
    · exact scanOutside_alike
  | some ho =>
    simp only [scanLine]
    split
    · obtain ⟨p, rfl⟩ := ho
      exact .ok ⟨.none, .some ⟨p, rfl⟩⟩
    · exact .ok (scanInside_alike ho)

theorem toList_alike {t? u? : Option Token} (h : Option.Rel Alike t? u?) :
    List.Forall₂ Alike t?.toList u?.toList := by
  cases h with
  | none => exact .nil
  | some htu => exact .cons htu .nil

theorem scanLines_alike : ∀ {lines : List (List Char)} {n n' : Nat} {o? o?' : Option Opening},
    Option.Rel Opening.Alike o? o?' →
      EndAlike (fun e f => e.fault = f.fault) (List.Forall₂ Alike)
        (scanLines origin n o? lines) (scanLines origin' n' o?' lines)
  | [], n, n', _, _, .none => .ok .nil
  | [], n, n', _, _, .some _ => .error rfl
  | cs :: rest, n, n', o?, o?', h => by
    rw [scanLines, scanLines]
    refine (scanLine_alike h).bind ?_
    rintro ⟨t?, p?⟩ ⟨u?, q?⟩ ⟨ht, hp⟩
    refine (scanLines_alike hp).bind fun ts us hts => ?_
    exact .ok (List.rel_append (toList_alike ht) hts)

/-- A text has the same tokens wherever it is read, or it has none for the same fault. -/
theorem scan_alike (text : List Char) :
    EndAlike (fun e f => e.fault = f.fault) (List.Forall₂ Alike) (scan origin n text)
      (scan origin' n' text) :=
  scanLines_alike .none

theorem Alike.isInclude_eq {t u : Token} (h : t.Alike u) : t.isInclude = u.isInclude := by
  rw [isInclude, isInclude, h.kind, h.content]

theorem Alike.isGenerator_eq {t u : Token} (h : t.Alike u) : t.isGenerator = u.isGenerator := by
  rw [isGenerator, isGenerator, h.kind, h.content]

theorem any_isExpandable_eq {ts us : List Token} (h : List.Forall₂ Alike ts us) :
    ts.any isExpandable = us.any isExpandable := by
  induction h with
  | nil => rfl
  | cons ht _ ih => rw [List.any_cons, List.any_cons, ih, isExpandable, isExpandable, ht.kind]

end Token

/-- Alike tokens are written out alike. -/
theorem render_eq {ts us : List Token} (h : List.Forall₂ Token.Alike ts us)
    (format : OutputFormat) : render format ts = render format us := by
  unfold render
  congr 1
  induction h with
  | nil => rfl
  | cons ht _ ih => rw [List.map_cons, List.map_cons, ih, Token.trimmed, Token.trimmed, ht.content]

section Passes

variable {k k' : Catalog} {r r' : Registry} {t u : Token}

/-- The registries have alike bodies under the same names. -/
def Registry.Alike (r r' : Registry) : Prop :=
  ∀ name, Option.Rel (List.Forall₂ Token.Alike) (r.lookup name) (r'.lookup name)

/-- The diagnostics have the same fault, each in a place of its own. -/
def Diagnostic.Alike (d d' : Diagnostic) : Prop :=
  d.fault = d'.fault

theorem Registry.lookup_empty (name : String) : Registry.empty.lookup name = none := by
  simp [lookup, empty]

theorem Registry.empty_alike : Registry.Alike .empty .empty := by
  intro name
  rw [lookup_empty]
  exact .none

theorem Registry.contains_eq_isSome_lookup (r : Registry) (name : String) :
    r.contains name = (r.lookup name).isSome :=
  Std.TreeMap.contains_eq_isSome_getElem?

theorem Registry.register_of_lookup {name : String} (body : List Token)
    (h : r.lookup name = none) : ∃ r', r.register name body = .ok r'
      ∧ ∀ other, r'.lookup other = if name = other then some body else r.lookup other := by
  have hregister : r.register name body = .ok ⟨r.bodies.insert name body⟩ := by
    rw [register, if_neg]
    simp [contains_eq_isSome_lookup, h]
  exact ⟨_, hregister, lookup_of_register hregister⟩

theorem Registry.register_of_lookup_ne {name : String} (body : List Token)
    (h : r.lookup name ≠ none) : r.register name body = .error (.duplicateMacro name) := by
  rw [register, if_pos]
  rwa [contains_eq_isSome_lookup, Option.isSome_iff_ne_none]

theorem Registry.Alike.register (h : r.Alike r') (name : String) {body body' : List Token}
    (hbody : List.Forall₂ Token.Alike body body') :
    EndAlike Eq Registry.Alike (r.register name body) (r'.register name body') := by
  have hcontains : r.contains name = r'.contains name := by
    have hname := h name
    rw [contains_eq_isSome_lookup, contains_eq_isSome_lookup]
    generalize r.lookup name = x at hname ⊢
    generalize r'.lookup name = y at hname ⊢
    cases hname <;> rfl
  by_cases hold : r.contains name = true
  · have hold' : r'.contains name = true := hcontains ▸ hold
    rw [Registry.register, Registry.register, if_pos hold, if_pos hold']
    exact .error rfl
  · have hok : ∀ {q : Registry} {b : List Token}, ¬ q.contains name = true →
        q.register name b = .ok ⟨q.bodies.insert name b⟩ := fun hq => if_neg hq
    have hnew : ¬ r'.contains name = true := hcontains ▸ hold
    rw [hok hold, hok hnew]
    refine .ok fun other => ?_
    rw [lookup_of_register (hok hold), lookup_of_register (hok hnew)]
    split
    · exact .some hbody
    · exact h other

theorem Registry.Alike.resolve (h : r.Alike r') (call : String) :
    Option.Rel (List.Forall₂ Token.Alike) (r.resolve call) (r'.resolve call) := by
  unfold Registry.resolve
  rcases hr : r.lookup call with _ | body <;> rcases hr' : r'.lookup call with _ | body'
  · exact h _
  all_goals
    have hcall := h call
    rw [hr, hr'] at hcall
    cases hcall
  exact .some ‹_›

theorem readDefinition_alike (h : t.Alike u) :
    EndAlike Diagnostic.Alike (fun a b => a.1 = b.1 ∧ List.Forall₂ Token.Alike a.2 b.2)
      (readDefinition k t) (readDefinition k' u) := by
  unfold readDefinition
  simp only [h.content]
  rcases Definition.ofContent u.content.toList with f | d
  · exact .error rfl
  · refine EndAlike.bind (R := List.Forall₂ Token.Alike) ((Token.scan_alike d.body).mapError
      fun e f hef => hef) fun body body' hbody => ?_
    exact .ok ⟨rfl, hbody⟩

theorem define_alike (hr : r.Alike r') (h : t.Alike u) :
    EndAlike Diagnostic.Alike Registry.Alike (define k r t) (define k' r' u) := by
  unfold define
  refine (readDefinition_alike h).bind ?_
  rintro ⟨name, body⟩ ⟨_, body'⟩ ⟨rfl, hbody⟩
  exact (hr.register name hbody).mapError fun e f hef => hef

theorem registerDefinitions_alike {ts us : List Token} (h : List.Forall₂ Token.Alike ts us) :
    ∀ {r r' : Registry}, r.Alike r' →
      (registerDefinitions k r ts).1.Alike (registerDefinitions k' r' us).1
        ∧ EndAlike Diagnostic.Alike (List.Forall₂ Token.Alike) (registerDefinitions k r ts).2
          (registerDefinitions k' r' us).2 := by
  induction h with
  | nil => exact fun hr => ⟨hr, .ok .nil⟩
  | @cons t u ts us ht _ ih =>
    intro r r' hr
    by_cases hkind : t.kind = .definition
    · have hkind' : u.kind = .definition := ht.kind ▸ hkind
      rw [registerDefinitions, registerDefinitions, if_pos hkind, if_pos hkind']
      have hdef : EndAlike Diagnostic.Alike Registry.Alike (define k r t) (define k' r' u) :=
        define_alike hr ht
      generalize define k r t = x at hdef ⊢
      generalize define k' r' u = y at hdef ⊢
      cases hdef with
      | ok hr => exact ih hr
      | error hfault => exact ⟨hr, .error hfault⟩
    · have hkind' : u.kind ≠ .definition := ht.kind ▸ hkind
      rw [registerDefinitions, registerDefinitions, if_neg hkind, if_neg hkind']
      obtain ⟨hr, hrest⟩ := ih hr
      exact ⟨hr, hrest.map fun _ _ hts => .cons ht hts⟩

theorem expandCall_alike (hr : r.Alike r') (h : t.Alike u) :
    EndAlike Diagnostic.Alike (List.Forall₂ Token.Alike) (expandCall k r t)
      (expandCall k' r' u) := by
  unfold expandCall
  rw [h.kind, h.content]
  split
  · have hbody := hr.resolve u.content
    generalize r.resolve u.content = x at hbody ⊢
    generalize r'.resolve u.content = y at hbody ⊢
    cases hbody with
    | none => exact .error rfl
    | some hbody => exact .ok hbody
  · exact .ok (.cons h .nil)

theorem expandCalls_alike (hr : r.Alike r') {ts us : List Token}
    (h : List.Forall₂ Token.Alike ts us) :
    EndAlike Diagnostic.Alike (List.Forall₂ Token.Alike) (expandCalls k r ts)
      (expandCalls k' r' us) := by
  induction h with
  | nil => exact .ok .nil
  | cons ht _ ih =>
    rw [expandCalls, expandCalls]
    refine (expandCall_alike hr ht).bind fun here here' hhere => ih.bind fun rest rest' hrest => ?_
    exact .ok (List.rel_append hhere hrest)

theorem generated_alike (limits : Synthesis.Limits Float) (h : t.Alike u) :
    EndAlike Eq Token.Alike (t.generated limits) (u.generated limits) := by
  have hread : readGenerator t = readGenerator u := by
    unfold readGenerator
    rw [h.content]
  unfold Token.generated
  rw [hread]
  rcases readGenerator u with f | ⟨g, args⟩
  · exact .error rfl
  · rcases hx : g.readNumber args with f | x
    · simp only [bind, Except.bind, hx]
      exact .error rfl
    · simp only [bind, Except.bind, hx]
      exact .ok ⟨rfl, rfl⟩

end Passes

namespace CompileM

variable {σ τ α β γ δ : Type}

/-- Two pieces of work, each begun at a compilation of its own, both give results, and `R` relates
these and the compilations left behind; or both fail with the same fault. -/
def InStep (R : α → Compilation σ → β → Compilation τ → Prop) (x : CompileM σ α)
    (c : Compilation σ) (y : CompileM τ β) (d : Compilation τ) : Prop :=
  (∃ a c' b d', Gives x c a c' ∧ Gives y d b d' ∧ R a c' b d')
  ∨ ∃ e c' f d', Fails x c e c' ∧ Fails y d f d' ∧ e.Alike f

section InStep

variable {R : α → Compilation σ → β → Compilation τ → Prop}
  {S : γ → Compilation σ → δ → Compilation τ → Prop} {c : Compilation σ} {d : Compilation τ}

theorem InStep.bind {x : CompileM σ α} {y : CompileM τ β} {f : α → CompileM σ γ}
    {g : β → CompileM τ δ} (h : InStep R x c y d)
    (hnext : ∀ a c' b d', R a c' b d' → InStep S (f a) c' (g b) d') :
    InStep S (x >>= f) c (y >>= g) d := by
  rcases h with ⟨a, c', b, d', hx, hy, hR⟩ | ⟨e, c', e', d', hx, hy, hfault⟩
  · rcases hnext a c' b d' hR with
      ⟨a', c'', b', d'', hf, hg, hS⟩ | ⟨e, c'', e', d'', hf, hg, hfault⟩
    · exact .inl ⟨a', c'', b', d'', gives_bind.2 ⟨a, c', hx, hf⟩, gives_bind.2 ⟨b, d', hy, hg⟩, hS⟩
    · exact .inr ⟨e, c'', e', d'', fails_bind.2 (.inr ⟨a, c', hx, hf⟩),
        fails_bind.2 (.inr ⟨b, d', hy, hg⟩), hfault⟩
  · exact .inr ⟨e, c', e', d', fails_bind.2 (.inl hx), fails_bind.2 (.inl hy), hfault⟩

theorem InStep.of_gives {x : CompileM σ α} {y : CompileM τ β} {a : α} {b : β}
    {c' : Compilation σ} {d' : Compilation τ} (hx : Gives x c a c') (hy : Gives y d b d')
    (hR : R a c' b d') : InStep R x c y d :=
  .inl ⟨a, c', b, d', hx, hy, hR⟩

theorem InStep.of_run {x x' : CompileM σ α} {y y' : CompileM τ β} {c' : Compilation σ}
    {d' : Compilation τ} (hx : x.run.run c = x'.run.run c') (hy : y.run.run d = y'.run.run d')
    (h : InStep R x' c' y' d') : InStep R x c y d := by
  unfold InStep Gives Fails at h ⊢
  rw [hx, hy]
  exact h

theorem InStep.mono {S : α → Compilation σ → β → Compilation τ → Prop} {x : CompileM σ α}
    {y : CompileM τ β} (h : InStep R x c y d) (hRS : ∀ a c' b d', R a c' b d' → S a c' b d') :
    InStep S x c y d := by
  rcases h with ⟨a, c', b, d', hx, hy, hR⟩ | hfails
  · exact .inl ⟨a, c', b, d', hx, hy, hRS a c' b d' hR⟩
  · exact .inr hfails

theorem InStep.of_pure {a : α} {b : β} (hR : R a c b d) : InStep R (pure a) c (pure b) d :=
  .of_gives (gives_pure.2 ⟨rfl, rfl⟩) (gives_pure.2 ⟨rfl, rfl⟩) hR

/-- First steps that give results need not be alike. -/
theorem InStep.after {x : CompileM σ α} {y : CompileM τ β} {f : α → CompileM σ γ}
    {g : β → CompileM τ δ} {a : α} {b : β} {c' : Compilation σ} {d' : Compilation τ}
    (hx : Gives x c a c') (hy : Gives y d b d') (hnext : InStep S (f a) c' (g b) d') :
    InStep S (x >>= f) c (y >>= g) d := by
  refine InStep.bind (R := fun a₁ c₁ b₁ d₁ => a₁ = a ∧ c₁ = c' ∧ b₁ = b ∧ d₁ = d')
    (.of_gives hx hy ⟨rfl, rfl, rfl, rfl⟩) ?_
  rintro _ _ _ _ ⟨rfl, rfl, rfl, rfl⟩
  exact hnext

theorem InStep.after_note {f : Unit → CompileM σ γ} {g : Unit → CompileM τ δ} {e e' : Event}
    (hnext : InStep S (f ()) (c.noting e) (g ()) (d.noting e')) :
    InStep S (note e >>= f) c (note e' >>= g) d :=
  .after (gives_note.2 rfl) (gives_note.2 rfl) hnext

theorem InStep.after_noteStage {f : Unit → CompileM σ γ} {g : Unit → CompileM τ δ} {stage : Stage}
    {name name' : String} {ts us : List Token}
    (hnext : InStep S (f ()) ((c.noting (.stageDone stage name)).noting (.ofTokens name ts))
      (g ()) ((d.noting (.stageDone stage name')).noting (.ofTokens name' us))) :
    InStep S (noteStage stage name ts >>= f) c (noteStage stage name' us >>= g) d :=
  .after (gives_noteStage.2 rfl) (gives_noteStage.2 rfl) hnext

theorem InStep.after_get {f : Compilation σ → CompileM σ γ} {g : Compilation τ → CompileM τ δ}
    (hnext : InStep S (f c) c (g d) d) : InStep S (get >>= f) c (get >>= g) d :=
  .after (gives_get.2 ⟨rfl, rfl⟩) (gives_get.2 ⟨rfl, rfl⟩) hnext

theorem InStep.ofExcept {V : α → β → Prop} {x : Except Diagnostic α} {y : Except Diagnostic β}
    (h : EndAlike Diagnostic.Alike V x y) (hR : ∀ a b, V a b → R a c b d) :
    InStep R (MonadExcept.ofExcept x) c (MonadExcept.ofExcept y) d := by
  cases h with
  | ok hab =>
    exact .of_gives (gives_ofExcept.2 ⟨rfl, rfl⟩) (gives_ofExcept.2 ⟨rfl, rfl⟩) (hR _ _ hab)
  | error hfault =>
    exact .inr ⟨_, c, _, d, fails_ofExcept.2 ⟨rfl, rfl⟩, fails_ofExcept.2 ⟨rfl, rfl⟩, hfault⟩

end InStep

variable {s s' : Settings} {c : Compilation σ} {d : Compilation τ}

/-- Two compilations, each with its settings, that expand alike tokens alike: with alike macros, for
as many rounds, and with solvers that give the same answers. -/
structure Peers (s s' : Settings) (c : Compilation σ) (d : Compilation τ) : Prop where
  settings : c.settings = s
  settings' : d.settings = s'
  rounds : s.maxIterations = s'.maxIterations
  registry : c.registry.Alike d.registry
  solver : c.solver.Faithful s.solver
  solver' : d.solver.Faithful s.solver

theorem Peers.noting (h : Peers s s' c d) (e e' : Event) : Peers s s' (c.noting e) (d.noting e') :=
  ⟨h.settings, h.settings', h.rounds, h.registry, h.solver, h.solver'⟩

/-- Peers have come to alike tokens. -/
def AlikeTokens (s s' : Settings) (ts : List Token) (c : Compilation σ)
    (us : List Token) (d : Compilation τ) : Prop :=
  List.Forall₂ Token.Alike ts us ∧ Peers s s' c d

theorem fails_runGenerator {t : Token} {f : Fault} (h : generation t c.solver = .error f) :
    Fails (runGenerator t) c ((c.catalog.find t.origin).reportToken f t) c := by
  unfold generation at h
  rw [runGenerator, fails_bind]
  refine .inr ⟨c, c, gives_get.2 ⟨rfl, rfl⟩, ?_⟩
  simp only [h]
  exact fails_bind.2 (.inr ⟨_, c, gives_sourceOf.2 ⟨rfl, rfl⟩, fails_throw.2 ⟨rfl, rfl⟩⟩)

theorem inStep_runGenerator {t u : Token} (h : t.Alike u) (hpeers : Peers s s' c d) :
    InStep (fun p c' q d' => p.Alike q ∧ Peers s s' c' d') (runGenerator t) c (runGenerator u)
      d := by
  have hgen := generated_alike s.solver h
  rw [← map_generation hpeers.solver, ← map_generation hpeers.solver'] at hgen
  rcases ht : generation t c.solver with f | ⟨p, solver, events⟩ <;>
    rcases hu : generation u d.solver with f' | ⟨q, solver', events'⟩ <;>
    rw [ht, hu] at hgen
  · cases hgen with
    | error hfault => exact .inr ⟨_, c, _, d, fails_runGenerator ht, fails_runGenerator hu, hfault⟩
  · cases hgen
  · cases hgen
  · cases hgen with
    | ok hpq =>
      exact .of_gives (gives_runGenerator.2 ⟨solver, events, ht, rfl⟩)
        (gives_runGenerator.2 ⟨solver', events', hu, rfl⟩)
        ⟨hpq, hpeers.settings, hpeers.settings', hpeers.rounds, hpeers.registry,
          (generated_of_generation hpeers.solver ht).2,
          (generated_of_generation hpeers.solver' hu).2⟩

theorem inStep_runGenerators {ts us : List Token} (h : List.Forall₂ Token.Alike ts us) :
    ∀ {c : Compilation σ} {d : Compilation τ}, Peers s s' c d →
      InStep (AlikeTokens s s') (runGenerators ts) c (runGenerators us) d := by
  induction h with
  | nil => exact fun hpeers => .of_pure ⟨.nil, hpeers⟩
  | @cons t u ts us ht _ ih =>
    intro c d hpeers
    have hrest : ∀ (p : Token) (c : Compilation σ) (q : Token) (d : Compilation τ),
        p.Alike q ∧ Peers s s' c d → InStep (AlikeTokens s s')
          (runGenerators ts >>= fun vs => pure (p :: vs)) c
          (runGenerators us >>= fun vs => pure (q :: vs)) d :=
      fun p c q d ⟨hpq, hpeers⟩ => (ih hpeers).bind fun _ _ _ _ hvs =>
        .of_pure ⟨.cons hpq hvs.1, hvs.2⟩
    rw [runGenerators, runGenerators, ht.isGenerator_eq]
    split
    · exact (inStep_runGenerator ht hpeers).bind hrest
    · exact hrest t c u d ⟨ht, hpeers⟩

theorem inStep_takeCalls {ts us : List Token} (h : List.Forall₂ Token.Alike ts us)
    (hpeers : Peers s s' c d) :
    InStep (AlikeTokens s s') (takeCalls ts) c (takeCalls us) d :=
  .after_get (.ofExcept (expandCalls_alike hpeers.registry h) fun _ _ hts => ⟨hts, hpeers⟩)

theorem inStep_expandRounds (name name' : String) : ∀ {n i i' : Nat} {ts us : List Token}
    {c : Compilation σ} {d : Compilation τ}, List.Forall₂ Token.Alike ts us → Peers s s' c d →
      InStep (AlikeTokens s s') (expandRounds name n i ts) c (expandRounds name' n i' us) d
  | 0, i, i', ts, us, c, d, h, hpeers => .of_pure ⟨h, hpeers⟩
  | n + 1, i, i', ts, us, c, d, h, hpeers => by
    rw [expandRounds, expandRounds, Token.any_isExpandable_eq h]
    split
    · refine .after_note ?_
      refine (inStep_takeCalls h (hpeers.noting _ _)).bind fun _ _ _ _ hcalls => ?_
      refine (inStep_runGenerators hcalls.1 hcalls.2).bind fun _ _ _ _ hgens => ?_
      exact .after_note (inStep_expandRounds name name' hgens.1 (hgens.2.noting _ _))
    · exact .of_pure ⟨h, hpeers⟩

theorem inStep_takeDefinitions {ts us : List Token} (h : List.Forall₂ Token.Alike ts us)
    (hpeers : Peers s s' c d) :
    InStep (AlikeTokens s s') (takeDefinitions ts) c (takeDefinitions us) d := by
  obtain ⟨hregistry, hresult⟩ := registerDefinitions_alike h hpeers.registry
  refine .after_get (.after (a := ⟨⟩) (b := ⟨⟩) (gives_set.2 rfl) (gives_set.2 rfl)
    (.ofExcept hresult ?_))
  exact fun _ _ hts => ⟨hts, hpeers.settings, hpeers.settings', hpeers.rounds, hregistry,
    hpeers.solver, hpeers.solver'⟩

/-- Files with alike tokens expand to alike tokens, or fail with the same fault. -/
theorem inStep_expandFile (name name' : String) {ts us : List Token}
    (h : List.Forall₂ Token.Alike ts us) (hpeers : Peers s s' c d) :
    InStep (AlikeTokens s s') (expandFile name ts) c (expandFile name' us) d := by
  rw [expandFile, expandFile]
  refine (inStep_takeDefinitions h hpeers).bind fun vs c' ws d' hdefs => ?_
  refine .after_noteStage (.after_get ?_)
  rw [Compilation.noting_settings, Compilation.noting_settings, Compilation.noting_settings,
    Compilation.noting_settings, hdefs.2.settings, hdefs.2.settings', hdefs.2.rounds]
  refine (inStep_expandRounds name name' hdefs.1
    ((hdefs.2.noting _ _).noting _ _)).bind fun out c'' out' d'' hout => ?_
  refine .after_note ?_
  rw [Token.any_isExpandable_eq hout.1]
  split
  · refine .after_note (.after_get (.after_note (.after_note (.of_pure ⟨hout.1, ?_⟩))))
    exact ((((hout.2.noting _ _).noting _ _).noting _ _).noting _ _)
  · refine .after_get (.after_note (.after_note (.of_pure ⟨hout.1, ?_⟩)))
    exact (((hout.2.noting _ _).noting _ _).noting _ _)

/-- Once two compilations have entered files with alike tokens, they write out alike tokens, each in
its format, or fail with the same fault. -/
theorem inStep_compile [FileStore σ] [FileStore τ] {path path' : Path}
    (h : InStep (fun ts? c us? d => ∃ ts us, ts? = some ts ∧ us? = some us
        ∧ AlikeTokens s s' ts c us d)
      (enter includeFile path) c (enter includeFile path') d) :
    InStep (fun out _ out' _ => ∃ ts us, List.Forall₂ Token.Alike ts us
        ∧ out = render s.outputFormat ts ∧ out' = render s'.outputFormat us)
      (compile path) c (compile path') d := by
  have hexpand : InStep (AlikeTokens s s') (expandedTokens path) c (expandedTokens path') d := by
    refine h.bind ?_
    rintro _ _ _ _ ⟨ts, us, rfl, rfl, hts, hpeers⟩
    exact inStep_expandFile path.baseName path'.baseName hts hpeers
  refine hexpand.bind fun ts c' us d' ⟨hts, hpeers⟩ => .after_get (.of_pure ⟨ts, us, hts, ?_, ?_⟩)
  · rw [hpeers.settings]
  · rw [hpeers.settings']

end CompileM

end HexPatterns
