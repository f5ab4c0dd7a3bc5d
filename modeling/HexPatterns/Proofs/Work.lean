import Mathlib
import HexPatterns.Compilation.Basic

/-!
# How work ends

Work either ends with a result or with a diagnostic, and leaves a compilation behind in both cases.
`Gives` is the first of the two, `Fails` the second. What work in steps gives is what its steps give
one after the other, and so the lemmas below take any work apart. `Ensures` says something of both
ends at once; what work in steps ensures is what its first step has to ensure for the others.
-/

namespace HexPatterns

namespace Compilation

variable {σ : Type} (c : Compilation σ) (e : Event)

/-- The compilation, once an event is noted. -/
def noting : Compilation σ := { c with log := c.log.push e }

@[simp] theorem noting_settings : (c.noting e).settings = c.settings := rfl

@[simp] theorem noting_registry : (c.noting e).registry = c.registry := rfl

@[simp] theorem noting_solver : (c.noting e).solver = c.solver := rfl

@[simp] theorem noting_store : (c.noting e).store = c.store := rfl

@[simp] theorem noting_included : (c.noting e).included = c.included := rfl

@[simp] theorem noting_log : (c.noting e).log = c.log.push e := rfl

@[simp] theorem noting_catalog : (c.noting e).catalog = c.catalog := rfl

end Compilation

namespace CompileM

variable {σ α β : Type}

/-- Begun at `c`, the work ends with the result `a` and leaves `c'` behind. -/
def Gives (x : CompileM σ α) (c : Compilation σ) (a : α) (c' : Compilation σ) : Prop :=
  x.run.run c = (.ok a, c')

variable {c c' : Compilation σ}

@[simp] theorem gives_pure {a b : α} : Gives (pure a) c b c' ↔ b = a ∧ c' = c := by
  change ((Except.ok a : Except Diagnostic α), c) = (.ok b, c') ↔ _
  simp [eq_comm]

@[simp] theorem gives_bind {x : CompileM σ α} {f : α → CompileM σ β} {b : β} :
    Gives (x >>= f) c b c' ↔ ∃ a d, Gives x c a d ∧ Gives (f a) d b c' := by
  unfold Gives
  rw [ExceptT.run_bind, StateT.run_bind]
  rcases x.run.run c with ⟨e | a, d⟩
  · constructor
    · rintro ⟨⟩
    · rintro ⟨_, _, ⟨⟩, _⟩
  · constructor
    · intro h
      exact ⟨a, d, rfl, h⟩
    · rintro ⟨_, _, ⟨⟩, h⟩
      exact h

@[simp] theorem gives_map {x : CompileM σ α} {f : α → β} {b : β} :
    Gives (f <$> x) c b c' ↔ ∃ a, Gives x c a c' ∧ b = f a := by
  rw [← bind_pure_comp, gives_bind]
  simp only [gives_pure]
  constructor
  · rintro ⟨a, d, hx, rfl, rfl⟩
    exact ⟨a, hx, rfl⟩
  · rintro ⟨a, hx, rfl⟩
    exact ⟨a, c', hx, rfl, rfl⟩

@[simp] theorem gives_ite {p : Prop} [Decidable p] {x y : CompileM σ α} {a : α} :
    Gives (if p then x else y) c a c' ↔ if p then Gives x c a c' else Gives y c a c' := by
  split <;> rfl

@[simp] theorem gives_get {d : Compilation σ} :
    Gives (get : CompileM σ (Compilation σ)) c d c' ↔ d = c ∧ c' = c := by
  change ((Except.ok c : Except Diagnostic (Compilation σ)), c) = (.ok d, c') ↔ _
  simp [eq_comm]

@[simp] theorem gives_set {d : Compilation σ} {u : PUnit} :
    Gives (set d : CompileM σ PUnit) c u c' ↔ c' = d := by
  change ((Except.ok ⟨⟩ : Except Diagnostic PUnit), d) = (.ok u, c') ↔ _
  simp [eq_comm]

@[simp] theorem gives_modify {f : Compilation σ → Compilation σ} {u : PUnit} :
    Gives (modify f : CompileM σ PUnit) c u c' ↔ c' = f c := by
  change ((Except.ok ⟨⟩ : Except Diagnostic PUnit), f c) = (.ok u, c') ↔ _
  simp [eq_comm]

@[simp] theorem gives_throw {d : Diagnostic} {a : α} :
    ¬ Gives (throw d : CompileM σ α) c a c' := by
  change ¬ ((Except.error d : Except Diagnostic α), c) = (.ok a, c')
  simp

@[simp] theorem gives_ofExcept {e : Except Diagnostic α} {a : α} :
    Gives (MonadExcept.ofExcept e : CompileM σ α) c a c' ↔ e = .ok a ∧ c' = c := by
  cases e with
  | error d => simp [MonadExcept.ofExcept]
  | ok b => simp [MonadExcept.ofExcept, eq_comm]

@[simp] theorem gives_liftM {e : Except Diagnostic α} {a : α} :
    Gives (liftM e : CompileM σ α) c a c' ↔ e = .ok a ∧ c' = c := by
  change (e, c) = ((Except.ok a : Except Diagnostic α), c') ↔ _
  simp [eq_comm]

@[simp] theorem gives_note {e : Event} {u : Unit} :
    Gives (note e : CompileM σ Unit) c u c' ↔ c' = c.noting e :=
  gives_modify

@[simp] theorem gives_noteStage {stage : Stage} {name : String} {ts : List Token} {u : Unit} :
    Gives (noteStage stage name ts : CompileM σ Unit) c u c' ↔
      c' = (c.noting (.stageDone stage name)).noting (.ofTokens name ts) := by
  simp [noteStage]

@[simp] theorem gives_sourceOf {t : Token} {source : SourceText} :
    Gives (sourceOf t : CompileM σ SourceText) c source c' ↔
      source = c.catalog.find t.origin ∧ c' = c := by
  simp [sourceOf, and_comm]

/-- Begun at `c`, the work ends with the diagnostic `d` and leaves `c'` behind. -/
def Fails (x : CompileM σ α) (c : Compilation σ) (d : Diagnostic) (c' : Compilation σ) : Prop :=
  x.run.run c = (.error d, c')

theorem gives_or_fails (x : CompileM σ α) (c : Compilation σ) :
    (∃ a c', Gives x c a c') ∨ ∃ d c', Fails x c d c' := by
  unfold Gives Fails
  rcases x.run.run c with ⟨d | a, c'⟩
  · exact .inr ⟨d, c', rfl⟩
  · exact .inl ⟨a, c', rfl⟩

theorem Gives.unique {x : CompileM σ α} {a b : α} {d : Compilation σ} (h : Gives x c a c')
    (h' : Gives x c b d) : a = b ∧ c' = d := by
  cases h.symm.trans h'
  exact ⟨rfl, rfl⟩

theorem Gives.not_fails {x : CompileM σ α} {a : α} {d : Diagnostic} {e : Compilation σ}
    (h : Gives x c a c') : ¬ Fails x c d e := fun hfails => by
  cases h.symm.trans hfails

/-- A first step that gives a result is done. -/
theorem Gives.run_bind {x : CompileM σ α} {f : α → CompileM σ β} {a : α} (h : Gives x c a c') :
    (x >>= f).run.run c = (f a).run.run c' := by
  rw [ExceptT.run_bind, StateT.run_bind, h]
  rfl

@[simp] theorem fails_bind {x : CompileM σ α} {f : α → CompileM σ β} {d : Diagnostic} :
    Fails (x >>= f) c d c' ↔ Fails x c d c' ∨ ∃ a e, Gives x c a e ∧ Fails (f a) e d c' := by
  unfold Gives Fails
  rw [ExceptT.run_bind, StateT.run_bind]
  rcases x.run.run c with ⟨e | a, e'⟩
  · constructor
    · rintro ⟨⟩
      exact .inl rfl
    · rintro (⟨⟨⟩⟩ | ⟨_, _, ⟨⟩, _⟩)
      rfl
  · constructor
    · intro h
      exact .inr ⟨a, e', rfl, h⟩
    · rintro (h | ⟨_, _, ⟨⟩, h⟩)
      · cases h
      · exact h

@[simp] theorem fails_throw {d e : Diagnostic} :
    Fails (throw d : CompileM σ α) c e c' ↔ e = d ∧ c' = c := by
  change ((Except.error d : Except Diagnostic α), c) = (.error e, c') ↔ _
  simp [eq_comm]

@[simp] theorem fails_ofExcept {r : Except Diagnostic α} {d : Diagnostic} :
    Fails (MonadExcept.ofExcept r : CompileM σ α) c d c' ↔ r = .error d ∧ c' = c := by
  cases r with
  | error e => simp [MonadExcept.ofExcept, eq_comm]
  | ok a =>
    change ((Except.ok a : Except Diagnostic α), c) = (.error d, c') ↔ _
    simp

/-- If the work begun at `c` gives a result then so that `Q` holds, and if it fails then so that `E`
holds. -/
def Ensures (x : CompileM σ α) (c : Compilation σ) (Q : α → Compilation σ → Prop)
    (E : Diagnostic → Compilation σ → Prop) : Prop :=
  (∀ a c', Gives x c a c' → Q a c') ∧ ∀ d c', Fails x c d c' → E d c'

section Ensures

variable {Q : α → Compilation σ → Prop} {E : Diagnostic → Compilation σ → Prop}

theorem ensures_iff {x : CompileM σ α} :
    Ensures x c Q E ↔
      match x.run.run c with
      | (.ok a, c') => Q a c'
      | (.error d, c') => E d c' := by
  unfold Ensures Gives Fails
  rcases x.run.run c with ⟨d | a, c'⟩
  · constructor
    · intro h
      exact h.2 d c' rfl
    · intro h
      exact ⟨fun _ _ ha => (by cases ha), fun _ _ hd => (by cases hd; exact h)⟩
  · constructor
    · intro h
      exact h.1 a c' rfl
    · intro h
      exact ⟨fun _ _ ha => (by cases ha; exact h), fun _ _ hd => (by cases hd)⟩

theorem Ensures.mono {x : CompileM σ α} {Q' : α → Compilation σ → Prop}
    {E' : Diagnostic → Compilation σ → Prop} (h : Ensures x c Q E)
    (hQ : ∀ a c', Q a c' → Q' a c') (hE : ∀ d c', E d c' → E' d c') : Ensures x c Q' E' :=
  ⟨fun a c' ha => hQ a c' (h.1 a c' ha), fun d c' hd => hE d c' (h.2 d c' hd)⟩

@[simp] theorem ensures_pure {a : α} : Ensures (pure a) c Q E ↔ Q a c := by
  rw [ensures_iff]
  rfl

@[simp] theorem ensures_throw {d : Diagnostic} : Ensures (throw d) c Q E ↔ E d c := by
  rw [ensures_iff]
  rfl

@[simp] theorem ensures_bind {x : CompileM σ β} {f : β → CompileM σ α} :
    Ensures (x >>= f) c Q E ↔ Ensures x c (fun b d => Ensures (f b) d Q E) E := by
  simp only [ensures_iff, ExceptT.run_bind, StateT.run_bind]
  rcases x.run.run c with ⟨d | b, c'⟩
  · rfl
  · rfl

@[simp] theorem ensures_map {x : CompileM σ β} {f : β → α} :
    Ensures (f <$> x) c Q E ↔ Ensures x c (fun b d => Q (f b) d) E := by
  rw [← bind_pure_comp, ensures_bind]
  simp

@[simp] theorem ensures_ite {p : Prop} [Decidable p] {x y : CompileM σ α} :
    Ensures (if p then x else y) c Q E ↔ if p then Ensures x c Q E else Ensures y c Q E := by
  split <;> rfl

@[simp] theorem ensures_get {Q : Compilation σ → Compilation σ → Prop} :
    Ensures (get : CompileM σ (Compilation σ)) c Q E ↔ Q c c := by
  rw [ensures_iff]
  rfl

@[simp] theorem ensures_set {d : Compilation σ} {Q : PUnit → Compilation σ → Prop} :
    Ensures (set d : CompileM σ PUnit) c Q E ↔ Q ⟨⟩ d := by
  rw [ensures_iff]
  rfl

@[simp] theorem ensures_modify {f : Compilation σ → Compilation σ}
    {Q : PUnit → Compilation σ → Prop} :
    Ensures (modify f : CompileM σ PUnit) c Q E ↔ Q ⟨⟩ (f c) := by
  rw [ensures_iff]
  rfl

@[simp] theorem ensures_ofExcept {r : Except Diagnostic α} :
    Ensures (MonadExcept.ofExcept r : CompileM σ α) c Q E ↔
      (∀ a, r = .ok a → Q a c) ∧ ∀ d, r = .error d → E d c := by
  cases r with
  | error d => simp [MonadExcept.ofExcept]
  | ok a => simp [MonadExcept.ofExcept]

@[simp] theorem ensures_liftM {r : Except Diagnostic α} :
    Ensures (liftM r : CompileM σ α) c Q E ↔
      (∀ a, r = .ok a → Q a c) ∧ ∀ d, r = .error d → E d c := by
  have hrun : (liftM r : CompileM σ α).run.run c = (r, c) := rfl
  rw [ensures_iff, hrun]
  cases r <;> simp

@[simp] theorem ensures_note {e : Event} {Q : Unit → Compilation σ → Prop} :
    Ensures (note e : CompileM σ Unit) c Q E ↔ Q () (c.noting e) :=
  ensures_modify

@[simp] theorem ensures_noteStage {stage : Stage} {name : String} {ts : List Token}
    {Q : Unit → Compilation σ → Prop} :
    Ensures (noteStage stage name ts : CompileM σ Unit) c Q E ↔
      Q () ((c.noting (.stageDone stage name)).noting (.ofTokens name ts)) := by
  simp [noteStage]

@[simp] theorem ensures_sourceOf {t : Token} {Q : SourceText → Compilation σ → Prop} :
    Ensures (sourceOf t : CompileM σ SourceText) c Q E ↔ Q (c.catalog.find t.origin) c := by
  simp [sourceOf]

end Ensures

end CompileM

end HexPatterns
