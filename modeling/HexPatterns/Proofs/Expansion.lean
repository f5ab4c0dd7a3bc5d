import Mathlib
import HexPatterns.Compilation.Expand
import HexPatterns.Proofs.Memo
import HexPatterns.Proofs.Rounds
import HexPatterns.Proofs.Work

/-!
# Rounds of expansion inline calls

What tokens expand to is said without rounds by `Expansion`: a call stands for what the tokens of
its macro's body expand to, however deep the calls nest. A round takes one level of nesting away, in
all the tokens at once, and all generators. So when rounds come to an end they end in the expansion,
and they come to an end after as many rounds as calls nest (`expandRounds_inlines`).
-/

namespace HexPatterns

open Synthesis

section Relation

variable (r : Registry) (gen : Token → Token → Prop)

/-- `Expansion r gen ts n out`: one after the other the tokens `ts` expand to `out`, and calls nest
`n` deep in them. Literals and definitions stand for themselves, a generator for the token that
`gen` gives it, and a call for the expansion of a macro's body. No other token expands to
anything. -/
inductive Expansion : List Token → Nat → List Token → Prop
  | nil : Expansion [] 0 []
  | self {t ts n out} : t.isExpandable = false → Expansion ts n out →
      Expansion (t :: ts) n (t :: out)
  | generator {t p ts n out} : t.isGenerator = true → gen t p → Expansion ts n out →
      Expansion (t :: ts) n (p :: out)
  | call {t body m inner ts n out} : t.kind = .call → r.resolve t.content = some body →
      Expansion body m inner → Expansion ts n out →
      Expansion (t :: ts) (max (m + 1) n) (inner ++ out)

end Relation

namespace Token

theorem isExpandable_iff {t : Token} :
    t.isExpandable = true ↔ t.kind = .directive ∨ t.kind = .call := by
  unfold isExpandable
  cases t.kind <;> simp [Kind.isExpandable]

theorem isExpandable_eq_false_iff {t : Token} :
    t.isExpandable = false ↔ t.kind = .literal ∨ t.kind = .definition := by
  unfold isExpandable
  cases t.kind <;> simp [Kind.isExpandable]

theorem isExpandable_of_isGenerator {t : Token} (h : t.isGenerator = true) :
    t.isExpandable = true := by
  simp only [isGenerator, Bool.and_eq_true, decide_eq_true_eq] at h
  exact isExpandable_iff.2 (.inl h.1)

theorem kind_ne_call {t : Token} (h : t.isExpandable = false) : t.kind ≠ .call := fun hcall => by
  rw [isExpandable_iff.2 (.inr hcall)] at h
  cases h

theorem kind_of_isGenerator {t : Token} (h : t.isGenerator = true) : t.kind = .directive := by
  simp only [isGenerator, Bool.and_eq_true, decide_eq_true_eq] at h
  exact h.1

end Token

namespace Expansion

variable {r : Registry} {gen : Token → Token → Prop} {ts us out out' : List Token} {m n : Nat}

theorem append (h : Expansion r gen ts m out) (h' : Expansion r gen us n out') :
    Expansion r gen (ts ++ us) (max m n) (out ++ out') := by
  induction h with
  | nil => simpa using h'
  | self ht _ ih => exact .self ht ih
  | generator ht hp _ ih => exact .generator ht hp ih
  | call ht hbody hin _ _ ih =>
    rw [List.append_assoc, max_assoc]
    exact .call ht hbody hin ih

theorem of_append : ∀ {ts : List Token} {n : Nat} {out : List Token},
    Expansion r gen (ts ++ us) n out →
      ∃ m₁ out₁ m₂ out₂, Expansion r gen ts m₁ out₁ ∧ Expansion r gen us m₂ out₂
        ∧ n = max m₁ m₂ ∧ out = out₁ ++ out₂
  | [], n, out, h => ⟨0, [], n, out, .nil, h, by simp, by simp⟩
  | t :: ts, n, out, h => by
    cases h with
    | self ht h =>
      obtain ⟨m₁, out₁, m₂, out₂, h₁, h₂, rfl, rfl⟩ := of_append h
      exact ⟨m₁, t :: out₁, m₂, out₂, .self ht h₁, h₂, rfl, rfl⟩
    | generator ht hp h =>
      obtain ⟨m₁, out₁, m₂, out₂, h₁, h₂, rfl, rfl⟩ := of_append h
      exact ⟨m₁, _ :: out₁, m₂, out₂, .generator ht hp h₁, h₂, rfl, rfl⟩
    | call ht hbody hin h =>
      obtain ⟨m₁, out₁, m₂, out₂, h₁, h₂, rfl, rfl⟩ := of_append h
      exact ⟨_, _, m₂, out₂, .call ht hbody hin h₁, h₂, (max_assoc ..).symm,
        (List.append_assoc ..).symm⟩

theorem of_any_isExpandable_eq_false (h : ts.any Token.isExpandable = false) :
    Expansion r gen ts 0 ts := by
  induction ts with
  | nil => exact .nil
  | cons t ts ih =>
    rw [List.any_cons, Bool.or_eq_false_iff] at h
    exact .self h.1 (ih h.2)

/-- Nothing in an expansion is left to expand, if generators give nothing that is. -/
theorem any_isExpandable_out (hgen : ∀ t p, gen t p → p.isExpandable = false)
    (h : Expansion r gen ts n out) : out.any Token.isExpandable = false := by
  induction h with
  | nil => rfl
  | self ht _ ih => simp [ht, ih]
  | generator _ hp _ ih => simp [hgen _ _ hp, ih]
  | call _ _ _ _ ihin ih => rw [List.any_append, ihin, ih]; rfl

/-- Where no directive is left, calls nest as soon as anything is left to expand. -/
theorem any_isExpandable_iff (h : Expansion r gen ts n out)
    (hts : ∀ t ∈ ts, t.kind ≠ .directive) : ts.any Token.isExpandable = true ↔ 0 < n := by
  induction h with
  | nil => simp
  | self ht _ ih =>
    rw [List.any_cons, ht, Bool.false_or]
    exact ih fun t h => hts t (List.mem_cons_of_mem _ h)
  | generator ht _ _ _ => exact absurd (Token.kind_of_isGenerator ht) (hts _ List.mem_cons_self)
  | call ht _ _ _ _ _ =>
    rw [List.any_cons, Token.isExpandable_iff.2 (.inr ht), Bool.true_or]
    simp

theorem of_self {t : Token} (ht : t.isExpandable = false) (h : Expansion r gen (t :: ts) n out) :
    ∃ rest, out = t :: rest ∧ Expansion r gen ts n rest := by
  cases h with
  | self _ h => exact ⟨_, rfl, h⟩
  | generator ht' _ _ => rw [Token.isExpandable_of_isGenerator ht'] at ht; cases ht
  | call ht' _ _ _ => rw [Token.isExpandable_iff.2 (.inr ht')] at ht; cases ht

/-- Tokens have one expansion at most, if generators have one token at most. -/
theorem unique (hgen : ∀ t p p', gen t p → gen t p' → p = p') (h : Expansion r gen ts m out)
    (h' : Expansion r gen ts n out') : m = n ∧ out = out' := by
  induction h generalizing n out' with
  | nil =>
    cases h'
    exact ⟨rfl, rfl⟩
  | self ht _ ih =>
    obtain ⟨rest, rfl, hrest⟩ := h'.of_self ht
    obtain ⟨rfl, rfl⟩ := ih hrest
    exact ⟨rfl, rfl⟩
  | generator ht hp _ ih =>
    cases h' with
    | self ht' _ => rw [Token.isExpandable_of_isGenerator ht] at ht'; cases ht'
    | generator _ hp' h' =>
      obtain ⟨rfl, rfl⟩ := ih h'
      exact ⟨rfl, by rw [hgen _ _ _ hp hp']⟩
    | call ht' _ _ _ => rw [Token.kind_of_isGenerator ht] at ht'; cases ht'
  | call ht hbody _ _ ihin ih =>
    cases h' with
    | self ht' _ => rw [Token.isExpandable_iff.2 (.inr ht)] at ht'; cases ht'
    | generator ht' _ _ => rw [Token.kind_of_isGenerator ht'] at ht; cases ht
    | call _ hbody' hin' h' =>
      cases hbody.symm.trans hbody'
      obtain ⟨rfl, rfl⟩ := ihin hin'
      obtain ⟨rfl, rfl⟩ := ih h'
      exact ⟨rfl, rfl⟩

end Expansion

section Calls

variable {catalog : Catalog} {r : Registry} {gen : Token → Token → Prop}

theorem expandCall_eq_ok_iff {t : Token} {here : List Token} :
    expandCall catalog r t = .ok here ↔
      t.kind = .call ∧ r.resolve t.content = some here ∨ t.kind ≠ .call ∧ here = [t] := by
  unfold expandCall
  split
  · rename_i ht
    cases r.resolve t.content <;> simp [ht]
  · rename_i ht
    simp [ht, eq_comm]

theorem expandCalls_cons_eq_ok_iff {t : Token} {ts us : List Token} :
    expandCalls catalog r (t :: ts) = .ok us ↔
      ∃ here rest, expandCall catalog r t = .ok here ∧ expandCalls catalog r ts = .ok rest
        ∧ us = here ++ rest := by
  rw [expandCalls]
  cases expandCall catalog r t with
  | error d => simp [bind, Except.bind]
  | ok here =>
    cases expandCalls catalog r ts with
    | error d => simp [bind, Except.bind]
    | ok rest => simp [bind, Except.bind, pure, Except.pure, eq_comm]

theorem expandCalls_cons_of_ne_call {t : Token} {ts us : List Token} (ht : t.kind ≠ .call)
    (h : expandCalls catalog r ts = .ok us) : expandCalls catalog r (t :: ts) = .ok (t :: us) :=
  expandCalls_cons_eq_ok_iff.2 ⟨[t], us, expandCall_eq_ok_iff.2 (.inr ⟨ht, rfl⟩), h, rfl⟩

/-- What the tokens expand to after a pass over the calls they expand to before it. -/
theorem Expansion.of_expandCalls : ∀ {ts us : List Token} {n : Nat} {out : List Token},
    expandCalls catalog r ts = .ok us → Expansion r gen us n out →
      ∃ m, Expansion r gen ts m out
  | [], us, n, out, hcalls, h => by
    cases hcalls
    exact ⟨n, h⟩
  | t :: ts, us, n, out, hcalls, h => by
    obtain ⟨here, rest, hhere, hrest, rfl⟩ := expandCalls_cons_eq_ok_iff.1 hcalls
    obtain ⟨m₁, out₁, m₂, out₂, h₁, h₂, rfl, rfl⟩ := h.of_append
    obtain ⟨m, h₂⟩ := of_expandCalls hrest h₂
    rcases expandCall_eq_ok_iff.1 hhere with ⟨ht, hbody⟩ | ⟨-, rfl⟩
    · exact ⟨_, .call ht hbody h₁ h₂⟩
    · exact ⟨_, h₁.append h₂⟩

variable (catalog) in
/-- A pass over the calls takes one level of nesting away. -/
theorem Expansion.expandCalls {ts : List Token} {n : Nat} {out : List Token}
    (h : Expansion r gen ts n out) :
    ∃ us, expandCalls catalog r ts = .ok us ∧ Expansion r gen us (n - 1) out := by
  induction h with
  | nil => exact ⟨[], rfl, .nil⟩
  | self ht _ ih =>
    obtain ⟨us, hus, h⟩ := ih
    exact ⟨_, expandCalls_cons_of_ne_call (Token.kind_ne_call ht) hus, .self ht h⟩
  | generator ht hp _ ih =>
    obtain ⟨us, hus, h⟩ := ih
    have hkind := Token.kind_of_isGenerator ht
    exact ⟨_, expandCalls_cons_of_ne_call (by simp [hkind]) hus, .generator ht hp h⟩
  | @call t body m inner ts n out ht hbody hin _ _ ih =>
    obtain ⟨us, hus, h⟩ := ih
    refine ⟨_, expandCalls_cons_eq_ok_iff.2
      ⟨body, us, expandCall_eq_ok_iff.2 (.inl ⟨ht, hbody⟩), hus, rfl⟩, ?_⟩
    have hmax : max (m + 1) n - 1 = max m (n - 1) := by omega
    rw [hmax]
    exact hin.append h

end Calls

section Generators

/-- What a solver makes of a generator directive. -/
def generation (t : Token) (s : Solver Float) :
    Except Fault (Token × Solver Float × List Event) := do
  let (g, args) ← readGenerator t
  g.generate args t s

/-- The literal that a generator directive stands for: with time enough, and under some limits. -/
def Token.generated (limits : Limits Float) (t : Token) : Except Fault Token := do
  let (g, args) ← readGenerator t
  let x ← g.readNumber args
  let pattern :=
    match g with
    | .num => (answer limits x).pattern
    | .bits => spellDigits x
  return ⟨.literal, t.position, pattern, t.origin⟩

/-- The directive is valid and `p` is its literal. -/
def Token.Generates (limits : Limits Float) (t p : Token) : Prop :=
  t.generated limits = .ok p

/-- The number of the round whose start is noted. -/
def Event.round? : Event → Option Nat
  | .roundStarted number _ => some number
  | _ => none

/-- The numbers of the rounds that were started. -/
def Compilation.rounds {σ : Type} (c : Compilation σ) : List Nat :=
  c.log.toList.filterMap Event.round?

theorem Token.Generates.unique {limits : Limits Float} (t p p' : Token)
    (h : t.Generates limits p) (h' : t.Generates limits p') : p = p' := by
  rw [Token.Generates] at h h'
  exact Except.ok.inj (h.symm.trans h')

variable {t p : Token} {s s' : Solver Float} {events : List Event}

theorem generation_eq_ok_iff :
    generation t s = .ok (p, s', events) ↔
      ∃ g args x pattern, readGenerator t = .ok (g, args) ∧ g.readNumber args = .ok x
        ∧ p = ⟨.literal, t.position, pattern, t.origin⟩
        ∧ (pattern, s', events) =
          match g with
          | .num => Generator.synthesize x t s
          | .bits => (spellDigits x, s, []) := by
  unfold generation
  rcases readGenerator t with f | ⟨g, args⟩
  · simp [bind, Except.bind]
  · rcases hx : g.readNumber args with f | x
    · simp [Generator.generate, hx, bind, Except.bind]
    · cases g with
      | bits => simp [Generator.generate, hx, bind, Except.bind, pure, Except.pure, eq_comm]
      | num =>
        rcases hs : Generator.synthesize x t s with ⟨pattern, s₁, events₁⟩
        simp [Generator.generate, hx, hs, bind, Except.bind, pure, Except.pure, eq_comm]

theorem kind_of_generation (h : generation t s = .ok (p, s', events)) : p.kind = .literal := by
  obtain ⟨_, _, _, _, _, _, rfl, _⟩ := generation_eq_ok_iff.1 h
  rfl

theorem isExpandable_of_generation (h : generation t s = .ok (p, s', events)) :
    p.isExpandable = false := by
  rw [Token.isExpandable, kind_of_generation h]
  rfl

theorem round?_of_generation (h : generation t s = .ok (p, s', events)) :
    events.filterMap Event.round? = [] := by
  obtain ⟨g, _, x, _, _, _, _, h⟩ := generation_eq_ok_iff.1 h
  cases g with
  | bits => cases h; rfl
  | num =>
    simp only [Generator.synthesize, Prod.mk.injEq] at h
    rw [h.2.2]
    split <;> split <;> rfl

variable {limits : Limits Float}

/-- A faithful solver makes of a directive what the directive stands for. -/
theorem map_generation (h : s.Faithful limits) :
    (generation t s).map Prod.fst = t.generated limits := by
  unfold generation Token.generated
  rcases readGenerator t with f | ⟨g, args⟩
  · rfl
  · rcases hx : g.readNumber args with f | x
    · simp [Generator.generate, hx, bind, Except.bind, Except.map]
    · cases g with
      | bits => simp [Generator.generate, hx, bind, Except.bind, pure, Except.pure, Except.map]
      | num =>
        simp [Generator.generate, Generator.synthesize, hx, bind, Except.bind, pure, Except.pure,
          Except.map, (h.solve x).1]

theorem generated_of_generation (h : s.Faithful limits)
    (hg : generation t s = .ok (p, s', events)) :
    t.Generates limits p ∧ s'.Faithful limits := by
  refine ⟨by rw [Token.Generates, ← map_generation h, hg]; rfl, ?_⟩
  obtain ⟨g, _, x, _, _, _, _, hs⟩ := generation_eq_ok_iff.1 hg
  cases g with
  | bits =>
    cases hs
    exact h
  | num =>
    simp only [Generator.synthesize, Prod.mk.injEq] at hs
    rw [hs.2.1]
    exact (h.solve x).2

theorem exists_generation (h : s.Faithful limits) (hp : t.Generates limits p) :
    ∃ s' events, generation t s = .ok (p, s', events) := by
  rw [Token.Generates, ← map_generation h] at hp
  rcases hg : generation t s with f | ⟨p', s', events⟩
  · rw [hg] at hp
    cases hp
  · rw [hg] at hp
    cases hp
    exact ⟨s', events, rfl⟩

end Generators

namespace CompileM

variable {σ : Type} {c c' : Compilation σ}

theorem gives_runGenerator {t p : Token} :
    Gives (runGenerator t) c p c' ↔
      ∃ s events, generation t c.solver = .ok (p, s, events)
        ∧ c' = { c with solver := s, log := c.log ++ events } := by
  unfold runGenerator generation
  simp only [gives_bind, gives_get]
  constructor
  · rintro ⟨_, _, ⟨rfl, rfl⟩, h⟩
    split at h
    · simp at h
    · rename_i p' s events hg
      simp only [gives_bind, gives_modify, gives_pure] at h
      obtain ⟨_, _, rfl, rfl, rfl⟩ := h
      exact ⟨s, events, hg, rfl⟩
  · rintro ⟨s, events, hg, rfl⟩
    exact ⟨c, c, ⟨rfl, rfl⟩, by simp [hg]⟩

theorem gives_runGenerators_cons {t : Token} {ts us : List Token} :
    Gives (runGenerators (t :: ts)) c us c' ↔
      ∃ here rest d, (if t.isGenerator then Gives (runGenerator t) c here d else here = t ∧ d = c)
        ∧ Gives (runGenerators ts) d rest c' ∧ us = here :: rest := by
  simp only [runGenerators, gives_bind, gives_ite, gives_pure]
  split
  all_goals
    constructor
    · rintro ⟨here, d, hhere, rest, _, hrest, rfl, rfl⟩
      exact ⟨here, rest, d, hhere, hrest, rfl⟩
    · rintro ⟨here, rest, d, hhere, hrest, rfl⟩
      exact ⟨here, d, hhere, rest, c', hrest, rfl, rfl⟩

theorem gives_runGenerators_cons_of_not {t : Token} {ts us : List Token}
    (ht : t.isGenerator = false) (h : Gives (runGenerators ts) c us c') :
    Gives (runGenerators (t :: ts)) c (t :: us) c' :=
  gives_runGenerators_cons.2 ⟨t, us, c, by simp [ht], h, rfl⟩

@[simp] theorem gives_takeCalls {ts us : List Token} :
    Gives (takeCalls ts) c us c' ↔ expandCalls c.catalog c.registry ts = .ok us ∧ c' = c := by
  simp [takeCalls, and_comm]

theorem gives_expandRounds_of_done {name : String} {n k : Nat} {ts : List Token}
    (h : ts.any Token.isExpandable = false) : Gives (expandRounds name n k ts) c ts c := by
  cases n <;> simp [expandRounds, h]

theorem gives_expandRounds_succ {name : String} {n k : Nat} {ts out : List Token} :
    Gives (expandRounds name (n + 1) k ts) c out c' ↔
      if ts.any Token.isExpandable then
        ∃ us vs d, expandCalls c.catalog c.registry ts = .ok us
          ∧ Gives (runGenerators us) (c.noting (.roundStarted (k + 1) name)) vs d
          ∧ Gives (expandRounds name n (k + 1) vs) (d.noting (.ofTokens name vs)) out c'
      else out = ts ∧ c' = c := by
  simp only [expandRounds, gives_bind, gives_ite, gives_note, gives_takeCalls, gives_pure]
  split
  · constructor
    · rintro ⟨_, _, rfl, us, _, ⟨hus, rfl⟩, vs, d, hvs, _, _, rfl, h⟩
      exact ⟨us, vs, d, hus, hvs, h⟩
    · rintro ⟨us, vs, d, hus, hvs, h⟩
      exact ⟨(), _, rfl, us, _, ⟨hus, rfl⟩, vs, d, hvs, (), _, rfl, h⟩
  · rfl

/-- Generators use the solver and note events, and change nothing else. -/
theorem exists_eq_of_runGenerators : ∀ {ts us : List Token} {c c' : Compilation σ},
    Gives (runGenerators ts) c us c' → ∃ solver log, c' = { c with solver, log }
  | [], us, c, c', h => by
    simp only [runGenerators, gives_pure] at h
    exact ⟨c.solver, c.log, h.2⟩
  | t :: ts, us, c, c', h => by
    obtain ⟨here, rest, d, hhere, hrest, rfl⟩ := gives_runGenerators_cons.1 h
    obtain ⟨solver, log, rfl⟩ := exists_eq_of_runGenerators hrest
    split at hhere
    · obtain ⟨s, events, -, rfl⟩ := gives_runGenerator.1 hhere
      exact ⟨solver, log, rfl⟩
    · rw [hhere.2]
      exact ⟨solver, log, rfl⟩

/-- And so do rounds of expansion. -/
theorem exists_eq_of_expandRounds {name : String} : ∀ {n k : Nat} {ts out : List Token}
    {c c' : Compilation σ}, Gives (expandRounds name n k ts) c out c' →
      ∃ solver log, c' = { c with solver, log }
  | 0, k, ts, out, c, c', h => by
    simp only [expandRounds, gives_pure] at h
    exact ⟨c.solver, c.log, h.2⟩
  | n + 1, k, ts, out, c, c', h => by
    rw [gives_expandRounds_succ] at h
    split at h
    · obtain ⟨us, vs, d, -, hvs, h⟩ := h
      obtain ⟨s, l, rfl⟩ := exists_eq_of_runGenerators hvs
      obtain ⟨solver, log, rfl⟩ := exists_eq_of_expandRounds h
      exact ⟨solver, log, rfl⟩
    · exact ⟨c.solver, c.log, h.2⟩

section Backward

variable {Inv : Solver Float → Prop} {r : Registry} {gen : Token → Token → Prop}

/-- If every generated token is one that `gen` gives, what the tokens expand to after a pass over
the generators they expand to before it. -/
theorem expansion_of_runGenerators
    (hgen : ∀ {t p s s' events}, Inv s → generation t s = .ok (p, s', events) → gen t p ∧ Inv s') :
    ∀ {ts us : List Token} {c c' : Compilation σ}, Gives (runGenerators ts) c us c' →
      Inv c.solver → Inv c'.solver ∧ c'.registry = c.registry
        ∧ ∀ n out, Expansion r gen us n out → Expansion r gen ts n out
  | [], us, c, c', h, hinv => by
    simp only [runGenerators, gives_pure] at h
    obtain ⟨rfl, rfl⟩ := h
    exact ⟨hinv, rfl, fun _ _ h => h⟩
  | t :: ts, us, c, c', h, hinv => by
    obtain ⟨here, rest, d, hhere, hrest, rfl⟩ := gives_runGenerators_cons.1 h
    split at hhere
    · rename_i ht
      obtain ⟨s, events, hg, rfl⟩ := gives_runGenerator.1 hhere
      obtain ⟨hp, hs⟩ := hgen hinv hg
      obtain ⟨hinv', hreg, htail⟩ := expansion_of_runGenerators hgen hrest hs
      refine ⟨hinv', hreg, fun n out hout => ?_⟩
      obtain ⟨rest, rfl, hrest⟩ := hout.of_self (isExpandable_of_generation hg)
      exact .generator ht hp (htail n rest hrest)
    · obtain ⟨rfl, rfl⟩ := hhere
      obtain ⟨hinv', hreg, htail⟩ := expansion_of_runGenerators hgen hrest hinv
      refine ⟨hinv', hreg, fun n out hout => ?_⟩
      have hout : Expansion r gen ([here] ++ rest) n out := hout
      obtain ⟨m₁, out₁, m₂, out₂, h₁, h₂, rfl, rfl⟩ := hout.of_append
      exact h₁.append (htail m₂ out₂ h₂)

/-- Rounds that leave nothing to expand end in an expansion. -/
theorem expansion_of_expandRounds
    (hgen : ∀ {t p s s' events}, Inv s → generation t s = .ok (p, s', events) → gen t p ∧ Inv s')
    {name : String} :
    ∀ {n k : Nat} {ts out : List Token} {c c' : Compilation σ},
      Gives (expandRounds name n k ts) c out c' → Inv c.solver →
        c'.registry = c.registry
          ∧ (out.any Token.isExpandable = false → ∃ m, Expansion c.registry gen ts m out)
  | 0, k, ts, out, c, c', h, hinv => by
    simp only [expandRounds, gives_pure] at h
    obtain ⟨rfl, rfl⟩ := h
    exact ⟨rfl, fun hout => ⟨0, .of_any_isExpandable_eq_false hout⟩⟩
  | n + 1, k, ts, out, c, c', h, hinv => by
    rw [gives_expandRounds_succ] at h
    split at h
    · obtain ⟨us, vs, d, hus, hvs, h⟩ := h
      obtain ⟨hinv', hreg, hback⟩ := expansion_of_runGenerators hgen (r := c.registry) hvs hinv
      obtain ⟨hreg', hloop⟩ := expansion_of_expandRounds hgen h hinv'
      refine ⟨hreg'.trans hreg, fun hout => ?_⟩
      obtain ⟨m, hm⟩ := hloop hout
      exact (hback m out (hreg ▸ hm)).of_expandCalls hus
    · obtain ⟨rfl, rfl⟩ := h
      exact ⟨rfl, fun hout => ⟨0, .of_any_isExpandable_eq_false hout⟩⟩

end Backward

section Forward

variable {limits : Limits Float} {r : Registry} {name : String}

theorem rounds_runGenerators :
    ∀ {ts us : List Token} {c c' : Compilation σ}, Gives (runGenerators ts) c us c' →
      c'.rounds = c.rounds
  | [], us, c, c', h => by
    simp only [runGenerators, gives_pure] at h
    rw [h.2]
  | t :: ts, us, c, c', h => by
    obtain ⟨here, rest, d, hhere, hrest, rfl⟩ := gives_runGenerators_cons.1 h
    rw [rounds_runGenerators hrest]
    split at hhere
    · obtain ⟨s, events, hg, rfl⟩ := gives_runGenerator.1 hhere
      simp [Compilation.rounds, round?_of_generation hg]
    · rw [hhere.2]

/-- A pass over the generators goes through where there is an expansion, which stays the same, and
no directive is left. -/
theorem runGenerators_of_expansion {ts : List Token} {n : Nat} {out : List Token}
    (h : Expansion r (Token.Generates limits) ts n out) :
    ∀ c : Compilation σ, c.solver.Faithful limits →
      ∃ us c', Gives (runGenerators ts) c us c' ∧ Expansion r (Token.Generates limits) us n out
        ∧ ∀ u ∈ us, u.kind ≠ .directive := by
  induction h with
  | nil =>
    intro c hc
    exact ⟨[], c, by simp [runGenerators], .nil, by simp⟩
  | @self t ts n out ht _ ih =>
    intro c hc
    have hkind : t.kind ≠ .directive := fun hk => by
      rw [Token.isExpandable_iff.2 (.inl hk)] at ht; cases ht
    have hgen : t.isGenerator = false := by
      rw [Token.isGenerator]; simp [hkind]
    obtain ⟨us, c', hus, h, hno⟩ := ih c hc
    refine ⟨t :: us, c', gives_runGenerators_cons_of_not hgen hus, .self ht h, ?_⟩
    simpa using ⟨hkind, hno⟩
  | @generator t p ts n out ht hp _ ih =>
    intro c hc
    obtain ⟨s, events, hg⟩ := exists_generation hc hp
    obtain ⟨us, c', hus, h, hno⟩ :=
      ih { c with solver := s, log := c.log ++ events } (generated_of_generation hc hg).2
    refine ⟨p :: us, c', gives_runGenerators_cons.2 ⟨p, us, _, ?_, hus, rfl⟩,
      .self (isExpandable_of_generation hg) h, ?_⟩
    · rw [if_pos ht]
      exact gives_runGenerator.2 ⟨s, events, hg, rfl⟩
    · simpa [kind_of_generation hg] using hno
  | @call t body m inner ts n out ht hbody hin _ _ ih =>
    intro c hc
    have hgen : t.isGenerator = false := by
      rw [Token.isGenerator]; simp [ht]
    obtain ⟨us, c', hus, h, hno⟩ := ih c hc
    refine ⟨t :: us, c', gives_runGenerators_cons_of_not hgen hus, .call ht hbody hin h, ?_⟩
    simpa [ht] using hno

/-- Rounds are taken as long as calls nest, and one is taken at least. -/
theorem expandRounds_of_expansion :
    ∀ {n k m : Nat} {ts out : List Token} {c : Compilation σ}, c.solver.Faithful limits →
      Expansion c.registry (Token.Generates limits) ts m out →
      ts.any Token.isExpandable = true → max m 1 ≤ n →
        ∃ c', Gives (expandRounds name n k ts) c out c'
          ∧ c'.rounds = c.rounds ++ List.range' (k + 1) (max m 1)
  | 0, k, m, ts, out, c, hc, h, hts, hn => by omega
  | n + 1, k, m, ts, out, c, hc, h, hts, hn => by
    obtain ⟨us, hus, h⟩ := h.expandCalls c.catalog
    obtain ⟨vs, d, hvs, h, hno⟩ := runGenerators_of_expansion h
      (c.noting (.roundStarted (k + 1) name)) hc
    obtain ⟨hd, hreg, -⟩ :=
      expansion_of_runGenerators (r := c.registry) generated_of_generation hvs hc
    have hrounds : d.rounds = c.rounds ++ [k + 1] := by
      rw [rounds_runGenerators hvs]
      simp [Compilation.rounds, Event.round?]
    obtain ⟨c', hc', hrest⟩ : ∃ c',
        Gives (expandRounds name n (k + 1) vs) (d.noting (.ofTokens name vs)) out c'
          ∧ c'.rounds = d.rounds ++ List.range' (k + 2) (max m 1 - 1) := by
      by_cases hm : m ≤ 1
      · have hdone : vs.any Token.isExpandable = false := by
          rw [← Bool.not_eq_true, h.any_isExpandable_iff hno]
          omega
        obtain ⟨-, rfl⟩ := h.unique Token.Generates.unique (.of_any_isExpandable_eq_false hdone)
        refine ⟨_, gives_expandRounds_of_done hdone, ?_⟩
        have hone : max m 1 - 1 = 0 := by omega
        simp [Compilation.rounds, Event.round?, Event.ofTokens, hone]
      · have hleft : vs.any Token.isExpandable = true := by
          rw [h.any_isExpandable_iff hno]
          omega
        obtain ⟨c', hc', hrest⟩ := expandRounds_of_expansion (n := n) (k := k + 1)
          (c := d.noting (.ofTokens name vs)) hd (hreg ▸ h) hleft (by omega)
        refine ⟨c', hc', ?_⟩
        have hmax : max (m - 1) 1 = max m 1 - 1 := by omega
        rw [hrest, hmax]
        simp [Compilation.rounds, Event.round?, Event.ofTokens]
    refine ⟨c', ?_, ?_⟩
    · rw [gives_expandRounds_succ, if_pos hts]
      exact ⟨us, vs, d, hus, hvs, hc'⟩
    · obtain ⟨j, hj⟩ : ∃ j, max m 1 = j + 1 := ⟨max m 1 - 1, by omega⟩
      rw [hrest, hrounds, hj, List.range'_succ]
      simp

end Forward

/-- Rounds that leave nothing to expand end in the one expansion that the tokens have; and tokens
that have an expansion, in which calls nest `m` deep, come to it by the rounds `1` to `max m 1`, if
there is anything to expand and that many rounds are allowed. The solver may have been asked for any
numbers before, but time must not run out for it. -/
theorem expandRounds_inlines (limits : Limits Float) (clock : Nat → Nat → Nat)
    (hclock : ∀ k n, clock k n < limits.timeoutMs) (numbers : List Float) (c : Compilation σ)
    (hsolver : c.solver = (Solver.new limits clock).after numbers) (name : String) (rounds : Nat)
    (ts : List Token) :
    (∀ out c', Gives (expandRounds name rounds 0 ts) c out c' →
      out.any Token.isExpandable = false →
        ∃ m, Expansion c.registry (Token.Generates limits) ts m out
          ∧ ∀ m' out', Expansion c.registry (Token.Generates limits) ts m' out' →
            m' = m ∧ out' = out)
    ∧ ∀ m out, Expansion c.registry (Token.Generates limits) ts m out →
      ts.any Token.isExpandable = true → max m 1 ≤ rounds →
        ∃ c', Gives (expandRounds name rounds 0 ts) c out c'
          ∧ out.any Token.isExpandable = false
          ∧ c'.rounds = c.rounds ++ List.range' 1 (max m 1) := by
  have hfaithful : c.solver.Faithful limits := by
    rw [hsolver]
    exact (Solver.new_faithful hclock).after numbers
  refine ⟨fun out c' h hout => ?_, fun m out h hts hm => ?_⟩
  · obtain ⟨m, hm⟩ := (expansion_of_expandRounds generated_of_generation h hfaithful).2 hout
    exact ⟨m, hm, fun m' out' h' => h'.unique Token.Generates.unique hm⟩
  · obtain ⟨c', hc', hrounds⟩ := expandRounds_of_expansion hfaithful h hts hm
    refine ⟨c', hc', h.any_isExpandable_out fun t p hp => ?_, hrounds⟩
    obtain ⟨s', events, hg⟩ := exists_generation hfaithful hp
    exact isExpandable_of_generation hg

/-- `outer` calls `inner` and generates a zero. -/
def nestedMacros : Registry :=
  ⟨.ofList [
    ("inner", [⟨.literal, .origin, "w", ""⟩]),
    ("outer", [⟨.call, .origin, "inner", ""⟩, ⟨.directive, .origin, "g num 0", ""⟩])] compare⟩

theorem nestedMacros_expansion :
    Expansion nestedMacros (Token.Generates Settings.defaultLimits)
      [⟨.call, .origin, "outer", ""⟩] 2
      [⟨.literal, .origin, "w", ""⟩, ⟨.literal, .origin, "aqaa", ""⟩] := by
  have hzero : Token.Generates Settings.defaultLimits
      ⟨.directive, .origin, "g num 0", ""⟩ ⟨.literal, .origin, "aqaa", ""⟩ := by
    have hread : readGenerator ⟨.directive, .origin, "g num 0", ""⟩ = .ok (.num, ["0"]) := by cbv
    have hnumber : Generator.num.readNumber ["0"] = .ok 0.0 := rfl
    have hpattern : (answer Settings.defaultLimits (0.0 : Float)).pattern = "aqaa" := by
      rw [answer, pattern_search_of_exact _ _ _ (by decide)]
      decide
    rw [Token.Generates, Token.generated, hread]
    change (Generator.num.readNumber ["0"] >>= fun x => Except.ok (⟨.literal, .origin,
      (answer Settings.defaultLimits x).pattern, ""⟩ : Token)) = _
    rw [hnumber, ← hpattern]
    rfl
  have hinner : nestedMacros.resolve "inner" = some [⟨.literal, .origin, "w", ""⟩] := rfl
  exact .call rfl rfl (.call rfl hinner (.self rfl .nil) (.generator rfl hzero .nil)) .nil

theorem expandRounds_inlines_nestedMacros :
    let c : Compilation Unit :=
      { Compilation.new Settings.default (fun _ _ => 0) ⟨""⟩ () with registry := nestedMacros }
    let ts : List Token := [⟨.call, .origin, "outer", ""⟩]
    let out : List Token := [⟨.literal, .origin, "w", ""⟩, ⟨.literal, .origin, "aqaa", ""⟩]
    ∃ c', Gives (expandRounds "main" 2 0 ts) c out c' ∧ c'.rounds = [1, 2]
      ∧ ∃ m, Expansion nestedMacros (Token.Generates Settings.defaultLimits) ts m out := by
  intro c ts out
  obtain ⟨hsound, hcomplete⟩ := expandRounds_inlines Settings.defaultLimits (fun _ _ => 0)
    (fun _ _ => by decide) [] c rfl "main" 2 ts
  obtain ⟨c', hc', hout, hrounds⟩ := hcomplete 2 out nestedMacros_expansion rfl (by decide)
  obtain ⟨m, hm, -⟩ := hsound out c' hc' hout
  exact ⟨c', hc', hrounds, m, hm⟩

end CompileM

end HexPatterns
