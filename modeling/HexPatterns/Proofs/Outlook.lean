import Mathlib
import HexPatterns.Proofs.Library
import HexPatterns.Proofs.Recursion

/-!
# What includes depend on

Includes are resolved by the files, by whether there is a library and what its files are, and by the
names seen so far. Two compilations that are level in these resolve includes alike, to whatever
depths they follow them, if only the depths suffice (`CompileM.inStep_contribution`). The library
has to be quiet: its files have been included, so that it adds nothing.
-/

namespace HexPatterns

namespace Compilation

variable {σ : Type} [FileStore σ] {c c' d d' e : Compilation σ}

/-- The files of the library, whether or not they have been looked for. -/
def libraryList (c : Compilation σ) : List Path :=
  c.library.getD ((FileStore.sourcesUnder c.store (c.settings.libraryPath c.home)).getD [])

/-- What is looked at to resolve includes, and does not change. -/
def outlook (c : Compilation σ) : σ × Bool × List Path :=
  (c.store, c.settings.includeStd, c.libraryList)

/-- The includes that are put in front of the file. -/
def injected (c : Compilation σ) (path : Path) : List Token :=
  if c.settings.includeStd then libraryTokens path.text c.libraryList else []

structure Level (c d : Compilation σ) : Prop where
  outlook : d.outlook = c.outlook
  seen : d.seen = c.seen

structure Later (c c' : Compilation σ) : Prop where
  outlook : c'.outlook = c.outlook
  seen : c.seen ⊆ c'.seen

theorem store_of_outlook (h : d.outlook = c.outlook) : d.store = c.store :=
  congrArg Prod.fst h

theorem std_of_outlook (h : d.outlook = c.outlook) :
    d.settings.includeStd = c.settings.includeStd :=
  congrArg (fun o : σ × Bool × List Path => o.2.1) h

theorem libraryList_of_outlook (h : d.outlook = c.outlook) : d.libraryList = c.libraryList :=
  congrArg (fun o : σ × Bool × List Path => o.2.2) h

theorem injected_of_outlook (h : d.outlook = c.outlook) (path : Path) :
    d.injected path = c.injected path := by
  rw [injected, injected, std_of_outlook h, libraryList_of_outlook h]

theorem injected_eq {s : σ} {files : List Path} (h : c.outlook = (s, true, files)) (path : Path) :
    c.injected path = libraryTokens path.text files := by
  have hstd : c.settings.includeStd = true := congrArg (fun o : σ × Bool × List Path => o.2.1) h
  have hlist : c.libraryList = files := congrArg (fun o : σ × Bool × List Path => o.2.2) h
  rw [injected, if_pos hstd, hlist]

theorem Level.refl (c : Compilation σ) : Level c c := ⟨rfl, rfl⟩

theorem Level.symm (h : Level c d) : Level d c := ⟨h.outlook.symm, h.seen.symm⟩

theorem Level.trans (h : Level c d) (h' : Level d e) : Level c e :=
  ⟨h'.outlook.trans h.outlook, h'.seen.trans h.seen⟩

theorem Level.later (h : Level c c') : Later c c' := ⟨h.outlook, h.seen.ge⟩

theorem Later.trans (h : Later c d) (h' : Later d e) : Later c e :=
  ⟨h'.outlook.trans h.outlook, h.seen.trans h'.seen⟩

theorem level_noting (c : Compilation σ) (e : Event) : Level c (c.noting e) := ⟨rfl, rfl⟩

theorem level_staged (c : Compilation σ) (stage : Stage) (name : String) (ts : List Token) :
    Level c (c.staged stage name ts) := ⟨rfl, rfl⟩

theorem Level.marked (h : Level c d) (name : String) : Level (c.marked name) (d.marked name) :=
  ⟨h.outlook, by rw [seen_marked, seen_marked, h.seen]⟩

theorem later_marked (c : Compilation σ) (name : String) : Later c (c.marked name) :=
  ⟨rfl, by rw [seen_marked]; exact Set.subset_insert _ _⟩

/-- What the includes in front of files come to has been included. -/
def Quiet (c : Compilation σ) : Prop :=
  ∀ path, ∀ t ∈ c.injected path, ∀ q, Reaches c.store t q → q.baseName ∈ c.seen

theorem Quiet.later (h : Quiet c) (hlater : Later c c') : Quiet c' := by
  intro path t ht q hq
  rw [injected_of_outlook hlater.outlook] at ht
  rw [store_of_outlook hlater.outlook] at hq
  exact hlater.seen (h path t ht q hq)

end Compilation

namespace CompileM

open Compilation

section Level

variable {σ α : Type} [FileStore σ] {c c' d d' : Compilation σ}

/-- Both end with the same result, and are level again. -/
def SameEnd (c : Compilation σ) (a : α) (c' : Compilation σ) (b : α) (d' : Compilation σ) : Prop :=
  a = b ∧ Later c c' ∧ Level c' d'

theorem gives_libraryFiles (c : Compilation σ) :
    ∃ c', Gives libraryFiles c c.libraryList c' ∧ Level c c' := by
  simp only [libraryFiles, gives_bind, gives_get, exists_and_left, and_assoc, exists_eq_left]
  rcases hlibrary : c.library with _ | files
  · simp only [gives_bind, gives_ite, gives_note, gives_modify, gives_pure, exists_and_left,
      exists_eq_left, exists_const]
    split
    all_goals
      refine ⟨_, ⟨by simp [libraryList, hlibrary], rfl⟩, ?_, rfl⟩
      simp [outlook, libraryList, hlibrary, noting]
  · simp only [gives_pure]
    exact ⟨c, ⟨by simp [libraryList, hlibrary], rfl⟩, .refl c⟩

/-- A file that can be read: how it is taken apart is a matter of its text. -/
theorem run_tokensOf {path : Path} {text : String} (name : String)
    (hread : FileStore.read c.store path = .ok text) :
    ∃ c', Level c c' ∧ (tokensOf path name).run.run c
      = (((SourceText.ofText name text).scan path.text 0 text.toList).map (c.injected path ++ ·),
        c') := by
  have hlevel : Level c { c with catalog := c.catalog.insert path.text (.ofText name text) } :=
    ⟨rfl, rfl⟩
  rw [tokensOf, (gives_get.2 ⟨rfl, rfl⟩).run_bind]
  simp only [hread]
  rw [Gives.run_bind (a := ⟨⟩) (gives_modify.2 rfl), (gives_get.2 ⟨rfl, rfl⟩).run_bind]
  by_cases hstd : c.settings.includeStd = true
  · obtain ⟨c', hfiles, hlevel'⟩ := gives_libraryFiles
      { c with catalog := c.catalog.insert path.text (.ofText name text) }
    have hinjected : c.injected path = libraryTokens path.text c.libraryList := if_pos hstd
    refine ⟨c', hlevel.trans hlevel', ?_⟩
    simp only [hstd, if_true, pure_bind]
    rw [hfiles.run_bind, hinjected]
    cases (SourceText.ofText name text).scan path.text 0 text.toList <;> rfl
  · have hinjected : c.injected path = [] := if_neg hstd
    refine ⟨_, hlevel, ?_⟩
    simp only [hstd, pure_bind]
    rw [hinjected]
    cases (SourceText.ofText name text).scan path.text 0 text.toList <;> rfl

theorem gives_tokensOf_injected {path : Path} {own : List Token} (name : String)
    (hlex : Lexes c.store path own) :
    ∃ c', Gives (tokensOf path name) c (c.injected path ++ own) c' ∧ Level c c' := by
  obtain ⟨text, hread, hscan⟩ := hlex
  obtain ⟨c', hlevel, hrun⟩ := run_tokensOf name hread
  rw [SourceText.scan_eq_ok_iff.2 hscan] at hrun
  exact ⟨c', hrun, hlevel⟩

theorem inStep_tokensOf (path : Path) (name : String) (h : Level c d) :
    InStep (fun ts c' us d' => ts = us
        ∧ (∃ own, Lexes c.store path own ∧ ts = c.injected path ++ own) ∧ Level c c' ∧ Level d d')
      (tokensOf path name) c (tokensOf path name) d := by
  have hstore := store_of_outlook h.outlook
  cases hread : FileStore.read c.store path with
  | error reason =>
    rw [tokensOf]
    refine .after_get ?_
    rw [hstore, hread]
    exact .inr ⟨_, c, _, d, fails_throw.2 ⟨rfl, rfl⟩, fails_throw.2 ⟨rfl, rfl⟩, rfl⟩
  | ok text =>
    obtain ⟨c', hc, hrun⟩ := run_tokensOf name hread
    obtain ⟨d', hd, hrun'⟩ := run_tokensOf (c := d) name (hstore ▸ hread)
    rw [injected_of_outlook h.outlook] at hrun'
    cases hscan : (SourceText.ofText name text).scan path.text 0 text.toList with
    | error e =>
      rw [hscan] at hrun hrun'
      exact .inr ⟨e, c', e, d', hrun, hrun', rfl⟩
    | ok own =>
      rw [hscan] at hrun hrun'
      have hlex : Lexes c.store path own := ⟨text, hread, SourceText.scan_eq_ok_iff.1 hscan⟩
      exact .of_gives hrun hrun' ⟨rfl, ⟨own, hlex, rfl⟩, hc, hd⟩

theorem inStep_includedFile (t : Token) (h : Level c d) :
    InStep (fun p c' q d' => p = q ∧ c = c' ∧ d = d' ∧ Reaches c.store t p)
      (includedFile t) c (includedFile t) d := by
  rw [includedFile]
  refine .after (gives_sourceOf.2 ⟨rfl, rfl⟩) (gives_sourceOf.2 ⟨rfl, rfl⟩) ?_
  split
  · rename_i word requested hwords
    refine .after (gives_includePath.2 ⟨rfl, rfl⟩) (gives_includePath.2 ⟨rfl, rfl⟩) (.after_get ?_)
    rw [store_of_outlook h.outlook]
    split
    · rename_i hfile
      exact .of_pure ⟨rfl, rfl, rfl, word, requested, hwords, rfl, hfile⟩
    · exact .inr ⟨_, c, _, d, fails_throw.2 ⟨rfl, rfl⟩, fails_throw.2 ⟨rfl, rfl⟩, rfl⟩
  · exact .inr ⟨_, c, _, d, fails_throw.2 ⟨rfl, rfl⟩, fails_throw.2 ⟨rfl, rfl⟩, rfl⟩

variable {follow follow' : Path → CompileM σ (List Token)}

/-- From the compilation on, both ways to follow the path end the same. -/
def Agree (follow follow' : Path → CompileM σ (List Token)) (c : Compilation σ) (q : Path) : Prop :=
  ∀ c' d', Later c c' → Level c' d' → InStep (SameEnd c') (follow q) c' (follow' q) d'

theorem Agree.later {q : Path} (h : Agree follow follow' c q) (hlater : Later c c') :
    Agree follow follow' c' q :=
  fun e f he => h e f (hlater.trans he)

theorem inStep_resolveIncludesBy : ∀ {ts : List Token} {c d : Compilation σ}, Level c d →
    (∀ t ∈ ts, t.isInclude = true → ∀ q, Reaches c.store t q → Agree follow follow' c q) →
      InStep (SameEnd c) (resolveIncludesBy follow ts) c (resolveIncludesBy follow' ts) d
  | [], c, d, h, _ => .of_pure ⟨rfl, (Level.refl c).later, h⟩
  | t :: ts, c, d, h, hagree => by
    obtain ⟨ht, hts⟩ := List.forall_mem_cons.1 hagree
    have hrest : ∀ here c' here' d', SameEnd c here c' here' d' →
        InStep (SameEnd c) (do let rest ← resolveIncludesBy follow ts; return here ++ rest) c'
          (do let rest ← resolveIncludesBy follow' ts; return here' ++ rest) d' := by
      rintro here c' _ d' ⟨rfl, hlater, hlevel⟩
      refine (inStep_resolveIncludesBy hlevel fun u hu hinclude q hq => ?_).bind ?_
      · rw [store_of_outlook hlater.outlook] at hq
        exact (hts u hu hinclude q hq).later hlater
      · rintro rest e _ f ⟨rfl, hlater', hlevel'⟩
        exact .of_pure ⟨rfl, hlater.trans hlater', hlevel'⟩
    rw [resolveIncludesBy, resolveIncludesBy]
    split
    · rename_i hinclude
      refine (inStep_includedFile t h).bind ?_
      rintro q _ _ _ ⟨rfl, rfl, rfl, hreach⟩
      exact (ht hinclude q hreach c d (Level.refl c).later h).bind hrest
    · exact hrest [t] c [t] d ⟨rfl, (Level.refl c).later, h⟩

theorem inStep_enter {path : Path} (h : Level c d)
    (hagree : ∀ own, Lexes c.store path own → c.isIncluded path.baseName = false →
      ∀ t ∈ c.injected path ++ own, t.isInclude = true → ∀ q, Reaches c.store t q →
        Agree follow follow' (c.marked path.baseName) q) :
    InStep (SameEnd c) (enter follow path) c (enter follow' path) d := by
  have hincluded : d.isIncluded path.baseName = c.isIncluded path.baseName :=
    Bool.eq_iff_iff.2 (Set.ext_iff.1 h.seen path.baseName)
  rw [enter, enter]
  refine .after_get ?_
  rw [store_of_outlook h.outlook]
  split
  · exact .inr ⟨_, c, _, d, fails_throw.2 ⟨rfl, rfl⟩, fails_throw.2 ⟨rfl, rfl⟩, rfl⟩
  refine .after_get ?_
  rw [hincluded]
  split
  · refine .after_note (.of_pure ⟨rfl, (c.level_noting _).later, ?_⟩)
    exact (c.level_noting _).symm.trans (h.trans (d.level_noting _))
  rename_i hnew
  refine .after (a := ⟨⟩) (b := ⟨⟩) (gives_modify.2 rfl) (gives_modify.2 rfl) ?_
  refine (inStep_tokensOf path path.baseName (h.marked path.baseName)).bind ?_
  rintro ts c₁ _ d₁ ⟨rfl, ⟨own, hlex, rfl⟩, hc, hd⟩
  have hstart := hc.trans (level_staged c₁ .tokenization path.baseName (c.injected path ++ own))
  have hstart' := hd.trans (level_staged d₁ .tokenization path.baseName (c.injected path ++ own))
  refine .after_noteStage ((inStep_resolveIncludesBy
    (hstart.symm.trans ((h.marked _).trans hstart')) ?_).bind ?_)
  · intro t ht hinclude q hq
    rw [show _ = c.store from store_of_outlook hstart.outlook] at hq
    exact (hagree own hlex (Bool.eq_false_iff.2 hnew) t ht hinclude q hq).later hstart.later
  · rintro out c₂ _ d₂ ⟨rfl, hlater, hlevel⟩
    refine .after_noteStage (.of_pure ⟨rfl, ?_, ?_⟩)
    · exact ((c.later_marked _).trans (hstart.later.trans hlater)).trans (level_staged ..).later
    · exact (level_staged ..).symm.trans (hlevel.trans (level_staged ..))

theorem agree_again (n m : Nat) {q : Path} (hfile : FileStore.isFile c.store q = true)
    (hseen : q.baseName ∈ c.seen) : Agree (contribution n) (contribution m) c q := by
  intro c' d' hlater hlevel
  have hfile' : FileStore.isFile c'.store q = true := store_of_outlook hlater.outlook ▸ hfile
  have hseen' : q.baseName ∈ c'.seen := hlater.seen hseen
  obtain ⟨log, hc, -⟩ := gives_contribution_again n hfile' hseen'
  obtain ⟨log', hd, -⟩ := gives_contribution_again m (c := d')
    (store_of_outlook hlevel.outlook ▸ hfile') (hlevel.seen.ge hseen')
  exact .of_gives hc hd ⟨rfl, ⟨rfl, subset_rfl⟩, hlevel.outlook, hlevel.seen⟩

/-- Includes are followed from the path to the end: fewer than `n` names are to come. -/
def Suffices (n : Nat) (c : Compilation σ) (path : Path) : Prop :=
  ∃ P N, ClosedUnder c.store P N ∧ P path ∧ unseen N c < n

theorem Suffices.step {n : Nat} {path q : Path} {own : List Token} {t : Token}
    (h : Suffices (n + 1) c path) (hnew : path.baseName ∉ c.seen) (hlex : Lexes c.store path own)
    (ht : t ∈ own) (hinclude : t.isInclude = true) (hq : Reaches c.store t q)
    (hlater : Later (c.marked path.baseName) c') : Suffices n c' q := by
  obtain ⟨P, N, hclosed, hpath, hlt⟩ := h
  have hstore : c'.store = c.store := store_of_outlook hlater.outlook
  refine ⟨P, N, hstore ▸ hclosed, hclosed.step hpath hlex ht hinclude hq, ?_⟩
  have hle := unseen_le (N := N) hlater.seen
  have hmarked := unseen_lt_unseen (c.seen_marked _) (hclosed.baseName_mem hpath) hnew
  omega

/-- With a quiet library, includes resolve alike to whatever depths that suffice. -/
theorem inStep_contribution : ∀ {n m : Nat} {path : Path} {c d : Compilation σ}, Quiet c →
    Suffices n c path → Suffices m c path → Level c d →
      InStep (SameEnd c) (contribution n path) c (contribution m path) d
  | 0, _, _, _, _, _, ⟨_, _, _, _, hlt⟩, _, _ => absurd hlt (Nat.not_lt_zero _)
  | _ + 1, 0, _, _, _, _, _, ⟨_, _, _, _, hlt⟩, _ => absurd hlt (Nat.not_lt_zero _)
  | n + 1, m + 1, path, c, d, hquiet, hn, hm, h => by
    rw [contribution, contribution]
    refine (inStep_enter h ?_).bind ?_
    · intro own hlex hnew t ht hinclude q hq
      rcases List.mem_append.1 ht with ht | ht
      · exact agree_again n m hq.isFile ((c.later_marked _).seen (hquiet path t ht q hq))
      · intro c' d' hlater hlevel
        have hnew' : path.baseName ∉ c.seen := Bool.eq_false_iff.1 hnew
        exact inStep_contribution (hquiet.later ((c.later_marked _).trans hlater))
          (hn.step hnew' hlex ht hinclude hq hlater) (hm.step hnew' hlex ht hinclude hq hlater)
          hlevel
    · rintro (_ | out) c' _ d' ⟨rfl, hlater, hlevel⟩
      · exact .of_pure ⟨rfl, hlater, hlevel⟩
      · refine .after_note (.of_pure ⟨rfl, hlater.trans (level_noting ..).later, ?_⟩)
        exact (level_noting ..).symm.trans (hlevel.trans (level_noting ..))

end Level

end CompileM

end HexPatterns
