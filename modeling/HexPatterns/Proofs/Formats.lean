import Mathlib
import HexPatterns.Proofs.Alike

/-!
# Formats differ in the last step

The work on includes looks at two of the settings, whether there is a library and where, and at the
solver not at all. Under settings that agree in these it does the same (`CompileM.Suits`). From
there on compilations with the same limits go in step. So a file expands to alike tokens whatever
the format they are written out in (`CompileM.exists_alike_expandedTokens`), and the format comes in
where the tokens are written out (`CompileM.gives_compile`).
-/

namespace HexPatterns

/-- The compilation, as if it had other settings and another solver. -/
def Compilation.under {σ : Type} (c : Compilation σ) (s : Settings)
    (solver : Synthesis.Solver Float) : Compilation σ :=
  { c with settings := s, solver }

namespace CompileM

variable {σ : Type} {s : Settings} {solver : Synthesis.Solver Float} {c c' d : Compilation σ}
  {path : Path}

/-- The settings say the same of the library as those of the compilation. -/
structure Suits (s : Settings) (c : Compilation σ) : Prop where
  includeStd : c.settings.includeStd = s.includeStd
  stdPath : c.settings.stdPath = s.stdPath

theorem Suits.kept (h : Suits s c) (hkept : c.Kept d) : Suits s d :=
  ⟨by rw [hkept.settings, h.includeStd], by rw [hkept.settings, h.stdPath]⟩

theorem Suits.noting (h : Suits s c) (e : Event) : Suits s (c.noting e) :=
  ⟨h.includeStd, h.stdPath⟩

section Includes

variable [FileStore σ]

theorem gives_libraryFiles_under {files : List Path} (hc : Suits s c)
    (h : Gives libraryFiles c files c') :
    Gives libraryFiles (c.under s solver) files (c'.under s solver) := by
  have hdir : s.libraryPath c.home = c.settings.libraryPath c.home := by
    rw [Settings.libraryPath, Settings.libraryPath, hc.stdPath]
  simp only [libraryFiles, gives_bind, gives_get, exists_and_left, and_assoc, exists_eq_left,
    Compilation.under, hdir] at h ⊢
  split at h
  · simp only [gives_pure] at h
    obtain ⟨rfl, rfl⟩ := h
    simp
  · simp only [gives_bind, gives_ite, gives_note, gives_modify, gives_pure, exists_and_left,
      exists_eq_left, exists_const] at h ⊢
    split at h
    all_goals
      obtain ⟨rfl, rfl⟩ := h
      simp [*, Compilation.noting]

theorem gives_tokensOf_under {name : String} {ts : List Token} (hc : Suits s c)
    (h : Gives (tokensOf path name) c ts c') :
    Gives (tokensOf path name) (c.under s solver) ts (c'.under s solver) := by
  have hstore : (c.under s solver).store = c.store := rfl
  simp only [tokensOf, gives_bind, gives_get, exists_and_left, and_assoc, exists_eq_left,
    hstore] at h ⊢
  split at h
  · simp at h
  · rename_i text _
    simp only [gives_bind, gives_get, gives_modify, gives_ite, gives_pure, gives_liftM,
      exists_and_left, and_assoc, exists_eq_left, exists_const, hc.includeStd] at h ⊢
    have hstd : (c.under s solver).settings.includeStd = s.includeStd := rfl
    rw [hstd]
    split at h
    · rename_i hlibrary
      obtain ⟨files, d, hfiles, own, hown, rfl, rfl⟩ := h
      have hread : Suits s { c with
          catalog := c.catalog.insert path.text (SourceText.ofText name text) } :=
        ⟨hc.includeStd, hc.stdPath⟩
      rw [if_pos hlibrary]
      exact ⟨files, _, gives_libraryFiles_under hread hfiles, own, hown, rfl, rfl⟩
    · rename_i hlibrary
      obtain ⟨own, hown, hts, rfl⟩ := h
      rw [if_neg hlibrary]
      exact ⟨own, hown, hts, rfl⟩

section Follow

variable {follow : Path → CompileM σ (List Token)}
  (hkept : ∀ {p c ts c'}, Gives (follow p) c ts c' → c.Kept c')
  (hfollow : ∀ {p c ts c'}, Suits s c → Gives (follow p) c ts c' →
    Gives (follow p) (c.under s solver) ts (c'.under s solver))

include hkept hfollow

theorem gives_resolveIncludesBy_under : ∀ {ts out : List Token} {c c' : Compilation σ},
    Suits s c → Gives (resolveIncludesBy follow ts) c out c' →
      Gives (resolveIncludesBy follow ts) (c.under s solver) out (c'.under s solver)
  | [], out, c, c', _, h => by
    simp only [resolveIncludesBy, gives_pure] at h ⊢
    exact ⟨h.1, by rw [h.2]⟩
  | t :: ts, out, c, c', hc, h => by
    obtain ⟨here, rest, d, hhere, hrest, rfl⟩ := gives_resolveIncludesBy_cons.1 h
    refine gives_resolveIncludesBy_cons.2 ⟨here, rest, d.under s solver, ?_⟩
    split at hhere
    · rename_i hinclude
      obtain ⟨file, hreach, hhere⟩ := hhere
      rw [if_pos hinclude]
      exact ⟨⟨file, hreach, hfollow hc hhere⟩,
        gives_resolveIncludesBy_under (hc.kept (hkept hhere)) hrest, rfl⟩
    · rename_i hinclude
      obtain ⟨rfl, rfl⟩ := hhere
      rw [if_neg hinclude]
      exact ⟨⟨rfl, rfl⟩, gives_resolveIncludesBy_under hc hrest, rfl⟩

theorem gives_enter_under {result : Option (List Token)} (hc : Suits s c)
    (h : Gives (enter follow path) c result c') :
    Gives (enter follow path) (c.under s solver) result (c'.under s solver) := by
  obtain ⟨hfile, h⟩ := gives_enter.1 h
  refine gives_enter.2 ⟨hfile, ?_⟩
  have hincluded : (c.under s solver).isIncluded path.baseName = c.isIncluded path.baseName := rfl
  rw [hincluded]
  split at h
  · rename_i hold
    obtain ⟨rfl, rfl⟩ := h
    rw [if_pos hold]
    exact ⟨rfl, rfl⟩
  · rename_i hnew
    obtain ⟨ts, d, us, e, hts, hus, rfl, rfl⟩ := h
    have hentered : Suits s { c with included := c.included.insert path.baseName } :=
      ⟨hc.includeStd, hc.stdPath⟩
    have hd : Suits s d := hentered.kept (kept_tokensOf hts)
    rw [if_neg hnew]
    exact ⟨ts, d.under s solver, us, e.under s solver, gives_tokensOf_under hentered hts,
      gives_resolveIncludesBy_under hkept hfollow ((hd.noting _).noting _) hus, rfl, rfl⟩

end Follow

theorem gives_contribution_under : ∀ {n : Nat} {path : Path} {out : List Token}
    {c c' : Compilation σ}, Suits s c → Gives (contribution n path) c out c' →
      Gives (contribution n path) (c.under s solver) out (c'.under s solver)
  | 0, path, out, c, c', _, h => by
    simp only [contribution, gives_pure] at h ⊢
    exact ⟨h.1, by rw [h.2]⟩
  | n + 1, path, out, c, c', hc, h => by
    refine gives_contribution_succ.2 ?_
    rcases gives_contribution_succ.1 h with ⟨henter, rfl⟩ | ⟨d, henter, rfl⟩
    · exact .inl ⟨gives_enter_under kept_contribution gives_contribution_under hc henter, rfl⟩
    · exact .inr ⟨d.under s solver,
        gives_enter_under kept_contribution gives_contribution_under hc henter, rfl⟩

theorem gives_includeFile_under {out : List Token} (hc : Suits s c)
    (h : Gives (includeFile path) c out c') :
    Gives (includeFile path) (c.under s solver) out (c'.under s solver) :=
  gives_includeFile.2 (gives_contribution_under hc (gives_includeFile.1 h))

end Includes

section Settings

theorem settings_of_expandFile {name : String} {ts out : List Token}
    (h : Gives (expandFile name ts) c out c') : c'.settings = c.settings := by
  obtain ⟨r, us, d, -, hrounds, rfl⟩ := gives_expandFile.1 h
  obtain ⟨solver, log, rfl⟩ := exists_eq_of_expandRounds hrounds
  unfold Compilation.finished
  split <;> rfl

theorem settings_of_expandedTokens [FileStore σ] {out : List Token}
    (h : Gives (expandedTokens path) c out c') : c'.settings = c.settings := by
  rw [expandedTokens, gives_bind] at h
  obtain ⟨_ | ts, d, henter, h⟩ := h
  · simp only [gives_pure] at h
    rw [h.2, (kept_enter kept_includeFile henter).settings]
  · rw [settings_of_expandFile h, (kept_enter kept_includeFile henter).settings]

/-- What is compiled are the tokens that the file expands to, in the format of the settings. -/
theorem gives_compile [FileStore σ] {r : String} :
    Gives (compile path) c r c' ↔
      ∃ out, Gives (expandedTokens path) c out c' ∧ r = render c.settings.outputFormat out := by
  simp only [compile, gives_bind, gives_get, gives_pure]
  constructor
  · rintro ⟨out, d, hout, _, _, ⟨rfl, rfl⟩, rfl, rfl⟩
    exact ⟨out, hout, by rw [settings_of_expandedTokens hout]⟩
  · rintro ⟨out, hout, rfl⟩
    exact ⟨out, c', hout, c', c', ⟨rfl, rfl⟩, by rw [settings_of_expandedTokens hout], rfl⟩

end Settings

/-- With time enough, a file that expands to tokens under some settings expands to alike tokens
under settings that differ from them in the format. -/
theorem exists_alike_expandedTokens [FileStore σ] {settings : Settings} {f g : OutputFormat}
    {clock clock' : Nat → Nat → Nat} {home : Path} {store : σ} {out : List Token}
    (hclock : ∀ k n, clock k n < settings.solver.timeoutMs)
    (hclock' : ∀ k n, clock' k n < settings.solver.timeoutMs)
    (h : Gives (expandedTokens path)
      (Compilation.new { settings with outputFormat := f } clock home store) out c) :
    ∃ out' c', Gives (expandedTokens path)
        (Compilation.new { settings with outputFormat := g } clock' home store) out' c'
      ∧ List.Forall₂ Token.Alike out out' := by
  obtain ⟨ts, d, henter, hexpand⟩ :=
    (gives_expandedTokens_of_new (Compilation.isIncluded_new ..)).1 h
  have hkept := kept_enter kept_includeFile henter
  have henter' : Gives (enter includeFile path)
      ((Compilation.new { settings with outputFormat := f } clock home store).under
        { settings with outputFormat := g } (.new settings.solver clock')) (some ts)
      (d.under { settings with outputFormat := g } (.new settings.solver clock')) :=
    gives_enter_under kept_includeFile gives_includeFile_under ⟨rfl, rfl⟩ henter
  have hpeers : Peers { settings with outputFormat := f } { settings with outputFormat := g } d
      (d.under { settings with outputFormat := g } (.new settings.solver clock')) := by
    refine ⟨hkept.settings, rfl, rfl, ?_, ?_, Synthesis.Solver.new_faithful hclock'⟩
    · have hempty : d.registry = .empty := hkept.registry
      rw [Compilation.under, hempty]
      exact Registry.empty_alike
    · rw [hkept.solver]
      exact Synthesis.Solver.new_faithful hclock
  rcases inStep_expandFile path.baseName path.baseName (List.forall₂_same.2 fun t _ => .refl t)
    hpeers with ⟨us, e, us', e', hus, hus', halike, -⟩ | ⟨_, _, _, _, hfails, -⟩
  · obtain ⟨rfl, -⟩ := hexpand.unique hus
    exact ⟨us', e', (gives_expandedTokens_of_new (Compilation.isIncluded_new ..)).2
      ⟨ts, _, henter', hus'⟩, halike⟩
  · exact absurd hfails hexpand.not_fails

end CompileM

end HexPatterns
