import Mathlib
import HexPatterns.Proofs.Contents
import HexPatterns.Proofs.Formats
import HexPatterns.Proofs.Pasting

/-!
# Literals that are compiled again

Tokens that are written out as literals are a source again. Its lines are those of the tokens'
texts, and in front of each text stands a `!`. If every text is one line and not empty, the source
has a literal for each of them and nothing else, and it compiles to the texts themselves.

This is the only way. When the source compiles to the texts without a round of expansion, it must
have as many tokens as lines, so none of them is a definition; and none is a call, because in a
round there is no macro to call. But a directive or a literal is shorter than its line, whereas a
line that continues a text would have to be compiled to itself. And the line of an empty text cannot
be read. So literals compile to the texts just in that case (`macrohex_compilesTo_iff`).
-/

namespace HexPatterns

namespace Text

theorem trim_isPrefix (cs : List Char) : trim cs <+: trimStart cs := by
  rw [← List.reverse_suffix, trim, trimEnd, List.reverse_reverse]
  exact List.dropWhile_suffix _

theorem trim_isInfix (cs : List Char) : trim cs <:+: cs := by
  have hend := trim_isPrefix cs
  have hstart : trimStart cs <:+ cs := List.dropWhile_suffix _
  exact hend.isInfix.trans hstart.isInfix

theorem trim_trim (cs : List Char) : trim (trim cs) = trim cs := by
  have hstart : trimStart (trim cs) = trim cs := by
    have hpre := trim_isPrefix cs
    rcases htrim : trim cs with _ | ⟨c, rest⟩
    · rfl
    · rw [htrim] at hpre
      obtain ⟨more, hmore⟩ := hpre
      have hhead := List.head?_dropWhile_not isBlank cs
      rw [← trimStart, ← hmore] at hhead
      have hc : isBlank c = false := hhead
      simp [trimStart, hc]
  have hend : trimEnd (trim cs) = trim cs := by
    rw [trim, trimEnd, trimEnd, List.reverse_reverse, trimStart, trimStart,
      List.dropWhile_idempotent]
  rw [trim, hstart, hend]

theorem lineTexts_bang (cs : List Char) :
    lineTexts ('!' :: cs) = (lineTexts cs).modifyHead ('!' :: ·) := by
  have hbang : ∀ c ∈ ['!'], ¬ IsBreak c := by simp [IsBreak]
  exact lineTexts_append_left hbang cs

/-- If every line with the `!`s is longer than the line without them, then no text has a second
line, because no `!` is put in front of that. -/
theorem notMem_newline_of_forall₂ : ∀ {texts : List (List Char)}, (∀ cs ∈ texts, '\r' ∉ cs) →
    List.Forall₂ (fun l r => r.length < l.length) (texts.flatMap fun cs => lineTexts ('!' :: cs))
      (texts.flatMap lineTexts) → ∀ cs ∈ texts, '\n' ∉ cs
  | [], _, _ => by simp
  | cs :: texts, hno, h => by
    obtain ⟨hcs, hno⟩ := List.forall_mem_cons.1 hno
    rcases hlines : lineTexts cs with _ | ⟨first, rest⟩
    · exact absurd hlines (lineTexts_ne_nil cs)
    · rw [List.flatMap_cons, List.flatMap_cons, lineTexts_bang, hlines, List.modifyHead_cons,
        List.cons_append, List.cons_append, List.forall₂_cons] at h
      obtain ⟨-, h⟩ := h
      have hrest : List.Forall₂ (fun l r : List Char => r.length < l.length) rest rest := by
        simpa using List.forall₂_take_append _ _ _ h
      have hmore := List.forall₂_drop_append _ _ _ h
      rw [List.drop_left] at hmore
      refine List.forall_mem_cons.2 ⟨?_, notMem_newline_of_forall₂ hno hmore⟩
      cases rest with
      | cons l rest => exact absurd (List.forall₂_cons.1 hrest).1 (Nat.lt_irrefl _)
      | nil =>
        have hcount := length_lineTexts hcs
        rw [hlines, List.length_singleton] at hcount
        exact List.count_eq_zero.1 (by omega)

end Text

/-- The texts of tokens as they are written out. -/
def texts (ts : List Token) : List (List Char) :=
  ts.map fun t => Text.trim t.content.toList

theorem toList_render_rawhex (ts : List Token) :
    (render .rawhex ts).toList = ['\n'].intercalate (texts ts) := by
  simp [render, texts, Token.trimmed, Text.trimmed, Function.comp_def]

theorem toList_render_macrohex (ts : List Token) :
    (render .macrohex ts).toList = ['\n'].intercalate ((texts ts).map ('!' :: ·)) := by
  simp [render, texts, Token.trimmed, Text.trimmed, Function.comp_def]

namespace Token

open Text

/-- The tokens are literals, with these contents. -/
def Literals (ts : List Token) (contents : List (List Char)) : Prop :=
  List.Forall₂ (fun t cs => t.kind = .literal ∧ t.content.toList = cs) ts contents

variable {origin : String}

theorem Clean.text {t : Token} (h : t.Clean) :
    Uncommented (trim t.content.toList) ∧ '\r' ∉ trim t.content.toList := by
  have hin := trim_isInfix t.content.toList
  refine ⟨?_, fun hmem => h.no_return (hin.subset hmem)⟩
  obtain ⟨a, b, hab⟩ := hin
  have hchain := h.uncommented
  rw [← hab] at hchain
  exact (List.isChain_append.1 (List.isChain_append.1 hchain).1).2.1

theorem Clean.newline_notMem_text {t : Token} (h : t.Clean) (hkind : t.kind ≠ .definition) :
    '\n' ∉ trim t.content.toList := by
  have hin := trim_isInfix t.content.toList
  exact fun hmem => h.no_newline hkind (hin.subset hmem)

theorem scanLine_bang (n : Nat) (cs : List Char) :
    scanLine origin n none ('!' :: cs) = scanMarked origin .literal '!' ⟨n, 0⟩ cs := by
  have hbang : isBlank '!' = false := by decide
  simp [scanLine, allBlank, hbang, scanOutside]

theorem exists_scanLines_literals : ∀ {lines : List (List Char)} (n : Nat), [] ∉ lines →
    ∃ ts, scanLines origin n none (lines.map ('!' :: ·)) = .ok ts
      ∧ Literals ts lines
  | [], n, _ => ⟨[], rfl, .nil⟩
  | cs :: lines, n, h => by
    obtain ⟨hcs, hlines⟩ := List.ne_and_not_mem_of_not_mem_cons h
    obtain ⟨ts, hts, hall⟩ := exists_scanLines_literals (n + 1) hlines
    refine ⟨⟨.literal, ⟨n, 0⟩, String.ofList cs, origin⟩ :: ts, ?_,
      .cons ⟨rfl, String.toList_ofList⟩ hall⟩
    refine scanLines_cons_eq_ok_iff.2 ⟨some _, none, ts, ?_, hts, rfl⟩
    rw [scanLine_bang, scanMarked, if_neg (by simpa using Ne.symm hcs)]

theorem nil_notMem_of_scanLines : ∀ {lines : List (List Char)} {n : Nat} {ts : List Token},
    scanLines origin n none (lines.map ('!' :: ·)) = .ok ts → [] ∉ lines
  | [], n, ts, _ => by simp
  | cs :: lines, n, ts, h => by
    obtain ⟨t?, o, us, hline, hrest, -⟩ := scanLines_cons_eq_ok_iff.1 h
    rw [scanLine_bang, scanMarked] at hline
    split at hline
    · cases hline
    · rename_i hcs
      cases hline
      rw [List.mem_cons, not_or]
      exact ⟨fun hnil => hcs (by simp [← hnil]), nil_notMem_of_scanLines hrest⟩

theorem length_le_of_scanLines : ∀ {lines : List (List Char)} {n : Nat} {o? : Option Opening}
    {ts : List Token}, scanLines origin n o? lines = .ok ts → ts.length ≤ lines.length
  | [], n, none, ts, h => by
    cases h
    exact Nat.le_refl _
  | [], n, some o, ts, h => by cases h
  | cs :: lines, n, o?, ts, h => by
    obtain ⟨t?, o, us, -, hrest, rfl⟩ := scanLines_cons_eq_ok_iff.1 h
    have hle := length_le_of_scanLines hrest
    have hone : t?.toList.length ≤ 1 := by cases t? <;> simp
    rw [List.length_append, List.length_cons]
    omega

/-- If every line has a token, and none of the tokens is a definition or a call, then the tokens are
shorter than their lines: the marker is missing. -/
theorem forall₂_of_scanLines : ∀ {lines : List (List Char)} {n : Nat} {ts : List Token},
    scanLines origin n none lines = .ok ts → lines.length ≤ ts.length →
      (∀ t ∈ ts, t.kind ≠ .definition ∧ t.kind ≠ .call) →
        List.Forall₂ (fun cs t => t.content.toList.length < cs.length) lines ts
  | [], n, ts, h, _, _ => by
    cases h
    exact .nil
  | cs :: lines, n, ts, h, hlength, hkind => by
    obtain ⟨t?, o, us, hline, hrest, rfl⟩ := scanLines_cons_eq_ok_iff.1 h
    have hle := length_le_of_scanLines hrest
    rw [List.length_append, List.length_cons] at hlength
    cases t? with
    | none =>
      rw [Option.toList_none, List.length_nil] at hlength
      omega
    | some t =>
      rw [Option.toList_some, List.length_singleton] at hlength
      obtain ⟨ht, hus⟩ := List.forall_mem_cons.1 hkind
      have hyield : Outside origin cs (some t, o) := by
        simp only [scanLine] at hline
        split at hline
        · cases hline
        · exact outside_of_scanOutside hline
      generalize hy : (some t, o) = y at hyield
      cases hyield with
      | blank => cases hy
      | token _ _ hlt =>
        cases hy
        have hmore : List.Forall₂ (fun cs t => t.content.toList.length < cs.length) lines us :=
          forall₂_of_scanLines hrest (by omega) hus
        exact .cons (hlt ht.2) hmore
      | opened => exact absurd (origin_of_scanInside hy.symm).2 ht.1

end Token

section Passes

variable {catalog : Catalog}

theorem registerDefinitions_of_ne (r : Registry) : ∀ {ts : List Token},
    (∀ t ∈ ts, t.kind ≠ .definition) → registerDefinitions catalog r ts = (r, .ok ts)
  | [], _ => rfl
  | t :: ts, h => by
    obtain ⟨ht, hts⟩ := List.forall_mem_cons.1 h
    rw [registerDefinitions, if_neg ht, registerDefinitions_of_ne r hts]
    rfl

theorem kind_ne_call_of_expandCalls : ∀ {ts us : List Token},
    expandCalls catalog .empty ts = .ok us → ∀ t ∈ ts, t.kind ≠ .call
  | [], us, _ => by simp
  | t :: ts, us, h => by
    obtain ⟨here, rest, hhere, hrest, -⟩ := expandCalls_cons_eq_ok_iff.1 h
    refine List.forall_mem_cons.2 ⟨?_, kind_ne_call_of_expandCalls hrest⟩
    rcases expandCall_eq_ok_iff.1 hhere with ⟨-, hbody⟩ | ⟨ht, -⟩
    · simp [Registry.resolve, Registry.lookup, Registry.empty] at hbody
    · exact ht

end Passes

namespace CompileM

variable {σ : Type} [FileStore σ] {c c' : Compilation σ} {path : Path} {settings : Settings}
  {clock : Nat → Nat → Nat} {home : Path} {store : σ}

/-- A file of literals expands to them, with no macro and nothing to warn of. -/
theorem gives_expandedTokens_of_literals (clock : Nat → Nat → Nat) (home : Path)
    {ts : List Token} (hstd : settings.includeStd = false)
    (hfile : FileStore.isFile store path = true) (hlex : Lexes store path ts)
    (hkind : ∀ t ∈ ts, t.kind = .literal) :
    ∃ c, Gives (expandedTokens path) (Compilation.new settings clock home store) ts c
      ∧ c.registry = .empty ∧ ∀ e ∈ c.log, e.isWarning = false := by
  have hown : ∀ t ∈ ts, t.isInclude = false := fun t ht => by
    simp [Token.isInclude, hkind t ht]
  have hdone : ts.any Token.isExpandable = false := by
    simp only [List.any_eq_false, Bool.not_eq_true]
    exact fun t ht => Token.isExpandable_eq_false_iff.2 (.inl (hkind t ht))
  obtain ⟨catalog, henter⟩ := gives_enter_of_own includeFile
    (c := Compilation.new settings clock home store) hstd hfile (Compilation.isIncluded_new ..)
    hlex hown
  have hreg : registerDefinitions catalog .empty ts = (.empty, .ok ts) :=
    registerDefinitions_of_ne .empty fun t ht => by simp [hkind t ht]
  refine ⟨_, (gives_expandedTokens_of_new (Compilation.isIncluded_new ..)).2
    ⟨ts, _, henter, gives_expandFile.2 ⟨_, ts, _, hreg, gives_expandRounds_of_done hdone, rfl⟩⟩,
    Compilation.finished_registry, ?_⟩
  simp [Compilation.finished, hdone, Compilation.entered, Compilation.new, Event.ofTokens,
    Event.isWarning]

section Alone

variable (hs : ∀ p, FileStore.isFile store p = true → p.baseName = path.baseName)

theorem eq_nil_of_contribution {n : Nat} {out : List Token}
    (hseen : c.isIncluded path.baseName = true) (h : Gives (contribution n path) c out c') :
    out = [] ∧ c'.included = c.included := by
  cases n with
  | zero =>
    simp only [contribution, gives_pure] at h
    exact ⟨h.1, by rw [h.2]⟩
  | succ n =>
    rcases gives_contribution_succ.1 h with ⟨henter, rfl⟩ | ⟨d, henter, -⟩
    · obtain ⟨-, henter⟩ := gives_enter.1 henter
      rw [if_pos hseen] at henter
      exact ⟨rfl, by rw [henter.2, Compilation.noting_included]⟩
    · obtain ⟨-, henter⟩ := gives_enter.1 henter
      rw [if_pos hseen] at henter
      cases henter.1

include hs

/-- Where all files have one name, includes in a file of that name contribute nothing. -/
theorem eq_ownTokens_of_resolveIncludes : ∀ {ts out : List Token} {c c' : Compilation σ},
    c.store = store → c.isIncluded path.baseName = true →
      Gives (resolveIncludesBy includeFile ts) c out c' → out = ownTokens ts
  | [], out, c, c', _, _, h => by
    simp only [resolveIncludesBy, gives_pure] at h
    exact h.1
  | t :: ts, out, c, c', hstore, hseen, h => by
    obtain ⟨here, rest, d, hhere, hrest, rfl⟩ := gives_resolveIncludesBy_cons.1 h
    split at hhere
    · rename_i ht
      obtain ⟨file, hreach, hhere⟩ := hhere
      have hname := hs file (hstore ▸ hreach.isFile)
      obtain ⟨rfl, hincluded⟩ := eq_nil_of_contribution (by rw [hname, hseen])
        (gives_includeFile.1 hhere)
      have hseen : d.isIncluded path.baseName = true := by
        rw [Compilation.isIncluded, hincluded]
        exact hseen
      have hstore := (kept_includeFile hhere).store.trans hstore
      rw [eq_ownTokens_of_resolveIncludes hstore hseen hrest, ownTokens, ownTokens,
        List.filter_cons_of_neg (by simp [ht]), List.nil_append]
    · rename_i ht
      obtain ⟨rfl, rfl⟩ := hhere
      rw [eq_ownTokens_of_resolveIncludes hstore hseen hrest, ownTokens, ownTokens,
        List.filter_cons_of_pos (by simpa using ht), List.singleton_append]

theorem exists_of_compile {r : String} (hstd : settings.includeStd = false)
    (h : Gives (compile path) (Compilation.new settings clock home store) r c) :
    ∃ ts out, ∃ d e : Compilation σ, Lexes store path ts
      ∧ Gives (expandFile path.baseName (ownTokens ts)) d out e
      ∧ d.registry = .empty ∧ d.settings = settings ∧ r = render settings.outputFormat out := by
  obtain ⟨out, hout, rfl⟩ := gives_compile.1 h
  obtain ⟨us, d, henter, hexpand⟩ :=
    (gives_expandedTokens_of_new (Compilation.isIncluded_new ..)).1 hout
  have hkept := kept_enter kept_includeFile henter
  obtain ⟨-, henter⟩ := gives_enter.1 henter
  rw [if_neg (by simp [Compilation.isIncluded_new])] at henter
  obtain ⟨ts, e, vs, e', hts, hvs, heq, -⟩ := henter
  cases heq
  obtain ⟨hlex, catalog, rfl⟩ := lexes_of_tokensOf hts hstd
  have hown := eq_ownTokens_of_resolveIncludes hs (by rfl) (by simp [Compilation.isIncluded]) hvs
  exact ⟨ts, out, d, c, hlex, hown ▸ hexpand, hkept.registry, hkept.settings, rfl⟩

/-- Without rounds, the file's own tokens are written out but for the definitions. -/
theorem exists_of_compile_no_rounds {r : String} (hstd : settings.includeStd = false)
    (hrounds : settings.maxIterations = 0)
    (h : Gives (compile path) (Compilation.new settings clock home store) r c) :
    ∃ ts, Lexes store path ts
      ∧ r = render settings.outputFormat (withoutDefinitions (ownTokens ts)) := by
  obtain ⟨ts, out, d, e, hlex, hexpand, -, hsettings, rfl⟩ := exists_of_compile hs hstd h
  obtain ⟨registry, us, f, hreg, hout, -⟩ := gives_expandFile.1 hexpand
  rw [hsettings, hrounds, expandRounds, gives_pure] at hout
  refine ⟨ts, hlex, ?_⟩
  rw [hout.1, eq_withoutDefinitions_of_registerDefinitions hreg]

/-- With rounds, a file without definitions has no calls of its own. -/
theorem exists_of_compile_rounds {r : String} (hstd : settings.includeStd = false)
    (hrounds : 0 < settings.maxIterations)
    (h : Gives (compile path) (Compilation.new settings clock home store) r c) :
    ∃ ts, Lexes store path ts ∧ ((∀ t ∈ ownTokens ts, t.kind ≠ .definition) →
      ∀ t ∈ ownTokens ts, t.kind ≠ .call) := by
  obtain ⟨ts, out, d, e, hlex, hexpand, hempty, hsettings, rfl⟩ := exists_of_compile hs hstd h
  refine ⟨ts, hlex, fun hdefs => ?_⟩
  obtain ⟨registry, us, f, hreg, hout, -⟩ := gives_expandFile.1 hexpand
  obtain ⟨n, hn⟩ := Nat.exists_eq_add_one.2 hrounds
  rw [hempty, registerDefinitions_of_ne .empty hdefs] at hreg
  cases hreg
  rw [hsettings, hn, gives_expandRounds_succ] at hout
  split at hout
  · obtain ⟨us, -, -, hcalls, -⟩ := hout
    exact kind_ne_call_of_expandCalls hcalls
  · rename_i hdone
    intro t ht hcall
    exact hdone (List.any_eq_true.2 ⟨t, ht, Token.isExpandable_iff.2 (.inr hcall)⟩)

end Alone

/-- Alone in a file, the text compiles to these patterns: wherever the file is, and whatever the
settings say, but that there is no library and patterns are written out as they are. -/
def CompilesTo (text r : String) : Prop :=
  ∀ (settings : Settings) (clock : Nat → Nat → Nat) (home path : Path),
    settings.includeStd = false → settings.outputFormat = .rawhex →
      ∃ c, Gives (compile path)
        (Compilation.new settings clock home (FileSet.mk [(path, text)])) r c

end CompileM

section Texts

open Text CompileM

variable {out ts : List Token} {origin : String}

theorem flatMap_lineTexts {ls : List (List Char)} (h : ∀ cs ∈ ls, '\r' ∉ cs ∧ '\n' ∉ cs) :
    ls.flatMap lineTexts = ls := by
  induction ls with
  | nil => rfl
  | cons cs ls ih =>
    obtain ⟨hcs, hls⟩ := List.forall_mem_cons.1 h
    have hbreak : ∀ c ∈ cs, ¬ IsBreak c := by
      rintro c hc (rfl | rfl)
      · exact hcs.1 hc
      · exact hcs.2 hc
    rw [List.flatMap_cons, lineTexts_of_not_isBreak hbreak, ih hls, List.singleton_append]

theorem notMem_return_of_clean (hclean : ∀ t ∈ out, t.Clean) : ∀ cs ∈ texts out, '\r' ∉ cs := by
  intro cs hcs
  obtain ⟨t, ht, rfl⟩ := List.mem_map.1 hcs
  exact (hclean t ht).text.2

theorem lineTexts_rawhex (hne : texts out ≠ []) (hno : ∀ cs ∈ texts out, '\r' ∉ cs) :
    lineTexts (render .rawhex out).toList = (texts out).flatMap lineTexts := by
  rw [toList_render_rawhex, lineTexts_intercalate hne hno]

theorem lineTexts_macrohex (hne : texts out ≠ []) (hno : ∀ cs ∈ texts out, '\r' ∉ cs) :
    lineTexts (render .macrohex out).toList
      = (texts out).flatMap fun cs => lineTexts ('!' :: cs) := by
  have hbang : ∀ cs ∈ (texts out).map ('!' :: ·), '\r' ∉ cs := by
    intro cs hcs
    obtain ⟨ds, hds, rfl⟩ := List.mem_map.1 hcs
    simp [hno ds hds]
  rw [toList_render_macrohex, lineTexts_intercalate (by simpa using hne) hbang, List.flatMap_map]

/-- The lines of one-line texts that are written out as literals, freed of comments. -/
theorem map_dropComment_macrohex (hclean : ∀ t ∈ out, t.Clean) (hne : texts out ≠ [])
    (hline : ∀ cs ∈ texts out, '\n' ∉ cs) :
    (lineTexts (render .macrohex out).toList).map dropComment
      = (texts out).map ('!' :: ·) := by
  have hno := notMem_return_of_clean hclean
  have hlines : ((texts out).map ('!' :: ·)).flatMap lineTexts = (texts out).map ('!' :: ·) := by
    refine flatMap_lineTexts fun cs hcs => ?_
    obtain ⟨ds, hds, rfl⟩ := List.mem_map.1 hcs
    simp [hno ds hds, hline ds hds]
  rw [lineTexts_macrohex hne hno, ← List.flatMap_map, hlines, List.map_map]
  refine List.map_congr_left fun cs hcs => ?_
  obtain ⟨t, ht, rfl⟩ := List.mem_map.1 hcs
  have hbang : Uncommented ('!' :: trim t.content.toList) :=
    List.isChain_cons.2 ⟨by simp, (hclean t ht).text.1⟩
  exact hbang.dropComment_eq

theorem exists_scan_macrohex (origin : String) (hclean : ∀ t ∈ out, t.Clean)
    (hfull : [] ∉ texts out) (hline : ∀ cs ∈ texts out, '\n' ∉ cs) :
    ∃ ts, Token.scan origin 0 (render .macrohex out).toList = .ok ts
      ∧ Token.Literals ts (texts out) := by
  by_cases hne : texts out = []
  · refine ⟨[], ?_, hne ▸ .nil⟩
    rw [toList_render_macrohex, hne]
    rfl
  · rw [Token.scan_eq_scanLines, map_dropComment_macrohex hclean hne hline]
    exact Token.exists_scanLines_literals 0 hfull

theorem texts_of_literals {ls : List (List Char)} (h : Token.Literals ts ls) :
    (∀ t ∈ ts, t.kind = .literal) ∧ texts ts = ls.map trim := by
  induction h with
  | nil => exact ⟨by simp, rfl⟩
  | cons ht _ ih =>
    obtain ⟨hkind, htexts⟩ := ih
    refine ⟨List.forall_mem_cons.2 ⟨ht.1, hkind⟩, ?_⟩
    rw [texts, List.map_cons, ← texts, htexts, ht.2, List.map_cons]

theorem compilesTo_of_texts (hclean : ∀ t ∈ out, t.Clean) (hfull : [] ∉ texts out)
    (hline : ∀ cs ∈ texts out, '\n' ∉ cs) :
    CompilesTo (render .macrohex out) (render .rawhex out) := by
  intro settings clock home path hstd hformat
  obtain ⟨ts, hscan, hall⟩ := exists_scan_macrohex path.text hclean hfull hline
  have htrim : (texts out).map trim = texts out := by
    rw [texts, List.map_map]
    exact List.map_congr_left fun t _ => trim_trim _
  obtain ⟨hkind, htexts⟩ := texts_of_literals hall
  obtain ⟨c, hc, -⟩ := gives_expandedTokens_of_literals clock home hstd
    (FileSet.isFile_cons_self []) ⟨_, FileSet.read_cons_self [], hscan⟩ hkind
  have hsame : (render .rawhex out).toList = (render .rawhex ts).toList := by
    rw [toList_render_rawhex, toList_render_rawhex, htexts, htrim]
  refine ⟨c, gives_compile.2 ⟨ts, hc, ?_⟩⟩
  rw [Compilation.new, hformat]
  exact String.toList_injective hsame

theorem texts_of_render_eq_empty (hne : texts out ≠ []) (h : (render .rawhex out).toList = []) :
    texts out = [[]] := by
  rw [toList_render_rawhex] at h
  rcases htexts : texts out with _ | ⟨cs, _ | ⟨ds, rest⟩⟩
  · exact absurd htexts hne
  · rw [htexts, List.intercalate_singleton] at h
    rw [h]
  · rw [htexts, List.intercalate_cons_cons] at h
    simp at h

/-- Let the tokens of the source be written out, but for definitions, as what the source was made
of. Then each of its lines has a token, which is no definition and is written out as one line. -/
theorem plain_of_scan (hclean : ∀ t ∈ out, t.Clean) (hne : texts out ≠ [])
    (hscan : Token.scan origin 0 (render .macrohex out).toList = .ok ts)
    (hraw : render .rawhex out = render .rawhex (withoutDefinitions (ownTokens ts))) :
    withoutDefinitions (ownTokens ts) = ts ∧ texts ts = (texts out).flatMap lineTexts
      ∧ (lineTexts (render .macrohex out).toList).length = ts.length := by
  have hno := notMem_return_of_clean hclean
  have hsub : (withoutDefinitions (ownTokens ts)).Sublist ts :=
    List.filter_sublist.trans List.filter_sublist
  have hone : ∀ cs ∈ texts (withoutDefinitions (ownTokens ts)), '\r' ∉ cs ∧ '\n' ∉ cs := by
    intro cs hcs
    obtain ⟨t, ht, rfl⟩ := List.mem_map.1 hcs
    have hread := Token.clean_of_scan hscan t (hsub.subset ht)
    have hkind : t.kind ≠ .definition := by simpa using (List.mem_filter.1 ht).2
    exact ⟨hread.text.2, hread.newline_notMem_text hkind⟩
  generalize withoutDefinitions (ownTokens ts) = plain at hraw hsub hone
  have hfull : texts plain ≠ [] := by
    intro hnil
    have hempty : (render .rawhex out).toList = [] := by
      rw [hraw, toList_render_rawhex, hnil, List.intercalate_nil]
    rw [toList_render_macrohex, texts_of_render_eq_empty hne hempty] at hscan
    cases hscan
  have htexts : texts plain = (texts out).flatMap lineTexts := by
    rw [← lineTexts_rawhex hne hno, hraw, lineTexts_rawhex hfull fun cs hcs => (hone cs hcs).1,
      flatMap_lineTexts hone]
  have hlength : (lineTexts (render .macrohex out).toList).length = plain.length := by
    have htokens : (texts plain).length = plain.length := List.length_map _
    rw [← htokens, htexts, lineTexts_macrohex hne hno, List.length_flatMap, List.length_flatMap]
    simp only [lineTexts_bang, List.length_modifyHead]
  have hle : ts.length ≤ (lineTexts (render .macrohex out).toList).length := by
    rw [Token.scan_eq_scanLines] at hscan
    simpa using Token.length_le_of_scanLines hscan
  obtain rfl := hsub.eq_of_length_le (hlength ▸ hle)
  exact ⟨rfl, htexts, hlength⟩

/-- If there are no calls among the tokens either, then every text is one line that is not empty. -/
theorem texts_of_scan (hclean : ∀ t ∈ out, t.Clean)
    (hscan : Token.scan origin 0 (render .macrohex out).toList = .ok ts)
    (hraw : render .rawhex out = render .rawhex (withoutDefinitions (ownTokens ts)))
    (hcalls : (∀ t ∈ ownTokens ts, t.kind ≠ .definition) → ∀ t ∈ ownTokens ts, t.kind ≠ .call) :
    [] ∉ texts out ∧ ∀ cs ∈ texts out, '\n' ∉ cs := by
  by_cases hne : texts out = []
  · simp [hne]
  have hno := notMem_return_of_clean hclean
  obtain ⟨hplain, htexts, hlength⟩ := plain_of_scan hclean hne hscan hraw
  have hkind : ∀ t ∈ ts, t.kind ≠ .definition := by
    intro t ht
    rw [← hplain] at ht
    simpa using (List.mem_filter.1 ht).2
  have hown : ∀ t ∈ ts, t ∈ ownTokens ts := by
    intro t ht
    rw [← hplain] at ht
    exact List.mem_of_mem_filter ht
  have hkinds : ∀ t ∈ ts, t.kind ≠ .definition ∧ t.kind ≠ .call := fun t ht =>
    ⟨hkind t ht, hcalls (fun u hu => hkind u (List.mem_of_mem_filter hu)) t (hown t ht)⟩
  rw [Token.scan_eq_scanLines] at hscan
  have hshort := Token.forall₂_of_scanLines hscan (by rw [List.length_map, hlength]) hkinds
  have hlines : List.Forall₂ (fun l r => r.length < l.length)
      (lineTexts (render .macrohex out).toList) (texts ts) := by
    rw [texts, List.forall₂_map_right_iff]
    refine (List.forall₂_map_left_iff.1 hshort).imp fun l t ht => ?_
    have hpre := dropComment_prefix l
    have hin := trim_isInfix t.content.toList
    exact (hin.length_le.trans_lt ht).trans_le hpre.length_le
  rw [htexts, lineTexts_macrohex hne hno] at hlines
  have hline := notMem_newline_of_forall₂ hno hlines
  rw [map_dropComment_macrohex hclean hne hline] at hscan
  exact ⟨Token.nil_notMem_of_scanLines hscan, hline⟩

theorem FileSet.baseName_eq_of_isFile {main p : Path} {text name : String}
    (hname : main.fileName? = some name)
    (h : FileStore.isFile (FileSet.mk [(main, text)]) p = true) : p.baseName = main.baseName := by
  refine Path.baseName_eq_of_same hname ?_
  simpa [FileStore.isFile, FileSet.isFile, FileSet.find?, List.find?_singleton] using h

theorem texts_of_compilesTo (hclean : ∀ t ∈ out, t.Clean)
    (h : CompilesTo (render .macrohex out) (render .rawhex out)) :
    [] ∉ texts out ∧ ∀ cs ∈ texts out, '\n' ∉ cs := by
  have hname : Path.fileName? ⟨"main.macrohex"⟩ = some "main.macrohex" := by decide
  have hs : ∀ p,
      FileStore.isFile (FileSet.mk [(⟨"main.macrohex"⟩, render .macrohex out)]) p = true →
        p.baseName = Path.baseName ⟨"main.macrohex"⟩ :=
    fun p hp => FileSet.baseName_eq_of_isFile hname hp
  obtain ⟨c, hc⟩ := h { plainSettings with maxIterations := 0 } (fun _ _ => 0) ⟨""⟩
    ⟨"main.macrohex"⟩ rfl rfl
  obtain ⟨d, hd⟩ := h { plainSettings with maxIterations := 1 } (fun _ _ => 0) ⟨""⟩
    ⟨"main.macrohex"⟩ rfl rfl
  obtain ⟨ts, ⟨text, hread, hscan⟩, hraw⟩ := exists_of_compile_no_rounds hs rfl rfl hc
  obtain ⟨us, ⟨text', hread', hscan'⟩, hcalls⟩ :=
    exists_of_compile_rounds hs rfl Nat.one_pos hd
  cases (FileSet.read_cons_self []).symm.trans hread
  cases (FileSet.read_cons_self []).symm.trans hread'
  cases hscan.symm.trans hscan'
  exact texts_of_scan hclean hscan hraw hcalls

theorem forall_trimmed_iff :
    (∀ t ∈ out, t.trimmed ≠ "" ∧ '\n' ∉ t.trimmed.toList)
      ↔ [] ∉ texts out ∧ ∀ cs ∈ texts out, '\n' ∉ cs := by
  have htext : ∀ t : Token, t.trimmed.toList = trim t.content.toList := fun t =>
    String.toList_ofList
  have hempty : ∀ t : Token, t.trimmed = "" ↔ trim t.content.toList = [] := fun t => by
    rw [← htext, String.toList_eq_nil_iff]
  simp only [texts, List.mem_map, not_exists, not_and, forall_exists_index, and_imp,
    forall_apply_eq_imp_iff₂, htext, ne_eq, hempty]
  exact ⟨fun h => ⟨fun t ht => (h t ht).1, fun t ht => (h t ht).2⟩,
    fun h t ht => ⟨h.1 t ht, h.2 t ht⟩⟩

/-- Let a new compilation of a file write out `r` as raw patterns, with time enough. Then one that
is told to write out literals, and is else the same, also gives a result `m`. Alone in a file, this
compiles to `r` just if of every token that is written out one line is left when the blanks around
it are taken away, and not nothing. -/
theorem macrohex_compilesTo_iff (settings : Settings) (clock clock' : Nat → Nat → Nat)
    (home path : Path) (store : FileSet) (r : String) (c : Compilation FileSet)
    (hclock : ∀ k n, clock k n < settings.solver.timeoutMs)
    (hclock' : ∀ k n, clock' k n < settings.solver.timeoutMs)
    (h : Gives (compile path)
      (Compilation.new { settings with outputFormat := .rawhex } clock home store) r c) :
    ∃ out m c',
      Gives (expandedTokens path)
          (Compilation.new { settings with outputFormat := .rawhex } clock home store) out c
        ∧ Gives (compile path)
          (Compilation.new { settings with outputFormat := .macrohex } clock' home store) m c'
        ∧ (CompilesTo m r ↔ ∀ t ∈ out, t.trimmed ≠ "" ∧ '\n' ∉ t.trimmed.toList) := by
  obtain ⟨out, hout, rfl⟩ := gives_compile.1 h
  obtain ⟨out', c', hout', halike⟩ :=
    exists_alike_expandedTokens (g := .macrohex) hclock hclock' hout
  have hclean := clean_of_expandedTokens Registry.all_empty
    (Synthesis.Solver.new_faithful hclock) hout
  refine ⟨out, render .macrohex out, c', hout, gives_compile.2 ⟨out', hout', ?_⟩, ?_⟩
  · exact render_eq halike .macrohex
  · rw [forall_trimmed_iff]
    exact ⟨texts_of_compilesTo hclean, fun ⟨hfull, hline⟩ => compilesTo_of_texts hclean hfull hline⟩

/-- A file with one text. -/
def mainFile (text : String) : FileSet :=
  ⟨[(⟨"main.macrohex"⟩, text)]⟩

/-- A new compilation of the file, without the library. -/
def mainCompilation (format : OutputFormat) (text : String) : Compilation FileSet :=
  .new { plainSettings with outputFormat := format } (fun _ _ => 0) ⟨""⟩ (mainFile text)

theorem gives_mainCompilation (format : OutputFormat) {text : String} {ts : List Token}
    (hscan : Token.scan "main.macrohex" 0 text.toList = .ok ts)
    (hkind : ∀ t ∈ ts, t.kind = .literal) :
    ∃ c, Gives (expandedTokens ⟨"main.macrohex"⟩) (mainCompilation format text) ts c
      ∧ Gives (compile ⟨"main.macrohex"⟩) (mainCompilation format text) (render format ts) c := by
  have hlex : Lexes (mainFile text) ⟨"main.macrohex"⟩ ts :=
    ⟨text, FileSet.read_cons_self [], hscan⟩
  obtain ⟨c, hc, -⟩ : ∃ c,
      Gives (expandedTokens ⟨"main.macrohex"⟩) (mainCompilation format text) ts c
        ∧ c.registry = .empty ∧ ∀ e ∈ c.log, e.isWarning = false :=
    gives_expandedTokens_of_literals (fun _ _ => 0) ⟨""⟩ rfl (FileSet.isFile_cons_self []) hlex
      hkind
  exact ⟨c, hc, gives_compile.2 ⟨ts, hc, rfl⟩⟩

theorem macrohex_compilesTo_iff_blanks :
    ∃ c m c', Gives (compile ⟨"main.macrohex"⟩) (mainCompilation .rawhex "! a\t\n\n!b //c") "a\nb" c
      ∧ Gives (compile ⟨"main.macrohex"⟩) (mainCompilation .macrohex "! a\t\n\n!b //c") m c'
      ∧ CompilesTo m "a\nb" := by
  have hscan : Token.scan "main.macrohex" 0 "! a\t\n\n!b //c".toList
      = .ok [⟨.literal, ⟨0, 0⟩, " a\t", "main.macrohex"⟩,
        ⟨.literal, ⟨2, 0⟩, "b ", "main.macrohex"⟩] := by cbv
  obtain ⟨c, hexpand, hcompile⟩ := gives_mainCompilation .rawhex hscan (by simp)
  obtain ⟨out, m, c', hout, hm, hiff⟩ := macrohex_compilesTo_iff plainSettings (fun _ _ => 0)
    (fun _ _ => 0) ⟨""⟩ ⟨"main.macrohex"⟩ (mainFile "! a\t\n\n!b //c") _ c (fun _ _ => by decide)
    (fun _ _ => by decide) hcompile
  obtain ⟨rfl, -⟩ := hexpand.unique hout
  have hrender : render .rawhex [⟨.literal, ⟨0, 0⟩, " a\t", "main.macrohex"⟩,
      ⟨.literal, ⟨2, 0⟩, "b ", "main.macrohex"⟩] = "a\nb" := by cbv
  rw [hrender] at hcompile hiff
  refine ⟨c, m, c', hcompile, hm, hiff.2 ?_⟩
  decide

/-- A blank literal is written out as a `!`, which is no source. -/
theorem blankLiteral_not_recompiled :
    (∃ c, Gives (compile ⟨"main.macrohex"⟩) (mainCompilation .rawhex "! ") "" c)
      ∧ (∃ c, Gives (compile ⟨"main.macrohex"⟩) (mainCompilation .macrohex "! ") "!" c)
      ∧ ∃ d c, Fails (compile ⟨"main.macrohex"⟩) (mainCompilation .rawhex "!") d c
        ∧ d.fault = .emptyDirective '!' := by
  have hscan : Token.scan "main.macrohex" 0 "! ".toList
      = .ok [⟨.literal, ⟨0, 0⟩, " ", "main.macrohex"⟩] := by cbv
  have hraw : render .rawhex [⟨.literal, ⟨0, 0⟩, " ", "main.macrohex"⟩] = "" := by cbv
  have hliteral : render .macrohex [⟨.literal, ⟨0, 0⟩, " ", "main.macrohex"⟩] = "!" := by cbv
  obtain ⟨c, -, hc⟩ := gives_mainCompilation .rawhex hscan (by simp)
  obtain ⟨d, -, hd⟩ := gives_mainCompilation .macrohex hscan (by simp)
  rw [hraw] at hc
  rw [hliteral] at hd
  have hread : FileStore.read (mainFile "!") ⟨"main.macrohex"⟩ = .ok "!" :=
    FileSet.read_cons_self []
  have hbang : Token.scan "main.macrohex" 0 "!".toList
      = .error (.emptyDirective '!' ⟨0, 0⟩) := by cbv
  obtain ⟨e, f, hfails, hfault⟩ := fails_enter_of_scan includeFile
    (c := mainCompilation .rawhex "!") rfl (FileSet.isFile_cons_self [])
    (Compilation.isIncluded_new ..) hread hbang
  refine ⟨⟨c, hc⟩, ⟨d, hd⟩, e, f, ?_, hfault⟩
  rw [compile, fails_bind, expandedTokens, fails_bind]
  exact .inl (.inl hfails)

end Texts

end HexPatterns
