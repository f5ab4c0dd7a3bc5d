import Mathlib
import HexPatterns.Proofs.Leftovers
import HexPatterns.Proofs.Places

/-!
# What tokens can hold

A line is read up to its first `//`, and no line end is part of it. So no token that was read holds
`//` or `\r`, and only a definition holds `\n`. Generated literals are made of moves. Includes of
the library are the only tokens that are made up otherwise, and none of them outlives the include
pass. Hence all the tokens that a file expands to are clean (`CompileM.clean_of_expandedTokens`).
-/

namespace HexPatterns

namespace Text

/-- No two slashes follow each other. -/
def Uncommented (cs : List Char) : Prop :=
  cs.IsChain fun a b => ¬ (a = '/' ∧ b = '/')

theorem dropComment_uncommented (cs : List Char) : Uncommented (dropComment cs) := by
  fun_induction dropComment cs with
  | case1 => exact .nil
  | case2 => exact .nil
  | case3 c cs hno ih =>
    refine List.isChain_cons.2 ⟨?_, ih⟩
    rintro d hd ⟨rfl, rfl⟩
    have hpre := dropComment_prefix cs
    rcases cs with _ | ⟨e, cs⟩
    · simp [dropComment] at hd
    · obtain ⟨rest, hrest⟩ := hpre
      rcases hdrop : dropComment (e :: cs) with _ | ⟨f, fs⟩
      · simp [hdrop] at hd
      · rw [hdrop] at hrest hd
        obtain rfl : f = '/' := by simpa using hd
        obtain ⟨rfl, -⟩ := List.cons.inj hrest
        exact hno cs rfl rfl

theorem Uncommented.dropComment_eq {cs : List Char} (h : Uncommented cs) : dropComment cs = cs := by
  fun_induction dropComment cs with
  | case1 => rfl
  | case2 => exact absurd ⟨rfl, rfl⟩ (List.isChain_cons_cons.1 h).1
  | case3 c cs _ ih => rw [ih (List.isChain_cons.1 h).2]

theorem uncommented_of_notMem : ∀ {cs : List Char}, '/' ∉ cs → Uncommented cs
  | [], _ => .nil
  | c :: cs, h => by
    obtain ⟨hc, hcs⟩ := List.ne_and_not_mem_of_not_mem_cons h
    exact List.isChain_cons.2 ⟨fun _ _ hslash => hc hslash.1.symm, uncommented_of_notMem hcs⟩

end Text

namespace Token

open Text

/-- The token holds no comment, and no line end unless it is a definition. -/
structure Clean (t : Token) : Prop where
  uncommented : Uncommented t.content.toList
  no_return : '\r' ∉ t.content.toList
  no_newline : t.kind ≠ .definition → '\n' ∉ t.content.toList

variable {origin : String} {n column : Nat} {cs : List Char}

/-- Reading inside a definition takes the whole line, or comes to the end of the definition. -/
theorem scanInside_cases (origin : String) (o : Opening) (cs : List Char) :
    (∃ p : Opening, scanInside origin o cs = (none, some p)
      ∧ p.read = '\n' :: (cs.reverse ++ o.read))
    ∨ ∃ t : Token, scanInside origin o cs = (some t, none) ∧ t.kind = .definition
      ∧ ∃ read, read <+: cs ∧ t.content.toList = o.read.reverse ++ read := by
  unfold scanInside
  split
  · rename_i p hread
    obtain ⟨-, hread⟩ := Opening.of_readLine_eq_inl hread
    exact .inl ⟨p.push '\n', rfl, by rw [Opening.push, hread]⟩
  · rename_i content hread
    obtain ⟨read, hpre, rfl⟩ := Opening.of_readLine_eq_inr hread
    exact .inr ⟨_, rfl, rfl, read, hpre, String.toList_ofList⟩

/-- What a line gives outside a definition: nothing, or a token of the rest of the line, or it opens
a definition. The marker of a token that is no call is not part of the token. -/
inductive Outside (origin : String) (cs : List Char) : Yield → Prop
  | blank : Outside origin cs (none, none)
  | token {t : Token} : t.kind ≠ .definition → t.content.toList <:+ cs →
      (t.kind ≠ .call → t.content.toList.length < cs.length) → Outside origin cs (some t, none)
  | opened {o : Opening} {rest : List Char} : o.read = [] → rest <:+ cs →
      Outside origin cs (scanInside origin o rest)

theorem Outside.cons {y : Yield} (h : Outside origin cs y) (c : Char) :
    Outside origin (c :: cs) y := by
  cases h with
  | blank => exact .blank
  | token hkind hsuffix hlt =>
    exact .token hkind (hsuffix.trans (List.suffix_cons _ _))
      fun hc => (hlt hc).trans (Nat.lt_succ_self _)
  | opened ho hsuffix => exact .opened ho (hsuffix.trans (List.suffix_cons _ _))

theorem outside_of_scanMarked {kind : Kind} {marker : Char} {p : Position} {y : Yield}
    (hkind : kind ≠ .definition) (h : scanMarked origin kind marker p cs = .ok y) :
    Outside origin (marker :: cs) y := by
  unfold scanMarked at h
  split at h
  · cases h
  · cases h
    refine .token hkind ?_ fun _ => ?_
    · rw [String.toList_ofList]
      exact List.suffix_cons _ _
    · rw [String.toList_ofList]
      exact Nat.lt_succ_self _

theorem outside_of_scanOutside {y : Yield} (h : scanOutside origin n column cs = .ok y) :
    Outside origin cs y := by
  fun_induction scanOutside origin n column cs with
  | case1 column =>
    cases h
    exact .blank
  | case2 column cs ih => exact (ih h).cons _
  | case3 column cs ih => exact (ih h).cons _
  | case4 column cs => exact outside_of_scanMarked (by decide) h
  | case5 column cs => exact outside_of_scanMarked (by decide) h
  | case6 column cs =>
    cases h
    exact .opened rfl (List.suffix_cons _ _)
  | case7 column cs _ _ _ _ _ _ =>
    cases h
    refine .token (by simp) ?_ fun hc => absurd rfl hc
    rw [String.toList_ofList]

/-- What was read of the definition so far is clean and does not end with a slash. -/
structure Opening.Clean (o : Opening) : Prop where
  uncommented : Uncommented o.read.reverse
  no_return : '\r' ∉ o.read
  no_slash : '/' ∉ o.read.head?

def Yield.Clean (y : Yield) : Prop :=
  (∀ t ∈ y.1, t.Clean) ∧ ∀ o ∈ y.2, o.Clean

theorem Opening.Clean.push {o : Opening} (h : o.Clean) : (o.push '\n').Clean := by
  refine ⟨?_, by simpa [Opening.push] using h.no_return, by simp [Opening.push]⟩
  rw [Opening.push, List.reverse_cons]
  exact List.isChain_append.2 ⟨h.uncommented, List.isChain_singleton _, by simp⟩

theorem Opening.clean_of_read_eq_nil {o : Opening} (h : o.read = []) : o.Clean :=
  ⟨by simp [h, Uncommented], by simp [h], by simp [h]⟩

/-- Behind what was read so far comes no slash that could make a comment of it. -/
theorem Opening.Clean.append {o : Opening} (h : o.Clean) (hcs : Uncommented cs) :
    Uncommented (o.read.reverse ++ cs) := by
  refine List.isChain_append.2 ⟨h.uncommented, hcs, fun a ha b _ hab => ?_⟩
  rw [List.getLast?_reverse] at ha
  rw [hab.1] at ha
  exact h.no_slash ha

theorem scanInside_clean {o : Opening} (ho : o.Clean) (hcs : Uncommented cs)
    (hbreak : ∀ c ∈ cs, ¬ IsBreak c) : Yield.Clean (scanInside origin o cs) := by
  rcases scanInside_cases origin o cs with ⟨p, hy, hread⟩ | ⟨t, hy, hkind, read, hpre, hcontent⟩
  · rw [hy]
    refine ⟨by simp, ?_⟩
    simp only [Option.mem_some_iff, forall_eq']
    refine ⟨?_, ?_, by simp [hread]⟩
    · rw [hread, List.reverse_cons, List.reverse_append, List.reverse_reverse]
      exact List.isChain_append.2 ⟨ho.append hcs, List.isChain_singleton _, by simp⟩
    · have hno : '\r' ∉ cs := fun hmem => hbreak _ hmem (.inl rfl)
      simp [hread, hno, ho.no_return]
  · rw [hy]
    refine ⟨?_, by simp⟩
    simp only [Option.mem_some_iff, forall_eq']
    refine ⟨?_, ?_, fun hk => absurd hkind hk⟩
    · obtain ⟨rest, rfl⟩ := hpre
      rw [hcontent]
      exact ho.append (List.isChain_append.1 hcs).1
    · have hno : '\r' ∉ read := fun hmem => hbreak _ (hpre.mem hmem) (.inl rfl)
      simp [hcontent, hno, ho.no_return]

theorem Outside.clean {y : Yield} (h : Outside origin cs y) (hcs : Uncommented cs)
    (hbreak : ∀ c ∈ cs, ¬ IsBreak c) : y.Clean := by
  cases h with
  | blank => simp [Yield.Clean]
  | @token t hkind hsuffix _ =>
    refine ⟨?_, by simp⟩
    simp only [Option.mem_some_iff, forall_eq']
    exact ⟨hcs.suffix hsuffix, fun hmem => hbreak _ (hsuffix.mem hmem) (.inl rfl),
      fun _ hmem => hbreak _ (hsuffix.mem hmem) (.inr rfl)⟩
  | opened ho hsuffix =>
    exact scanInside_clean (Opening.clean_of_read_eq_nil ho) (hcs.suffix hsuffix)
      fun c hc => hbreak c (hsuffix.mem hc)

theorem scanLine_clean {o? : Option Opening} {y : Yield} (ho : ∀ o ∈ o?, o.Clean)
    (hcs : Uncommented cs) (hbreak : ∀ c ∈ cs, ¬ IsBreak c)
    (h : scanLine origin n o? cs = .ok y) : y.Clean := by
  unfold scanLine at h
  split at h
  · rename_i o
    have ho : o.Clean := ho o rfl
    cases h
    split
    · refine ⟨by simp, ?_⟩
      simp only [Option.mem_some_iff, forall_eq']
      exact ho.push
    · exact scanInside_clean ho hcs hbreak
  · split at h
    · cases h
      simp [Yield.Clean]
    · exact (outside_of_scanOutside h).clean hcs hbreak

theorem scanLines_clean : ∀ {lines : List (List Char)} {n : Nat} {o? : Option Opening}
    {ts : List Token}, (∀ cs ∈ lines, Uncommented cs ∧ ∀ c ∈ cs, ¬ IsBreak c) →
      (∀ o ∈ o?, o.Clean) → scanLines origin n o? lines = .ok ts → ∀ t ∈ ts, t.Clean
  | [], n, none, ts, _, _, h => by
    cases h
    simp
  | [], n, some o, ts, _, _, h => by cases h
  | cs :: rest, n, o?, ts, hlines, ho, h => by
    obtain ⟨⟨hcs, hbreak⟩, hrest⟩ := List.forall_mem_cons.1 hlines
    obtain ⟨t?, o, us, hline, hus, rfl⟩ := scanLines_cons_eq_ok_iff.1 h
    obtain ⟨ht, ho'⟩ := scanLine_clean ho hcs hbreak hline
    intro t hmem
    rcases List.mem_append.1 hmem with hmem | hmem
    · exact ht t (Option.mem_toList.1 hmem)
    · exact scanLines_clean hrest ho' hus t hmem

/-- All tokens that are read are clean. -/
theorem clean_of_scan {text : List Char} {ts : List Token} (h : scan origin n text = .ok ts) :
    ∀ t ∈ ts, t.Clean := by
  rw [scan_eq_scanLines] at h
  refine scanLines_clean (fun cs hcs => ⟨?_, not_isBreak_of_mem_dropComment hcs⟩) (by simp) h
  obtain ⟨l, -, rfl⟩ := List.mem_map.1 hcs
  exact dropComment_uncommented l

theorem clean_of_moves {t : Token} {ms : List Grid.Move}
    (h : t.content.toList = ms.map Grid.Move.symbol) : t.Clean := by
  have hno : ∀ c ∈ t.content.toList, c ≠ '/' ∧ c ≠ '\r' ∧ c ≠ '\n' := by
    intro c hc
    rw [h] at hc
    obtain ⟨m, -, rfl⟩ := List.mem_map.1 hc
    cases m <;> decide
  exact ⟨uncommented_of_notMem fun hmem => (hno _ hmem).1 rfl, fun hmem => (hno _ hmem).2.1 rfl,
    fun _ hmem => (hno _ hmem).2.2 rfl⟩

theorem Generates.clean {limits : Synthesis.Limits Float} {t p : Token}
    (h : t.Generates limits p) : p.Clean := by
  have hmoves : ∃ ms : List Grid.Move, p.content.toList = ms.map Grid.Move.symbol := by
    unfold Generates generated at h
    rcases hread : readGenerator t with f | ⟨g, args⟩
    · simp [bind, Except.bind, hread] at h
    · rcases hx : g.readNumber args with f | x
      · simp [bind, Except.bind, hread, hx] at h
      · simp only [bind, Except.bind, hread, hx, pure, Except.pure, Except.ok.injEq] at h
        rw [← h]
        cases g with
        | num =>
          let s := Synthesis.search limits (fun _ => 0) x
          refine ⟨((s.arena.ancestry s.best.index).map (·.step.move)).reverse, ?_⟩
          simp [s, Synthesis.answer, Synthesis.Search.solution, Synthesis.Arena.pattern,
            List.map_reverse, Function.comp_def]
        | bits => exact ⟨_, String.toList_ofList⟩
  obtain ⟨ms, hms⟩ := hmoves
  exact clean_of_moves hms

end Token

theorem Registry.all_clean_of_registerDefinitions {catalog : Catalog} :
    ∀ {ts us : List Token} {r r' : Registry}, r.All Token.Clean →
      registerDefinitions catalog r ts = (r', .ok us) → r'.All Token.Clean
  | [], us, r, r', hr, h => by
    cases h
    exact hr
  | t :: ts, us, r, r', hr, h => by
    unfold registerDefinitions at h
    split at h
    · split at h
      · rename_i r₁ hdef
        have hr₁ := hr.define (fun d body _ hbody => Token.clean_of_scan hbody) hdef
        exact all_clean_of_registerDefinitions hr₁ h
      · cases h
    · rcases hrest : registerDefinitions catalog r ts with ⟨r₁, f | rest⟩
      · simp [hrest, Except.map] at h
      · simp only [hrest, Except.map, Prod.mk.injEq] at h
        exact h.1 ▸ all_clean_of_registerDefinitions hr hrest

namespace CompileM

variable {σ : Type} {limits : Synthesis.Limits Float}

theorem clean_of_runGenerators : ∀ {ts us : List Token} {c c' : Compilation σ},
    (∀ t ∈ ts, t.Clean) → c.solver.Faithful limits → Gives (runGenerators ts) c us c' →
      (∀ u ∈ us, u.Clean) ∧ c'.solver.Faithful limits
  | [], us, c, c', _, hsolver, h => by
    simp only [runGenerators, gives_pure] at h
    obtain ⟨rfl, rfl⟩ := h
    exact ⟨by simp, hsolver⟩
  | t :: ts, us, c, c', hts, hsolver, h => by
    obtain ⟨htop, hothers⟩ := List.forall_mem_cons.1 hts
    obtain ⟨here, rest, d, hhere, hrest, rfl⟩ := gives_runGenerators_cons.1 h
    split at hhere
    · obtain ⟨solver, events, hg, rfl⟩ := gives_runGenerator.1 hhere
      obtain ⟨hp, hsolver'⟩ := generated_of_generation hsolver hg
      obtain ⟨hclean, hlater⟩ := clean_of_runGenerators hothers hsolver' hrest
      exact ⟨List.forall_mem_cons.2 ⟨hp.clean, hclean⟩, hlater⟩
    · obtain ⟨rfl, rfl⟩ := hhere
      obtain ⟨hclean, hlater⟩ := clean_of_runGenerators hothers hsolver hrest
      exact ⟨List.forall_mem_cons.2 ⟨htop, hclean⟩, hlater⟩

theorem clean_of_expandRounds {name : String} : ∀ {n i : Nat} {ts out : List Token}
    {c c' : Compilation σ}, (∀ t ∈ ts, t.Clean) → c.registry.All Token.Clean →
      c.solver.Faithful limits → Gives (expandRounds name n i ts) c out c' →
        ∀ t ∈ out, t.Clean
  | 0, i, ts, out, c, c', hts, _, _, h => by
    simp only [expandRounds, gives_pure] at h
    exact h.1 ▸ hts
  | n + 1, i, ts, out, c, c', hts, hr, hsolver, h => by
    rw [gives_expandRounds_succ] at h
    split at h
    · obtain ⟨us, vs, d, hus, hvs, h⟩ := h
      obtain ⟨hclean, hsolver'⟩ :=
        clean_of_runGenerators (c := c.noting _) (hr.expandCalls hts hus) hsolver hvs
      have hregistry : d.registry = c.registry := by
        obtain ⟨solver, log, rfl⟩ := exists_eq_of_runGenerators hvs
        rfl
      exact clean_of_expandRounds (c := d.noting _) hclean (hregistry ▸ hr) hsolver' h
    · exact h.1 ▸ hts

theorem clean_of_expandFile {name : String} {ts out : List Token} {c c' : Compilation σ}
    (hts : ∀ t ∈ ts, t.Clean) (hr : c.registry.All Token.Clean)
    (hsolver : c.solver.Faithful limits) (h : Gives (expandFile name ts) c out c') :
    ∀ t ∈ out, t.Clean := by
  obtain ⟨r, us, d, hreg, hrounds, -⟩ := gives_expandFile.1 h
  have hus : ∀ t ∈ us, t.Clean := by
    rw [eq_withoutDefinitions_of_registerDefinitions hreg]
    exact fun t ht => hts t (List.mem_of_mem_filter ht)
  exact clean_of_expandRounds (c := Compilation.noting (Compilation.noting
    { c with registry := r } _) _) hus (Registry.all_clean_of_registerDefinitions hr hreg) hsolver
    hrounds

variable [FileStore σ] {c c' : Compilation σ} {path : Path}

theorem isInclude_of_mem_libraryTokens {origin : String} {files : List Path} {t : Token}
    (h : t ∈ libraryTokens origin files) : t.isInclude = true := by
  obtain ⟨p, -, rfl⟩ := List.mem_map.1 h
  simp [Token.isInclude]

theorem include_or_clean_of_tokensOf {name : String} {ts : List Token}
    (h : Gives (tokensOf path name) c ts c') : ∀ t ∈ ts, t.isInclude = true ∨ t.Clean := by
  simp only [tokensOf, gives_bind, gives_get, exists_and_left, and_assoc, exists_eq_left] at h
  split at h
  · simp at h
  · simp only [gives_bind, gives_get, gives_modify, gives_ite, gives_pure, gives_liftM,
      exists_and_left, and_assoc, exists_eq_left, exists_const, SourceText.scan_eq_ok_iff] at h
    split at h
    · obtain ⟨files, d, -, own, hown, rfl, -⟩ := h
      intro t ht
      rcases List.mem_append.1 ht with ht | ht
      · exact .inl (isInclude_of_mem_libraryTokens ht)
      · exact .inr (Token.clean_of_scan hown t ht)
    · obtain ⟨own, hown, rfl, -⟩ := h
      exact fun t ht => .inr (Token.clean_of_scan hown t ht)

section Follow

variable {follow : Path → CompileM σ (List Token)}
  (hfollow : ∀ {p c ts c'}, Gives (follow p) c ts c' → ∀ t ∈ ts, t.Clean)

include hfollow

theorem clean_of_resolveIncludesBy : ∀ {ts out : List Token} {c c' : Compilation σ},
    (∀ t ∈ ts, t.isInclude = true ∨ t.Clean) → Gives (resolveIncludesBy follow ts) c out c' →
      ∀ t ∈ out, t.Clean
  | [], out, c, c', _, h => by
    simp only [resolveIncludesBy, gives_pure] at h
    simp [h.1]
  | t :: ts, out, c, c', hts, h => by
    obtain ⟨ht, hts⟩ := List.forall_mem_cons.1 hts
    obtain ⟨here, rest, d, hhere, hrest, rfl⟩ := gives_resolveIncludesBy_cons.1 h
    have hrest := clean_of_resolveIncludesBy hts hrest
    split at hhere
    · obtain ⟨file, -, hhere⟩ := hhere
      exact List.forall_mem_append.2 ⟨hfollow hhere, hrest⟩
    · rename_i hinclude
      rw [hhere.1]
      exact List.forall_mem_append.2 ⟨by simpa using ht.resolve_left hinclude, hrest⟩

theorem clean_of_enter {ts : List Token} (h : Gives (enter follow path) c (some ts) c') :
    ∀ t ∈ ts, t.Clean := by
  obtain ⟨-, h⟩ := gives_enter.1 h
  split at h
  · cases h.1
  · obtain ⟨us, d, vs, e, hus, hvs, heq, -⟩ := h
    cases heq
    exact clean_of_resolveIncludesBy hfollow (include_or_clean_of_tokensOf hus) hvs

end Follow

theorem clean_of_contribution : ∀ {n : Nat} {path : Path} {c c' : Compilation σ}
    {out : List Token}, Gives (contribution n path) c out c' → ∀ t ∈ out, t.Clean
  | 0, path, c, c', out, h => by
    simp only [contribution, gives_pure] at h
    simp [h.1]
  | n + 1, path, c, c', out, h => by
    rcases gives_contribution_succ.1 h with ⟨-, rfl⟩ | ⟨d, henter, -⟩
    · simp
    · exact clean_of_enter clean_of_contribution henter

/-- The tokens that a file expands to are clean, whichever files it includes. -/
theorem clean_of_expandedTokens {out : List Token} (hr : c.registry.All Token.Clean)
    (hsolver : c.solver.Faithful limits) (h : Gives (expandedTokens path) c out c') :
    ∀ t ∈ out, t.Clean := by
  have hfollow : ∀ {p : Path} {c c' : Compilation σ} {ts : List Token},
      Gives (includeFile p) c ts c' → ∀ t ∈ ts, t.Clean :=
    fun h => clean_of_contribution (gives_includeFile.1 h)
  rw [expandedTokens, gives_bind] at h
  obtain ⟨_ | ts, d, henter, h⟩ := h
  · simp only [gives_pure] at h
    simp [h.1]
  · have hkept := kept_enter kept_includeFile henter
    exact clean_of_expandFile (clean_of_enter hfollow henter) (hkept.registry ▸ hr)
      (hkept.solver ▸ hsolver) h

end CompileM

end HexPatterns
