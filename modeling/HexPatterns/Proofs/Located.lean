import Mathlib
import HexPatterns.Files.Set
import HexPatterns.Proofs.Leftovers
import HexPatterns.Proofs.Places

/-!
# Every fault has a place to show

A fault that ends the work on a file is laid to a token, or to a position at which reading tokens
failed. Either way the origin is the path of a file whose text the catalog holds, and the line is
one that the text has. Tokens that stand in a file have this from the scan of its text, the includes
of the library from being laid to the first line; tokens of a body have it because the body lies
inside a definition that stands in a file (`Token.Before.body`). The passes only hand tokens on. So
the text of the line can be shown with every fault, except where the first file itself is not found.
-/

namespace HexPatterns

theorem Catalog.find_insert (k : Catalog) (origin other : String) (source : SourceText) :
    (k.insert origin source).find other = if origin = other then source else k.find other := by
  by_cases h : origin = other
  · simp [insert, find, h]
  · simp [insert, find, Std.HashMap.getElem?_insert, h]

theorem SourceText.scan_eq_error_iff {source : SourceText} {origin : String} {n : Nat}
    {text : List Char} {d : Diagnostic} :
    source.scan origin n text = .error d ↔
      ∃ e, Token.scan origin n text = .error e ∧ d = source.report e.fault e.position := by
  rw [SourceText.scan]
  cases Token.scan origin n text <;> simp [Except.mapError, eq_comm]

section Places

variable {σ : Type} [FileStore σ] {s : σ} {k k' : Catalog} {origin text : String} {t : Token}

/-- The catalog holds the text that is read from a file, under the file's base name. -/
structure Catalog.Holds (k : Catalog) (s : σ) (origin text : String) : Prop where
  read : FileStore.read s ⟨origin⟩ = .ok text
  find : k.find origin = .ofText (Path.baseName ⟨origin⟩) text

/-- The token is laid to a line of a text that the catalog holds. -/
def Catalog.Places (k : Catalog) (s : σ) (t : Token) : Prop :=
  ∃ text, k.Holds s t.origin text ∧ t.position.line < (Text.lines text.toList).length

/-- The token stands in a text that the catalog holds, and all of it if it is a definition. -/
def Catalog.Covers (k : Catalog) (s : σ) (t : Token) : Prop :=
  ∃ text, k.Holds s t.origin text ∧ t.Before (Text.lines text.toList).length

/-- All that one catalog holds the other holds too. -/
def Catalog.Below (s : σ) (k k' : Catalog) : Prop :=
  ∀ origin text, k.Holds s origin text → k'.Holds s origin text

/-- The diagnostic shows a stretch of the line that it names, of a text that the catalog holds. -/
def Diagnostic.Shows (d : Diagnostic) (s : σ) (k : Catalog) : Prop :=
  ∃ (path : Path) (text : String) (position : Position) (span : Text.Span),
    k.Holds s path.text text
      ∧ d.location = some ⟨path.baseName, position⟩
      ∧ d.excerpt = some ⟨path.baseName, text, span⟩
      ∧ span.Marks text.toList position.line

theorem Catalog.Covers.places (h : k.Covers s t) : k.Places s t := by
  obtain ⟨text, htext, ht⟩ := h
  exact ⟨text, htext, ht.line_lt⟩

theorem Catalog.Covers.mono (h : k.Covers s t) (hle : Catalog.Below s k k') : k'.Covers s t := by
  obtain ⟨text, htext, ht⟩ := h
  exact ⟨text, hle _ _ htext, ht⟩

/-- A file that is read again has the same text, so what the catalog holds it keeps. -/
theorem Catalog.below_insert (h : FileStore.read s ⟨origin⟩ = .ok text) (k : Catalog) :
    Catalog.Below s k (k.insert origin (.ofText (Path.baseName ⟨origin⟩) text)) := by
  rintro other text' ⟨hread, hfind⟩
  refine ⟨hread, ?_⟩
  rw [Catalog.find_insert]
  split
  · rename_i heq
    subst heq
    rw [h] at hread
    cases hread
    rfl
  · exact hfind

theorem Catalog.holds_insert (h : FileStore.read s ⟨origin⟩ = .ok text) (k : Catalog) :
    (k.insert origin (.ofText (Path.baseName ⟨origin⟩) text)).Holds s origin text :=
  ⟨h, by rw [Catalog.find_insert, if_pos rfl]⟩

theorem Catalog.Holds.shows_report (h : k.Holds s origin text) (f : Fault) {p : Position}
    (hp : p.line < (Text.lines text.toList).length) : ((k.find origin).report f p).Shows s k := by
  obtain ⟨span, hspan, hmarks⟩ := SourceText.exists_excerptAt? (Path.baseName ⟨origin⟩) hp
  rw [h.find]
  exact ⟨⟨origin⟩, text, p, span, h, rfl, hspan, hmarks⟩

theorem Catalog.Places.shows_reportToken (h : k.Places s t) (f : Fault) :
    ((k.find t.origin).reportToken f t).Shows s k := by
  obtain ⟨text, htext, ht⟩ := h
  obtain ⟨path, shown⟩ := htext.shows_report f ht
  exact ⟨path, shown⟩

end Places

/-- Work on includes has come to the tokens `ts`, all of which stand in texts that the catalog
holds, and the catalog holds all that `k` does. -/
structure Gathered {σ : Type} [FileStore σ] (s : σ) (k : Catalog) (ts : List Token)
    (c : Compilation σ) : Prop where
  store : c.store = s
  below : Catalog.Below s k c.catalog
  covers : ∀ t ∈ ts, c.catalog.Covers s t

namespace CompileM

variable {σ : Type} [FileStore σ] {s : σ} {c : Compilation σ}

theorem ensures_libraryFiles :
    Ensures libraryFiles c (fun _ c' => c'.store = c.store ∧ c'.catalog = c.catalog)
      (fun _ _ => False) := by
  unfold libraryFiles
  simp only [ensures_bind, ensures_get]
  split
  · simp
  · simp only [ensures_bind, ensures_ite, ensures_note, ensures_pure, ensures_modify]
    split <;> simp

/-- The includes of the library are laid to the first line, which every text has. -/
theorem covers_libraryTokens {k : Catalog} {path : Path} {text : String}
    (h : k.Holds s path.text text) (files : List Path) :
    ∀ t ∈ libraryTokens path.text files, k.Covers s t := by
  intro t ht
  obtain ⟨p, -, rfl⟩ := List.mem_map.1 ht
  refine ⟨text, h, ⟨?_, fun hk => by cases hk⟩⟩
  rw [Text.length_lines]
  exact List.length_pos_iff.2 (Text.lineTexts_ne_nil _)

theorem ensures_tokensOf {path : Path} {text : String} (hc : c.store = s)
    (htext : FileStore.read s path = .ok text) :
    Ensures (tokensOf path path.baseName) c (Gathered s c.catalog)
      (fun d c' => d.Shows s c'.catalog) := by
  subst hc
  set k := c.catalog.insert path.text (.ofText path.baseName text)
  have hbelow : Catalog.Below c.store c.catalog k := Catalog.below_insert htext _
  have hholds : k.Holds c.store path.text text := Catalog.holds_insert htext _
  have hsource : k.find path.text = .ofText path.baseName text := hholds.find
  obtain ⟨hok, herror⟩ := Token.scan_before path.text 0 text.toList
  rw [Nat.zero_add] at hok herror
  have hscan : ∀ (library : List Token) (e : Compilation σ), e.store = c.store → e.catalog = k →
      (∀ t ∈ library, k.Covers c.store t) →
        (∀ own, (SourceText.ofText path.baseName text).scan path.text 0 text.toList = .ok own →
          Gathered c.store c.catalog (library ++ own) e)
        ∧ ∀ d, (SourceText.ofText path.baseName text).scan path.text 0 text.toList = .error d →
          d.Shows c.store e.catalog := by
    intro library e hstore hk hlibrary
    rw [← hk] at hholds hbelow hsource hlibrary
    refine ⟨fun own hown => ⟨hstore, hbelow, fun t ht => ?_⟩, fun d hd => ?_⟩
    · have hown := SourceText.scan_eq_ok_iff.1 hown
      rcases List.mem_append.1 ht with ht | ht
      · exact hlibrary t ht
      · have horigin := (Token.of_mem_scan hown ht).1
        exact ⟨text, horigin ▸ hholds, hok own hown t ht⟩
    · obtain ⟨e', he, rfl⟩ := SourceText.scan_eq_error_iff.1 hd
      rw [← hsource]
      exact hholds.shows_report _ (herror e' he)
  simp only [tokensOf, ensures_bind, ensures_get, htext, ensures_modify, ensures_ite,
    ensures_pure, ensures_liftM]
  split
  · refine ensures_libraryFiles.mono ?_ (fun _ _ h => h.elim)
    rintro files e ⟨hstore, hcatalog⟩
    exact hscan _ e hstore hcatalog (covers_libraryTokens hholds files)
  · exact hscan [] _ rfl rfl (by simp)

theorem ensures_includedFile {t : Token} (hc : c.store = s) (ht : c.catalog.Places s t) :
    Ensures (includedFile t) c (fun p c' => FileStore.isFile s p = true ∧ c' = c)
      (fun d c' => d.Shows s c'.catalog) := by
  subst hc
  refine ⟨fun p c' h => ?_, ?_⟩
  · obtain ⟨hreach, rfl⟩ := gives_includedFile.1 h
    exact ⟨hreach.isFile, rfl⟩
  · have hpath : ∀ requested : Path,
        Ensures (includePath t.origin requested) c (fun _ c' => c' = c) (fun _ _ => False) := by
      intro requested
      simp only [includePath, ensures_bind, ensures_get, ensures_ite, ensures_pure]
      split <;> trivial
    have hfails : Ensures (includedFile t) c (fun _ _ => True)
        (fun d c' => d.Shows c.store c'.catalog) := by
      simp only [includedFile, ensures_bind, ensures_sourceOf]
      split
      · rename_i word requested hwords
        simp only [ensures_bind]
        refine (hpath ⟨requested⟩).mono ?_ (fun _ _ h => h.elim)
        rintro p _ rfl
        simp only [ensures_get, ensures_ite, ensures_pure, ensures_throw]
        split
        · trivial
        · exact ht.shows_reportToken _
      · rw [ensures_throw]
        exact ht.shows_reportToken _
    exact hfails.2

/-- Every file of the store can be read. -/
def Readable (s : σ) : Prop :=
  ∀ p, FileStore.isFile s p = true → ∃ text, FileStore.read s p = .ok text

section Include

variable {follow : Path → CompileM σ (List Token)}

theorem ensures_resolveIncludesBy
    (hfollow : ∀ {p} {c : Compilation σ}, c.store = s → FileStore.isFile s p = true →
      Ensures (follow p) c (Gathered s c.catalog) (fun d c' => d.Shows s c'.catalog)) :
    ∀ {ts : List Token} {c : Compilation σ}, c.store = s → (∀ t ∈ ts, c.catalog.Covers s t) →
      Ensures (resolveIncludesBy follow ts) c (Gathered s c.catalog)
        (fun d c' => d.Shows s c'.catalog)
  | [], c, hc, _ => by
    rw [resolveIncludesBy, ensures_pure]
    exact ⟨hc, fun _ _ h => h, by simp⟩
  | t :: ts, c, hc, hts => by
    obtain ⟨ht, hts⟩ := List.forall_mem_cons.1 hts
    have hrest : ∀ here d, Gathered s c.catalog here d →
        Ensures (resolveIncludesBy follow ts) d
          (fun rest c' => Gathered s c.catalog (here ++ rest) c')
          (fun d c' => d.Shows s c'.catalog) := by
      intro here d hhere
      have hts' : ∀ t ∈ ts, d.catalog.Covers s t := fun t ht => (hts t ht).mono hhere.below
      refine (ensures_resolveIncludesBy hfollow hhere.store hts').mono ?_ (fun _ _ h => h)
      rintro rest c' ⟨hstore, hbelow, hcovers⟩
      refine ⟨hstore, fun origin text h => hbelow _ _ (hhere.below _ _ h), fun u hu => ?_⟩
      rcases List.mem_append.1 hu with hu | hu
      · exact (hhere.covers u hu).mono hbelow
      · exact hcovers u hu
    simp only [resolveIncludesBy, ensures_bind, ensures_ite, ensures_pure]
    split
    · refine (ensures_includedFile hc ht.places).mono ?_ (fun _ _ h => h)
      rintro p _ ⟨hfile, rfl⟩
      exact (hfollow hc hfile).mono hrest (fun _ _ h => h)
    · exact hrest [t] c ⟨hc, fun _ _ h => h, by simpa using ht⟩

theorem ensures_enter (hs : Readable s)
    (hfollow : ∀ {p} {c : Compilation σ}, c.store = s → FileStore.isFile s p = true →
      Ensures (follow p) c (Gathered s c.catalog) (fun d c' => d.Shows s c'.catalog))
    {path : Path} (hc : c.store = s) (hfile : FileStore.isFile s path = true) :
    Ensures (enter follow path) c (fun result => Gathered s c.catalog (result.getD []))
      (fun d c' => d.Shows s c'.catalog) := by
  subst hc
  obtain ⟨text, htext⟩ := hs path hfile
  simp only [enter, ensures_bind, ensures_get, ensures_ite, ensures_throw, ensures_note,
    ensures_pure, ensures_modify, ensures_noteStage, hfile, Bool.not_true, Bool.false_eq_true,
    if_false]
  split
  · exact ⟨rfl, fun _ _ h => h, by simp⟩
  · refine Ensures.mono (ensures_tokensOf rfl htext) ?_ (fun _ _ h => h)
    rintro ts d ⟨hstore, hbelow, hcovers⟩
    refine Ensures.mono (ensures_resolveIncludesBy hfollow (c := (d.noting _).noting _) hstore
      hcovers) ?_ (fun _ _ h => h)
    rintro us e ⟨hstore', hbelow', hcovers'⟩
    exact ⟨hstore', fun origin text h => hbelow' _ _ (hbelow _ _ h), hcovers'⟩

theorem ensures_contribution (hs : Readable s) :
    ∀ (n : Nat) {path : Path} {c : Compilation σ}, c.store = s →
      FileStore.isFile s path = true →
        Ensures (contribution n path) c (Gathered s c.catalog) (fun d c' => d.Shows s c'.catalog)
  | 0, path, c, hc, _ => by
    rw [contribution, ensures_pure]
    exact ⟨hc, fun _ _ h => h, by simp⟩
  | n + 1, path, c, hc, hfile => by
    rw [contribution, ensures_bind]
    refine (ensures_enter hs (ensures_contribution hs n) hc hfile).mono ?_ (fun _ _ h => h)
    rintro (_ | ts) d hd
    · rw [ensures_pure]
      exact hd
    · simp only [ensures_bind, ensures_note, ensures_pure]
      exact ⟨hd.store, hd.below, hd.covers⟩

theorem ensures_includeFile (hs : Readable s) {path : Path} (hc : c.store = s)
    (hfile : FileStore.isFile s path = true) :
    Ensures (includeFile path) c (Gathered s c.catalog) (fun d c' => d.Shows s c'.catalog) := by
  rw [includeFile, ensures_bind, ensures_get]
  exact ensures_contribution hs _ hc hfile

end Include

end CompileM

section Expand

variable {σ : Type} [FileStore σ] {s : σ} {k : Catalog} {r r' : Registry} {t : Token}
  {d : Diagnostic}

/-- A body that stands in a definition is laid to lines of the definition, and so is an error in
it. -/
theorem Catalog.Covers.body (h : k.Covers s t) (hkind : t.kind = .definition) {f : Definition}
    (hf : Definition.ofContent t.content.toList = .ok f) :
    (∀ body, Token.scan t.origin (t.position.line + f.skipped) f.body = .ok body →
      ∀ u ∈ body, k.Places s u)
    ∧ ∀ d, (k.find t.origin).scan t.origin (t.position.line + f.skipped) f.body = .error d →
      d.Shows s k := by
  obtain ⟨text, htext, ht⟩ := h
  have hle := ht.body hkind hf
  obtain ⟨hok, herror⟩ := Token.scan_before t.origin (t.position.line + f.skipped) f.body
  refine ⟨fun body hbody u hu => ⟨text, ?_, ?_⟩, fun d hd => ?_⟩
  · rw [(Token.of_mem_scan hbody hu).1]
    exact htext
  · exact (hok body hbody u hu).line_lt.trans_le hle
  · obtain ⟨e, he, rfl⟩ := SourceText.scan_eq_error_iff.1 hd
    exact htext.shows_report _ ((herror e he).trans_le hle)

theorem shows_of_define (ht : k.Covers s t) (hkind : t.kind = .definition)
    (h : define k r t = .error d) : d.Shows s k := by
  unfold define readDefinition at h
  rcases hf : Definition.ofContent t.content.toList with f | f
  · simp only [hf, Except.mapError, bind, Except.bind, Except.error.injEq] at h
    rw [← h]
    exact ht.places.shows_reportToken _
  · rcases hbody : (k.find t.origin).scan t.origin (t.position.line + f.skipped) f.body
      with d' | body
    · simp only [hf, hbody, Except.mapError, bind, Except.bind, Except.error.injEq] at h
      rw [← h]
      exact (ht.body hkind hf).2 d' hbody
    · rcases hreg : r.register f.name body with f' | r'
      · simp only [hf, hbody, hreg, Except.mapError, bind, Except.bind, pure, Except.pure,
          Except.error.injEq] at h
        rw [← h]
        exact ht.places.shows_reportToken _
      · simp [hf, hbody, hreg, Except.mapError, bind, Except.bind, pure, Except.pure] at h

theorem registerDefinitions_placed : ∀ {ts : List Token} {r : Registry}, r.All (k.Places s) →
    (∀ t ∈ ts, k.Covers s t) →
      (registerDefinitions k r ts).1.All (k.Places s)
        ∧ ∀ d, (registerDefinitions k r ts).2 = .error d → d.Shows s k
  | [], r, hr, _ => ⟨hr, by simp [registerDefinitions]⟩
  | t :: ts, r, hr, hts => by
    obtain ⟨ht, hts⟩ := List.forall_mem_cons.1 hts
    unfold registerDefinitions
    split
    · rename_i hkind
      split
      · rename_i r' hdef
        have hr' := hr.define (fun d body hd hbody => (ht.body hkind hd).1 body hbody) hdef
        exact registerDefinitions_placed hr' hts
      · rename_i d hdef
        refine ⟨hr, ?_⟩
        rintro _ ⟨⟩
        exact shows_of_define ht hkind hdef
    · obtain ⟨hplaced, hshows⟩ := registerDefinitions_placed hr hts
      refine ⟨hplaced, fun d hd => hshows d ?_⟩
      rcases hrest : (registerDefinitions k r ts).2 with e | us
      · simpa [hrest, Except.map] using hd
      · simp [hrest, Except.map] at hd

theorem shows_of_expandCalls : ∀ {ts : List Token}, (∀ t ∈ ts, k.Places s t) →
    expandCalls k r ts = .error d → d.Shows s k
  | [], _, h => by cases h
  | t :: ts, hts, h => by
    obtain ⟨ht, hts⟩ := List.forall_mem_cons.1 hts
    rw [expandCalls] at h
    rcases hhere : expandCall k r t with e | here
    · rw [hhere] at h
      cases h
      unfold expandCall at hhere
      split at hhere
      · split at hhere
        · cases hhere
        · cases hhere
          exact ht.shows_reportToken _
      · cases hhere
    · rcases hrest : expandCalls k r ts with e | rest
      · simp only [hhere, hrest, bind, Except.bind, Except.error.injEq] at h
        exact shows_of_expandCalls hts (h ▸ hrest)
      · simp [hhere, hrest, bind, Except.bind, pure, Except.pure] at h

end Expand

namespace CompileM

variable {σ : Type} [FileStore σ] {s : σ} {k : Catalog} {c : Compilation σ}

/-- Expansion works on tokens and bodies that are laid to lines of texts that `k` holds. -/
structure Expanding (s : σ) (k : Catalog) (ts : List Token) (c : Compilation σ) : Prop where
  catalog : c.catalog = k
  registry : c.registry.All (k.Places s)
  places : ∀ t ∈ ts, k.Places s t

theorem ensures_runGenerators : ∀ {ts : List Token} {c : Compilation σ}, Expanding s k ts c →
    Ensures (runGenerators ts) c (Expanding s k) (fun d c' => d.Shows s c'.catalog)
  | [], c, h => by
    rw [runGenerators, ensures_pure]
    exact h
  | t :: ts, c, h => by
    obtain ⟨hcatalog, hr, hts⟩ := h
    obtain ⟨ht, hts⟩ := List.forall_mem_cons.1 hts
    have hrest : ∀ here d, Expanding s k [here] d →
        Ensures (runGenerators ts) d (fun rest => Expanding s k (here :: rest))
          (fun d c' => d.Shows s c'.catalog) := by
      rintro here d ⟨hcatalog, hr, hhere⟩
      refine (ensures_runGenerators ⟨hcatalog, hr, hts⟩).mono ?_ (fun _ _ h => h)
      rintro rest c' ⟨hcatalog', hr', hrest⟩
      exact ⟨hcatalog', hr', List.forall_mem_cons.2 ⟨hhere here (by simp), hrest⟩⟩
    have hgenerator : Ensures (runGenerator t) c (fun here => Expanding s k [here])
        (fun d c' => d.Shows s c'.catalog) := by
      refine ⟨fun p c' hp => ?_, ?_⟩
      · obtain ⟨solver, events, hg, rfl⟩ := gives_runGenerator.1 hp
        obtain ⟨_, _, _, _, _, _, rfl, _⟩ := generation_eq_ok_iff.1 hg
        exact ⟨hcatalog, hr, by simpa [Catalog.Places] using ht⟩
      · have hfails : Ensures (runGenerator t) c (fun _ _ => True)
            (fun d c' => d.Shows s c'.catalog) := by
          simp only [runGenerator, ensures_bind, ensures_get]
          split
          · simp only [ensures_bind, ensures_sourceOf, ensures_throw]
            rw [hcatalog]
            exact ht.shows_reportToken _
          · simp
        exact hfails.2
    simp only [runGenerators, ensures_bind, ensures_ite, ensures_pure]
    split
    · exact hgenerator.mono hrest (fun _ _ h => h)
    · exact hrest t c ⟨hcatalog, hr, by simpa using ht⟩

theorem ensures_expandRounds (name : String) : ∀ {n i : Nat} {ts : List Token}
    {c : Compilation σ}, Expanding s k ts c →
      Ensures (expandRounds name n i ts) c (Expanding s k) (fun d c' => d.Shows s c'.catalog)
  | 0, i, ts, c, h => by
    rw [expandRounds, ensures_pure]
    exact h
  | n + 1, i, ts, c, h => by
    obtain ⟨hcatalog, hr, hts⟩ := h
    simp only [expandRounds, takeCalls, ensures_bind, ensures_ite, ensures_note, ensures_get,
      ensures_ofExcept, ensures_pure, Compilation.noting_catalog, Compilation.noting_registry,
      hcatalog]
    split
    · refine ⟨fun us hus => ?_, fun d hd => shows_of_expandCalls hts hd⟩
      refine (ensures_runGenerators (c := c.noting _)
        ⟨hcatalog, hr, hr.expandCalls hts hus⟩).mono ?_ (fun _ _ h => h)
      rintro vs d ⟨hcatalog', hr', hvs⟩
      exact ensures_expandRounds name (c := d.noting _) ⟨hcatalog', hr', hvs⟩
    · exact ⟨hcatalog, hr, hts⟩

theorem ensures_expandFile {name : String} {ts : List Token}
    (hr : c.registry.All (c.catalog.Places s)) (hts : ∀ t ∈ ts, c.catalog.Covers s t) :
    Ensures (expandFile name ts) c (fun _ _ => True) (fun d c' => d.Shows s c'.catalog) := by
  obtain ⟨hplaced, hshows⟩ := registerDefinitions_placed hr hts
  simp only [expandFile, takeDefinitions, ensures_bind, ensures_get, ensures_set,
    ensures_ofExcept, ensures_noteStage]
  refine ⟨fun us hus => ?_, hshows⟩
  have hown : us = withoutDefinitions ts :=
    eq_withoutDefinitions_of_registerDefinitions (Prod.ext rfl hus)
  refine Ensures.mono (ensures_expandRounds name (c := Compilation.noting (Compilation.noting
    { c with registry := _ } _) _) ⟨rfl, hplaced, fun u hu => ?_⟩) (fun out d _ => ?_)
    (fun _ _ h => h)
  · rw [hown] at hu
    exact (hts u (List.mem_of_mem_filter hu)).places
  · simp only [ensures_note, ensures_ite, ensures_bind, ensures_get, ensures_pure]
    split <;> trivial

theorem ensures_compile {path : Path} (hs : Readable s) (hc : c.store = s)
    (hfile : FileStore.isFile s path = true) (hempty : c.registry = .empty) :
    Ensures (compile path) c (fun _ _ => True) (fun d c' => d.Shows s c'.catalog) := by
  have henter := ensures_enter hs (fun hc hfile => ensures_includeFile hs hc hfile) hc hfile
  simp only [compile, expandedTokens, ensures_bind]
  refine ⟨fun result d hd => ?_, henter.2⟩
  have hgathered := henter.1 result d hd
  rcases result with _ | ts
  · simp
  · have hr : d.registry.All (d.catalog.Places s) := by
      rw [(kept_enter kept_includeFile hd).registry, hempty]
      exact Registry.all_empty
    refine (ensures_expandFile hr hgathered.covers).mono (fun out e _ => ?_) (fun _ _ h => h)
    simp

end CompileM

theorem FileSet.readable (s : FileSet) : CompileM.Readable s := by
  intro p hp
  obtain ⟨f, hf⟩ := Option.isSome_iff_exists.1 hp
  have hf : s.find? p = some f := hf
  exact ⟨f.2, by simp [FileStore.read, FileSet.read, hf]⟩

namespace CompileM

/-- A new compilation that fails on a file set either does not find the file it is given, and says
so without a place; or the fault has a place: a position in a file that was read, under the base
name of the file, and with it the whole text of the file and a stretch of the line of the
position. -/
theorem compile_failure_shown (settings : Settings) (clock : Nat → Nat → Nat) (home : Path)
    (store : FileSet) (path : Path) (d : Diagnostic) (c' : Compilation FileSet)
    (h : Fails (compile path) (Compilation.new settings clock home store) d c') :
    store.isFile path = false ∧ d = .unlocated (.fileNotFound path.text)
    ∨ store.isFile path = true ∧ ∃ (file : Path) (text : String) (position : Position)
        (span : Text.Span),
      store.read file = .ok text
        ∧ c'.catalog.find file.text = .ofText file.baseName text
        ∧ d.location = some ⟨file.baseName, position⟩
        ∧ d.excerpt = some ⟨file.baseName, text, span⟩
        ∧ span.Marks text.toList position.line := by
  rcases hfile : store.isFile path with _ | _
  · refine .inl ⟨rfl, ?_⟩
    have hmissing : FileStore.isFile (Compilation.new settings clock home store).store path
        = false := hfile
    have hno : Ensures (compile path) (Compilation.new settings clock home store)
        (fun _ _ => False) (fun d _ => d = .unlocated (.fileNotFound path.text)) := by
      simp [compile, expandedTokens, enter, hmissing]
    exact hno.2 d c' h
  · refine .inr ⟨rfl, ?_⟩
    obtain ⟨file, text, position, span, hholds, hshown⟩ :=
      (ensures_compile (c := Compilation.new settings clock home store) store.readable rfl hfile
        rfl).2 d c' h
    exact ⟨file, text, position, span, hholds.read, hholds.find, hshown⟩

section Body

variable {σ : Type} {ts us vs : List Token} {d : Diagnostic} {c c' e : Compilation σ}

theorem fails_expandRounds_of_calls {name : String} {n i : Nat}
    (hts : ts.any Token.isExpandable = true)
    (h : expandCalls c.catalog c.registry ts = .error d) :
    Fails (expandRounds name (n + 1) i ts) c d (c.noting (.roundStarted (i + 1) name)) := by
  rw [expandRounds, if_pos hts, fails_bind]
  refine .inr ⟨(), _, gives_note.2 rfl, fails_bind.2 (.inl ?_)⟩
  rw [takeCalls, fails_bind]
  exact .inr ⟨_, _, gives_get.2 ⟨rfl, rfl⟩, fails_ofExcept.2 ⟨h, rfl⟩⟩

theorem fails_expandRounds_of_round {name : String} {n i : Nat}
    (hts : ts.any Token.isExpandable = true) (hus : expandCalls c.catalog c.registry ts = .ok us)
    (hvs : Gives (runGenerators us) (c.noting (.roundStarted (i + 1) name)) vs e)
    (h : Fails (expandRounds name n (i + 1) vs) (e.noting (.ofTokens name vs)) d c') :
    Fails (expandRounds name (n + 1) i ts) c d c' := by
  rw [expandRounds, if_pos hts, fails_bind]
  refine .inr ⟨(), _, gives_note.2 rfl, fails_bind.2 (.inr ⟨us, _,
    gives_takeCalls.2 ⟨hus, rfl⟩, ?_⟩)⟩
  exact fails_bind.2 (.inr ⟨vs, e, hvs, fails_bind.2 (.inr ⟨(), _, gives_note.2 rfl, h⟩)⟩)

theorem fails_expandFile_of_rounds {name : String} {r : Registry}
    (hreg : registerDefinitions c.catalog c.registry ts = (r, .ok us))
    (h : Fails (expandRounds name c.settings.maxIterations 0 us)
      ((Compilation.noting { c with registry := r } (.stageDone .definitions name)).noting
        (.ofTokens name us)) d c') :
    Fails (expandFile name ts) c d c' := by
  rw [expandFile, fails_bind]
  refine .inr ⟨us, _, gives_takeDefinitions.2 ⟨r, hreg, rfl⟩, fails_bind.2 (.inr ⟨(), _,
    gives_noteStage.2 rfl, fails_bind.2 (.inr ⟨_, _, gives_get.2 ⟨rfl, rfl⟩, ?_⟩)⟩)⟩
  exact fails_bind.2 (.inl h)

theorem fails_compile_of_expandFile [FileStore σ] {path : Path}
    (henter : Gives (enter includeFile path) c (some ts) e)
    (h : Fails (expandFile path.baseName ts) e d c') : Fails (compile path) c d c' := by
  rw [compile, fails_bind]
  refine .inl ?_
  rw [expandedTokens, fails_bind]
  exact .inr ⟨some ts, e, henter, h⟩

end Body

/-- A file that calls a macro, on the last line of which an unknown macro is called. -/
def unknownInBody : FileSet :=
  ⟨[(⟨"main.macrohex"⟩, "<\"m\"\n!a\nn>\nm")]⟩

/-- The fault is laid to the line of the call inside the body. -/
theorem compile_failure_shown_unknownInBody :
    ∃ d c', Fails (compile ⟨"main.macrohex"⟩)
        (Compilation.new plainSettings (fun _ _ => 0) ⟨""⟩ unknownInBody) d c'
      ∧ d.fault = .undefinedMacro "n"
      ∧ ∃ (file : Path) (text : String) (span : Text.Span), unknownInBody.read file = .ok text
        ∧ d.location = some ⟨file.baseName, ⟨2, 0⟩⟩ ∧ d.excerpt = some ⟨file.baseName, text, span⟩
        ∧ span.Marks text.toList 2 := by
  let literal : Token := ⟨.literal, ⟨1, 0⟩, "a", "main.macrohex"⟩
  let unknown : Token := ⟨.call, ⟨2, 0⟩, "n", "main.macrohex"⟩
  let definition : Token := ⟨.definition, ⟨0, 0⟩, "\"m\"\n!a\nn", "main.macrohex"⟩
  let call : Token := ⟨.call, ⟨3, 0⟩, "m", "main.macrohex"⟩
  let r : Registry := ⟨Registry.empty.bodies.insert "m" [literal, unknown]⟩
  have hdef : ∀ catalog, define catalog .empty definition = .ok r := fun _ =>
    define_eq_ok_iff.2 ⟨⟨"m", "!a\nn".toList, 1⟩, _, by cbv, by cbv, rfl⟩
  have hreg : ∀ catalog,
      registerDefinitions catalog .empty [definition, call] = (r, .ok [call]) := by
    intro catalog
    simp [registerDefinitions, definition, hdef, call, Except.map]
  have hbody : r.resolve "m" = some [literal, unknown] := by rfl
  have hnone : r.resolve "n" = none := by rfl
  have hcalls : ∀ catalog, expandCalls catalog r [call] = .ok [literal, unknown] := fun catalog =>
    expandCalls_cons_eq_ok_iff.2 ⟨[literal, unknown], [],
      expandCall_eq_ok_iff.2 (.inl ⟨rfl, hbody⟩), rfl, rfl⟩
  have hfault : ∀ catalog, expandCalls catalog r [literal, unknown]
      = .error ((catalog.find "main.macrohex").reportToken (.undefinedMacro "n") unknown) := by
    intro catalog
    simp [expandCalls, expandCall, literal, unknown, hnone, bind, Except.bind]
  have hlex : Lexes unknownInBody ⟨"main.macrohex"⟩ [definition, call] := ⟨_, rfl, by cbv⟩
  obtain ⟨e, henter, hempty, hsettings⟩ : ∃ e, Gives (enter includeFile ⟨"main.macrohex"⟩)
      (Compilation.new plainSettings (fun _ _ => 0) ⟨""⟩ unknownInBody) (some [definition, call]) e
        ∧ e.registry = .empty ∧ e.settings.maxIterations = 98 + 2 := by
    obtain ⟨catalog, henter⟩ := gives_enter_of_own includeFile
      (c := Compilation.new plainSettings (fun _ _ => 0) ⟨""⟩ unknownInBody) rfl rfl
      (Compilation.isIncluded_new ..) hlex (by decide)
    exact ⟨_, henter, rfl, rfl⟩
  have hrounds : ∀ (name : String) (c : Compilation FileSet), c.registry = r →
      ∃ c', Fails (expandRounds name (98 + 2) 0 [call]) c
        ((c.catalog.find "main.macrohex").reportToken (.undefinedMacro "n") unknown) c' := by
    intro name c hc
    refine ⟨_, fails_expandRounds_of_round rfl (hc ▸ hcalls _)
      (gives_runGenerators_cons_of_not rfl (gives_runGenerators_cons_of_not rfl
        (gives_pure.2 ⟨rfl, rfl⟩))) (fails_expandRounds_of_calls rfl ?_)⟩
    exact hc ▸ hfault _
  obtain ⟨c', hfails⟩ := hrounds (Path.baseName ⟨"main.macrohex"⟩)
    ((Compilation.noting { e with registry := r } (.stageDone .definitions _)).noting
      (.ofTokens _ [call])) rfl
  have hcompile := fails_compile_of_expandFile henter
    (fails_expandFile_of_rounds (hempty ▸ hreg _) (hsettings ▸ hfails))
  rcases compile_failure_shown _ _ _ _ _ _ _ hcompile with ⟨hmissing, -⟩ | ⟨-, hshown⟩
  · cases hmissing
  · obtain ⟨file, text, position, span, hread, -, hlocation, hexcerpt, hmarks⟩ := hshown
    obtain rfl : position = ⟨2, 0⟩ := (congrArg Location.position (Option.some.inj hlocation)).symm
    exact ⟨_, c', hcompile, rfl, file, text, span, hread, hlocation, hexcerpt, hmarks⟩

end CompileM

end HexPatterns
