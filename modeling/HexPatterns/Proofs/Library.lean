import Mathlib
import HexPatterns.Proofs.Growth
import HexPatterns.Proofs.Located
import HexPatterns.Proofs.Nesting

/-!
# Includes that name the files of the library

The library is put in front of a file as includes, one for each of its files. An include is split
into words, of which there must be two, so it finds the file again if no blank is in the path
(`reaches_libraryToken`). A blank inside makes three words or more of it. The path of a source never
ends with a blank (`Path.getLast_of_isSource`); at the front, blanks would be lost.

Where includes find the files again, and these have no includes themselves, the first file of each
base name is read (`resolveIncludes_libraryTokens`).
-/

namespace HexPatterns

namespace Text

theorem words_append_blank {b : Char} (hb : isBlank b = true) (x y : List Char) :
    words (x ++ b :: y) = words x ++ words y := by
  rw [words, List.splitOnP_append_cons x y hb, List.filter_append, ← words, ← words]

theorem words_of_unspaced {cs : List Char} (hne : cs ≠ []) (h : ∀ c ∈ cs, isBlank c = false) :
    words cs = [cs] := by
  rw [words, List.splitOnP_eq_singleton fun c hc => h c hc]
  simp [hne]

theorem words_ne_nil {cs : List Char} {c : Char} (hmem : c ∈ cs) (hc : isBlank c = false) :
    words cs ≠ [] := by
  induction cs with
  | nil => cases hmem
  | cons d cs ih =>
    by_cases hd : isBlank d = true
    · have hmem : c ∈ cs := by
        rcases List.mem_cons.1 hmem with rfl | hmem
        · rw [hd] at hc
          cases hc
        · exact hmem
      rw [← List.nil_append (d :: cs), words_append_blank hd]
      exact ih hmem
    · rw [words, List.splitOnP_cons_eq_if_modifyHead, if_neg hd]
      rcases hs : cs.splitOnP isBlank with _ | ⟨first, rest⟩
      · exact absurd hs (List.splitOnP_ne_nil _ _)
      · simp

theorem wordsOf_include (s : String) : wordsOf ("include " ++ s) = "include" :: wordsOf s := by
  have hinclude : ("include " ++ s).toList = "include".toList ++ ' ' :: s.toList := by simp
  have hword : words "include".toList = ["include".toList] := by cbv
  rw [wordsOf, hinclude, words_append_blank (by decide), hword]
  simp [wordsOf]

end Text

namespace Path

open Text

/-- No character of the path is blank. -/
def Unspaced (p : Path) : Prop :=
  ∀ c ∈ p.text.toList, isBlank c = false

instance (p : Path) : Decidable p.Unspaced :=
  List.decidableBAll _ _

theorem piecesFrom_singleton {x : List Char} (start : Nat) (hx : x ≠ []) (hcurrent : x ≠ ['.'])
    (hparent : x ≠ ['.', '.']) :
    piecesFrom start [x] = [⟨.name (String.ofList x), start + x.length⟩] := by
  simp only [piecesFrom]

/-- A segment at the end that is no `.` and no `..` is the file name. -/
theorem fileName?_of_segments {p : Path} {a : List (List Char)} {x : List Char}
    (h : p.segments = a ++ [x]) (hx : x ≠ []) (hcurrent : x ≠ ['.']) (hparent : x ≠ ['.', '.']) :
    p.fileName? = some (String.ofList x) := by
  have hlast : ∃ before stop, p.pieces = before ++ [⟨.name (String.ofList x), stop⟩] := by
    rw [pieces_eq, h]
    by_cases ha : a = []
    · subst ha
      rw [List.nil_append, piecesOf_plain hx hcurrent, piecesFrom_singleton 0 hx hcurrent hparent]
      exact ⟨[], _, rfl⟩
    by_cases ha' : a = [[]]
    · subst ha'
      rw [List.singleton_append, piecesOf_root (by simp),
        piecesFrom_singleton 1 hx hcurrent hparent]
      exact ⟨[_], _, rfl⟩
    · rw [piecesOf_append ha ha', piecesFrom_singleton _ hx hcurrent hparent]
      exact ⟨_, _, rfl⟩
  obtain ⟨before, stop, hpieces⟩ := hlast
  rw [fileName?, components, hpieces, List.map_append, List.map_singleton,
    List.getLast?_concat]

theorem getLast?_of_splitName {name : List Char} {e : Char} {ext : List Char}
    (h : (splitName name).2 = some (ext ++ [e])) : name.getLast? = some e := by
  unfold splitName at h
  simp only at h
  split at h
  · cases h
  · have htake : name.reverse.takeWhile (· ≠ '.') = e :: ext.reverse := by
      have := congrArg List.reverse (Option.some.inj h)
      simpa using this
    obtain ⟨rest, hrest⟩ := htake ▸ List.takeWhile_prefix (l := name.reverse) (· ≠ '.')
    have hname := congrArg List.reverse hrest
    rw [List.reverse_reverse] at hname
    simp [← hname]

/-- The path of a source does not end with a blank. -/
theorem getLast_of_isSource {p : Path} (h : p.isSource = true) :
    ∃ c, p.text.toList.getLast? = some c ∧ isBlank c = false := by
  obtain ⟨name, hname, hext⟩ : ∃ name, p.fileName? = some name
      ∧ (splitName name.toList).2 = some "macrohex".toList := by
    simpa [isSource, extension?, sourceExtension, Option.bind_eq_some_iff,
      String.ext_iff] using h
  obtain ⟨a, x, hsegments⟩ := (List.eq_nil_or_concat p.segments).resolve_left p.segments_ne_nil
  rw [List.concat_eq_append] at hsegments
  rw [← joined_segments, hsegments]
  by_cases hx : x = []
  · subst hx
    rcases a with _ | ⟨y, a⟩
    · rw [fileName?, components, pieces_eq, hsegments] at hname
      cases hname
    · rw [joined_append (by simp) (by simp), joined_singleton, List.getLast?_concat]
      exact ⟨'/', rfl, by decide⟩
  rw [getLast?_joined a hx]
  by_cases hcurrent : x = ['.']
  · exact ⟨'.', by rw [hcurrent]; rfl, by decide⟩
  by_cases hparent : x = ['.', '.']
  · exact ⟨'.', by rw [hparent]; rfl, by decide⟩
  rw [fileName?_of_segments hsegments hx hcurrent hparent] at hname
  cases hname
  rw [String.toList_ofList, show "macrohex".toList = "macrohe".toList ++ ['x'] by cbv] at hext
  exact ⟨'x', getLast?_of_splitName hext, by decide⟩

theorem text_ne_of_isSource {p : Path} (h : p.isSource = true) : p.text ≠ "" := fun hempty => by
  obtain ⟨c, hc, -⟩ := getLast_of_isSource h
  rw [hempty] at hc
  cases hc

/-- A source with a blank, but not at the front, is no single word. -/
theorem one_lt_words_of_isSource {p : Path} (h : p.isSource = true)
    (hhead : ∀ c ∈ p.text.toList.head?, isBlank c = false) {b : Char} (hmem : b ∈ p.text.toList)
    (hb : isBlank b = true) : 1 < (wordsOf p.text).length := by
  obtain ⟨last, hlast, hlast'⟩ := getLast_of_isSource h
  obtain ⟨x, y, hxy⟩ := List.append_of_mem hmem
  rw [hxy] at hhead hlast
  have hx : words x ≠ [] := by
    rcases x with _ | ⟨c, x⟩
    · rw [hhead b rfl] at hb
      cases hb
    · exact words_ne_nil List.mem_cons_self (hhead c rfl)
  have hy : words y ≠ [] := by
    rcases y with _ | ⟨c, y⟩
    · rw [List.getLast?_concat] at hlast
      cases hlast
      rw [hlast'] at hb
      cases hb
    · have hmem : last ∈ c :: y := by
        rw [List.getLast?_append_of_ne_nil _ (by simp), List.getLast?_cons_cons] at hlast
        exact List.mem_of_getLast? hlast
      exact words_ne_nil hmem hlast'
  have hx := List.length_pos_iff.2 hx
  have hy := List.length_pos_iff.2 hy
  rw [wordsOf, hxy, words_append_blank hb, List.length_map, List.length_append]
  omega

end Path

section Include

variable {σ : Type} [FileStore σ] {s : σ} {f : Path} {ts : List Token} {origin : String}

open CompileM

/-- A file that an include of its path finds again, and that includes no other. -/
structure Includable (s : σ) (f : Path) (ts : List Token) : Prop where
  isFile : FileStore.isFile s f = true
  text_ne : f.text ≠ ""
  unspaced : f.Unspaced
  lexes : Lexes s f ts
  own : ∀ t ∈ ts, t.isInclude = false

theorem reaches_libraryToken (hfile : FileStore.isFile s f = true) (hne : f.text ≠ "")
    (hunspaced : f.Unspaced) (origin : String) :
    Reaches s ⟨.directive, .origin, "include " ++ f.text, origin⟩ f := by
  have hwords : Text.wordsOf f.text = [f.text] := by
    rw [Text.wordsOf, Text.words_of_unspaced (by simpa using hne) hunspaced]
    simp
  refine ⟨"include", f.text, by rw [Text.wordsOf_include, hwords], ?_, hfile⟩
  rw [askedPath, if_pos hfile]

theorem libraryTokens_cons (origin : String) (f : Path) (files : List Path) :
    libraryTokens origin (f :: files)
      = ⟨.directive, .origin, "include " ++ f.text, origin⟩ :: libraryTokens origin files :=
  rfl

/-- What follows an include of the library, the file being found again. -/
theorem gives_libraryTokens_cons {follow : Path → CompileM σ (List Token)} {files : List Path}
    {here rest : List Token} {c d e : Compilation σ} (hf : Includable c.store f ts)
    (hhere : Gives (follow f) c here d)
    (hrest : Gives (resolveIncludesBy follow (libraryTokens origin files)) d rest e) :
    Gives (resolveIncludesBy follow (libraryTokens origin (f :: files))) c (here ++ rest) e := by
  rw [libraryTokens_cons]
  refine gives_resolveIncludesBy_cons.2 ⟨here, rest, d, ?_, hrest, rfl⟩
  rw [if_pos (by simp [Token.isInclude])]
  exact ⟨f, reaches_libraryToken hf.isFile hf.text_ne hf.unspaced origin, hhere⟩

theorem fails_includedFile_of_words {c : Compilation σ} {t : Token}
    (h : (Text.wordsOf t.content).length ≠ 2) : ∃ d, Fails (includedFile t) c d c
      ∧ d.fault = .includeArity (Text.wordsOf t.content).length := by
  refine ⟨(c.catalog.find t.origin).reportToken
    (.includeArity (Text.wordsOf t.content).length) t, ?_, rfl⟩
  rw [includedFile, fails_bind]
  refine .inr ⟨_, c, gives_sourceOf.2 ⟨rfl, rfl⟩, ?_⟩
  split
  · rename_i hwords
    rw [hwords] at h
    exact absurd rfl h
  · exact fails_throw.2 ⟨rfl, rfl⟩

end Include

namespace FileSet

theorem sourcesUnder_of_sorted {s : FileSet} {dir : Path} {files : List Path}
    (h : (s.files.map Prod.fst).filter (fun p => p.isUnder dir && p.isSource) = files)
    (hne : files ≠ []) (hsorted : files.Pairwise (Path.le · ·)) :
    s.sourcesUnder dir = some files := by
  unfold sourcesUnder
  simp only [h, List.isEmpty_iff, hne, if_false, List.mergeSort_of_pairwise hsorted]

theorem mem_of_sourcesUnder {s : FileSet} {dir : Path} {files : List Path}
    (h : s.sourcesUnder dir = some files) {f : Path} (hf : f ∈ files) :
    f ∈ s.files.map Prod.fst ∧ f.isSource = true := by
  unfold sourcesUnder at h
  simp only at h
  split at h
  · cases h
  · rw [Option.some.injEq] at h
    rw [← h, List.mem_mergeSort, List.mem_filter, Bool.and_eq_true] at hf
    exact ⟨hf.1, hf.2.2⟩

theorem isFile_of_mem {s : FileSet} {f : Path} (hf : f ∈ s.files.map Prod.fst) :
    FileStore.isFile s f = true := by
  obtain ⟨g, hg, rfl⟩ := List.mem_map.1 hf
  exact List.find?_isSome.2 ⟨g, hg, by simp [Path.same]⟩

theorem nesting_pos (s : FileSet) (p : Path) : 0 < FileStore.nesting s p :=
  Nat.pow_pos (by decide)

end FileSet

section First

open CompileM

/-- The first file of each base name that is not in `seen`. -/
def firstNamed (seen : List String) : List Path → List Path
  | [] => []
  | f :: files =>
    if f.baseName ∈ seen then firstNamed seen files
    else f :: firstNamed (f.baseName :: seen) files

theorem mem_firstNamed {f : Path} {after : List Path} : ∀ {before : List Path}
    {seen : List String}, f.baseName ∉ seen → (∀ g ∈ before, g.baseName ≠ f.baseName) →
      f ∈ firstNamed seen (before ++ f :: after)
  | [], seen, hseen, _ => by
    rw [List.nil_append, firstNamed, if_neg hseen]
    exact List.mem_cons_self
  | g :: before, seen, hseen, hbefore => by
    obtain ⟨hg, hbefore⟩ := List.forall_mem_cons.1 hbefore
    rw [List.cons_append, firstNamed]
    split
    · exact mem_firstNamed hseen hbefore
    · refine List.mem_cons_of_mem _ (mem_firstNamed ?_ hbefore)
      rw [List.mem_cons, not_or]
      exact ⟨Ne.symm hg, hseen⟩

theorem exists_first_spaced {files : List Path} (h : ¬ ∀ f ∈ files, f.Unspaced) :
    ∃ before f after, files = before ++ f :: after ∧ ¬ f.Unspaced ∧ ∀ g ∈ before, g.Unspaced := by
  induction files with
  | nil => exact absurd (by simp) h
  | cons f files ih =>
    by_cases hf : f.Unspaced
    · obtain ⟨before, g, after, rfl, hg, hbefore⟩ := ih fun hfiles =>
        h (List.forall_mem_cons.2 ⟨hf, hfiles⟩)
      exact ⟨f :: before, g, after, rfl, hg, List.forall_mem_cons.2 ⟨hf, hbefore⟩⟩
    · exact ⟨[], f, files, rfl, hf, by simp⟩

variable {store : FileSet} {f : Path} {ts : List Token} {c : Compilation FileSet}

theorem Includable.of_sourcesUnder {dir : Path} {files : List Path}
    (hfiles : store.sourcesUnder dir = some files) (hf : f ∈ files) (hunspaced : f.Unspaced)
    (hlex : Lexes store f ts) (hown : ∀ t ∈ ts, t.isInclude = false) : Includable store f ts :=
  have hmem := FileSet.mem_of_sourcesUnder hfiles hf
  ⟨FileSet.isFile_of_mem hmem.1, Path.text_ne_of_isSource hmem.2, hunspaced, hlex, hown⟩

/-- Without the library, a file that includes no other is read when its name is new. -/
theorem gives_includeFile_of_own (hstore : c.store = store)
    (hstd : c.settings.includeStd = false) (hf : Includable store f ts)
    (hnew : f.baseName ∉ c.seen) :
    ∃ c', Gives (includeFile f) c ts c' ∧ c'.store = store ∧ c'.settings.includeStd = false
      ∧ c'.seen = insert f.baseName c.seen ∧ c'.lexed = c.lexed ++ [f.baseName]
      ∧ Catalog.Below store c.catalog c'.catalog ∧ ∃ text, c'.catalog.Holds store f.text text := by
  subst hstore
  obtain ⟨text, htext, hscan⟩ := hf.lexes
  obtain ⟨n, hn⟩ := Nat.exists_eq_succ_of_ne_zero (c.store.nesting_pos f).ne'
  have henter := gives_enter_of_read (contribution n) hstd hf.isFile (Bool.eq_false_iff.2 hnew)
    htext hscan hf.own
  have hgives := gives_contribution_succ.2 (.inr ⟨_, henter, rfl⟩)
  rw [← Nat.succ_eq_add_one, ← hn] at hgives
  refine ⟨_, gives_includeFile.2 hgives, rfl, hstd, ?_, ?_, Catalog.below_insert htext _, text,
    Catalog.holds_insert htext _⟩
  · simp only [Compilation.seen_noting, Compilation.seen_entered]
  · simp [Compilation.lexed, Compilation.entered, Event.ofTokens]

theorem gives_libraryTokens {tokens : Path → List Token} (origin : String) :
    ∀ {files : List Path} {seen : List String} {c : Compilation FileSet}, c.store = store →
      c.settings.includeStd = false → (∀ n, n ∈ c.seen ↔ n ∈ seen) →
      (∀ f ∈ files, Includable store f (tokens f)) →
        ∃ c', Gives (resolveIncludesBy includeFile (libraryTokens origin files)) c
            ((firstNamed seen files).flatMap tokens) c'
          ∧ c'.lexed = c.lexed ++ (firstNamed seen files).map Path.baseName
          ∧ Catalog.Below store c.catalog c'.catalog
          ∧ ∀ f ∈ firstNamed seen files, ∃ text, c'.catalog.Holds store f.text text
  | [], seen, c, _, _, _, _ =>
    ⟨c, gives_pure.2 ⟨rfl, rfl⟩, by simp [firstNamed], fun _ _ h => h, by simp [firstNamed]⟩
  | f :: files, seen, c, hstore, hstd, hseen, hfiles => by
    obtain ⟨hf, hfiles⟩ := List.forall_mem_cons.1 hfiles
    by_cases hold : f.baseName ∈ seen
    · obtain ⟨log, hlog, hlexed⟩ := gives_contribution_again (FileStore.nesting c.store f)
        (hstore ▸ hf.isFile) ((hseen _).2 hold)
      obtain ⟨c', hrest, hlexed', hbelow, hholds⟩ := gives_libraryTokens origin
        (c := { c with log }) hstore hstd hseen hfiles
      rw [firstNamed, if_pos hold]
      refine ⟨c', ?_, hlexed'.trans (by rw [hlexed]), hbelow, hholds⟩
      exact gives_libraryTokens_cons (hstore ▸ hf) (gives_includeFile.2 hlog) hrest
    · obtain ⟨d, hd, hstore', hstd', hseen', hlexed, hbelow, text, htext⟩ :=
        gives_includeFile_of_own hstore hstd hf fun h => hold ((hseen _).1 h)
      have hnext : ∀ n, n ∈ d.seen ↔ n ∈ f.baseName :: seen := fun n => by
        rw [hseen', Set.mem_insert_iff, hseen, List.mem_cons]
      obtain ⟨c', hrest, hlexed', hbelow', hholds⟩ :=
        gives_libraryTokens origin hstore' hstd' hnext hfiles
      rw [firstNamed, if_neg hold, List.flatMap_cons, List.map_cons]
      refine ⟨c', gives_libraryTokens_cons (hstore ▸ hf) hd hrest, ?_, ?_, ?_⟩
      · rw [hlexed', hlexed, List.append_assoc, List.singleton_append]
      · exact fun origin text h => hbelow' origin text (hbelow origin text h)
      · exact List.forall_mem_cons.2 ⟨⟨text, hbelow' _ _ htext⟩, hholds⟩

/-- An include of a path that is not one word, behind includes that are resolved. -/
theorem fails_libraryTokens {tokens : Path → List Token} {before : List Path} (origin : String)
    (after : List Path) (hstore : c.store = store) (hstd : c.settings.includeStd = false)
    (hseen : ∀ n, n ∉ c.seen) (hbefore : ∀ g ∈ before, Includable store g (tokens g))
    (hf : (Text.wordsOf f.text).length ≠ 1) :
    ∃ d c',
      Fails (resolveIncludesBy includeFile (libraryTokens origin (before ++ f :: after))) c d c'
      ∧ d.fault = .includeArity ((Text.wordsOf f.text).length + 1) := by
  have hnone : ∀ n, n ∈ c.seen ↔ n ∈ ([] : List String) := fun n =>
    iff_of_false (hseen n) List.not_mem_nil
  obtain ⟨e, he, -, -, -⟩ := gives_libraryTokens origin hstore hstd hnone hbefore
  have hlength :
      (Text.wordsOf ("include " ++ f.text)).length = (Text.wordsOf f.text).length + 1 := by
    rw [Text.wordsOf_include, List.length_cons]
  obtain ⟨d, hfails, hfault⟩ := fails_includedFile_of_words (c := e)
    (t := ⟨.directive, .origin, "include " ++ f.text, origin⟩) (by simp only [hlength]; omega)
  refine ⟨d, e, ?_, hfault.trans (by rw [hlength])⟩
  rw [libraryTokens, List.map_append, resolveIncludesBy_append]
  refine fails_bind.2 (.inr ⟨_, e, he, fails_bind.2 (.inl ?_)⟩)
  rw [List.map_cons, resolveIncludesBy, if_pos (by simp [Token.isInclude])]
  exact fails_bind.2 (.inl hfails)

/-- Without the library, the includes that name the files of a directory, none of which includes
others. If no path has a blank, the first file of each base name is read, and what is given are its
tokens. If one has, but not in front, there is an include with too many words. -/
theorem resolveIncludes_libraryTokens (store : FileSet) (dir : Path) (files : List Path)
    (tokens : Path → List Token) (settings : Settings) (clock : Nat → Nat → Nat) (home : Path)
    (origin : String) (hstd : settings.includeStd = false)
    (hfiles : store.sourcesUnder dir = some files)
    (hlex : ∀ f ∈ files, Lexes store f (tokens f))
    (hown : ∀ f ∈ files, ∀ t ∈ tokens f, t.isInclude = false) :
    ((∀ f ∈ files, f.Unspaced) →
      ∃ c', Gives (resolveIncludes (libraryTokens origin files))
          (Compilation.new settings clock home store) ((firstNamed [] files).flatMap tokens) c'
        ∧ c'.lexed = (firstNamed [] files).map Path.baseName
        ∧ ∀ before f after, files = before ++ f :: after →
          (∀ g ∈ before, g.baseName ≠ f.baseName) →
            f ∈ firstNamed [] files ∧ ∃ text, c'.catalog.Holds store f.text text)
    ∧ ((∀ f ∈ files, ∀ ch ∈ f.text.toList.head?, Text.isBlank ch = false) →
      ¬ (∀ f ∈ files, f.Unspaced) →
        ∃ d c' n, Fails (resolveIncludes (libraryTokens origin files))
            (Compilation.new settings clock home store) d c'
          ∧ d.fault = .includeArity n ∧ 2 < n) := by
  have hnew : ∀ n, n ∉ (Compilation.new settings clock home store).seen := fun n =>
    Bool.eq_false_iff.1 (Compilation.isIncluded_new ..)
  have hincludable : ∀ f ∈ files, f.Unspaced → Includable store f (tokens f) := fun f hf h =>
    .of_sourcesUnder hfiles hf h (hlex f hf) (hown f hf)
  constructor
  · intro hunspaced
    have hnone : ∀ n, n ∈ (Compilation.new settings clock home store).seen
        ↔ n ∈ ([] : List String) := fun n => iff_of_false (hnew n) List.not_mem_nil
    obtain ⟨c', hgives, hlexed, -, hholds⟩ := gives_libraryTokens origin rfl hstd hnone fun f hf =>
      hincludable f hf (hunspaced f hf)
    refine ⟨c', hgives, hlexed.trans (List.nil_append _), ?_⟩
    rintro before f after rfl hbefore
    have hmem : f ∈ firstNamed [] (before ++ f :: after) :=
      mem_firstNamed List.not_mem_nil hbefore
    exact ⟨hmem, hholds f hmem⟩
  · intro hhead hspaced
    obtain ⟨before, f, after, rfl, hf, hbefore⟩ := exists_first_spaced hspaced
    obtain ⟨b, hb, hblank⟩ : ∃ b ∈ f.text.toList, Text.isBlank b = true := by
      simpa [Path.Unspaced] using hf
    have hmem : f ∈ before ++ f :: after := by simp
    have hwords := Path.one_lt_words_of_isSource (FileSet.mem_of_sourcesUnder hfiles hmem).2
      (hhead f hmem) hb hblank
    obtain ⟨d, c', hfails, hfault⟩ := fails_libraryTokens (f := f) origin after
      (c := Compilation.new settings clock home store) rfl hstd hnew
      (fun g hg => hincludable g (List.mem_append_left _ hg) (hbefore g hg)) (by omega)
    exact ⟨d, c', _, hfails, hfault, by omega⟩

/-- Two files of the same base name, and a third one between them. -/
def twoFolders : FileSet :=
  ⟨[(⟨"std/a.macrohex"⟩, "!a"), (⟨"std/b.macrohex"⟩, "!b"), (⟨"std/x/a.macrohex"⟩, "!c")]⟩

theorem resolveIncludes_libraryTokens_twoFolders :
    let files : List Path := [⟨"std/a.macrohex"⟩, ⟨"std/b.macrohex"⟩, ⟨"std/x/a.macrohex"⟩]
    twoFolders.sourcesUnder ⟨"std"⟩ = some files
      ∧ ∃ c', Gives (resolveIncludes (libraryTokens "main.macrohex" files))
          (Compilation.new plainSettings (fun _ _ => 0) ⟨""⟩ twoFolders)
          [⟨.literal, ⟨0, 0⟩, "a", "std/a.macrohex"⟩, ⟨.literal, ⟨0, 0⟩, "b", "std/b.macrohex"⟩] c'
        ∧ c'.lexed = ["a.macrohex", "b.macrohex"]
        ∧ ∃ text, c'.catalog.Holds twoFolders "std/a.macrohex" text := by
  intro files
  let tokens : Path → List Token := fun f =>
    [⟨.literal, ⟨0, 0⟩, if f = ⟨"std/a.macrohex"⟩ then "a" else if f = ⟨"std/b.macrohex"⟩ then "b"
      else "c", f.text⟩]
  have hfiles : twoFolders.sourcesUnder ⟨"std"⟩ = some files :=
    FileSet.sourcesUnder_of_sorted (by decide) (by simp [files]) (by decide)
  have hlex : ∀ f ∈ files, Lexes twoFolders f (tokens f) := by
    simp only [files, List.forall_mem_cons, List.not_mem_nil, false_implies, implies_true, and_true]
    exact ⟨⟨"!a", by cbv, by cbv⟩, ⟨"!b", by cbv, by cbv⟩, ⟨"!c", by cbv, by cbv⟩⟩
  have hfirst : firstNamed [] files = [⟨"std/a.macrohex"⟩, ⟨"std/b.macrohex"⟩] := by decide
  obtain ⟨c', hgives, hlexed, hread⟩ := (resolveIncludes_libraryTokens twoFolders ⟨"std"⟩ files
    tokens plainSettings (fun _ _ => 0) ⟨""⟩ "main.macrohex" rfl hfiles hlex
    (by simp [tokens, Token.isInclude])).1 (by decide)
  rw [hfirst] at hgives hlexed
  exact ⟨hfiles, c', hgives, hlexed, (hread [] _ _ rfl (by simp)).2⟩

/-- A file with a blank in its path. -/
def spacedPath : FileSet :=
  ⟨[(⟨"std/my lib.macrohex"⟩, "!a")]⟩

/-- The include that names it has a word too many. -/
theorem spacedPath_not_included :
    spacedPath.sourcesUnder ⟨"std"⟩ = some [⟨"std/my lib.macrohex"⟩]
      ∧ Lexes spacedPath ⟨"std/my lib.macrohex"⟩ [⟨.literal, ⟨0, 0⟩, "a", "std/my lib.macrohex"⟩]
      ∧ ∃ d c', Fails (resolveIncludes (libraryTokens "main.macrohex" [⟨"std/my lib.macrohex"⟩]))
          (Compilation.new plainSettings (fun _ _ => 0) ⟨""⟩ spacedPath) d c'
        ∧ d.fault = .includeArity 3 := by
  refine ⟨FileSet.sourcesUnder_of_sorted (by decide) (by simp) (by simp),
    ⟨"!a", by cbv, by cbv⟩, ?_⟩
  have hwords : Text.wordsOf "std/my lib.macrohex" = ["std/my", "lib.macrohex"] := by cbv
  have hbefore : ∀ g ∈ ([] : List Path), Includable spacedPath g [] := by simp
  obtain ⟨d, c', hfails, hfault⟩ := fails_libraryTokens (f := ⟨"std/my lib.macrohex"⟩)
    "main.macrohex" [] (c := Compilation.new plainSettings (fun _ _ => 0) ⟨""⟩ spacedPath) rfl rfl
    (fun n => Bool.eq_false_iff.1 (Compilation.isIncluded_new ..)) hbefore (by simp [hwords])
  exact ⟨d, c', hfails, by rw [hfault, hwords]; rfl⟩

end First

end HexPatterns
