import Mathlib
import HexPatterns.Files.Set
import HexPatterns.Proofs.Formats
import HexPatterns.Proofs.Lines

/-!
# To include a file is to paste its text

A scan is compositional at line ends: what follows a text that has tokens of its own is scanned as
if it stood alone, only at later lines (`Token.scan_append`). So the tokens of a file that includes
another are, once the include is resolved, alike to the tokens of the text in which the other text
stands in the place of the include. From there on the two compilations go in step.
-/

namespace HexPatterns

namespace Token

variable {origin : String} {n : Nat}

theorem scanLines_append : ∀ {lines : List (List Char)} {n : Nat} {o? : Option Opening}
    {ts : List Token}, scanLines origin n o? lines = .ok ts → ∀ rest : List (List Char),
      scanLines origin n o? (lines ++ rest)
        = (scanLines origin (n + lines.length) none rest).map (ts ++ ·)
  | [], n, none, ts, h, rest => by
    cases h
    cases hrest : scanLines origin n none rest <;> simp [Except.map, hrest]
  | [], n, some o, ts, h, rest => by cases h
  | cs :: lines, n, o?, ts, h, rest => by
    obtain ⟨t?, o, us, hline, hlines, rfl⟩ := scanLines_cons_eq_ok_iff.1 h
    have hnumber : n + 1 + lines.length = n + (cs :: lines).length := by
      rw [List.length_cons]
      omega
    rw [List.cons_append, scanLines, hline]
    simp only [bind, Except.bind]
    rw [scanLines_append hlines rest, hnumber]
    cases scanLines origin (n + (cs :: lines).length) none rest <;>
      simp [Except.map, pure, Except.pure]

/-- What follows a text with tokens, behind a line end, is scanned as if it stood alone. -/
theorem scan_append {a : List Char} {ts : List Token} (ha : a.getLast? ≠ some '\r')
    (h : scan origin n a = .ok ts) (cs : List Char) :
    scan origin n (a ++ '\n' :: cs)
      = (scan origin (n + (Text.lineTexts a).length) cs).map (ts ++ ·) := by
  rw [scan_eq_scanLines] at h
  rw [scan_eq_scanLines, scan_eq_scanLines, Text.lineTexts_append ha, List.map_append,
    scanLines_append h, List.length_map]

theorem scan_around {a x : List Char} {front mid : List Token} (ha : a.getLast? ≠ some '\r')
    (hx : x.getLast? ≠ some '\r') (hfront : scan origin n a = .ok front)
    (hmid : scan origin (n + (Text.lineTexts a).length) x = .ok mid) (b : List Char) :
    scan origin n (a ++ '\n' :: (x ++ '\n' :: b))
      = (scan origin (n + (Text.lineTexts a).length + (Text.lineTexts x).length) b).map
        fun back => front ++ (mid ++ back) := by
  rw [scan_append ha hfront, scan_append hx hmid]
  cases scan origin (n + (Text.lineTexts a).length + (Text.lineTexts x).length) b <;> rfl

/-- The text can be taken apart into tokens. -/
def Scans (text : String) : Prop :=
  ∃ ts, scan "" 0 text.toList = .ok ts

/-- None of the tokens of the text, if it has any, is an include. -/
def NoInclude (text : String) : Prop :=
  ∀ ts, scan "" 0 text.toList = .ok ts → ∀ t ∈ ts, t.isInclude = false

theorem isInclude_eq_of_forall₂ {ts us : List Token} (h : List.Forall₂ Alike ts us)
    (hts : ∀ t ∈ ts, t.isInclude = false) : ∀ u ∈ us, u.isInclude = false := by
  induction h with
  | nil => simp
  | @cons t u ts us ht _ ih =>
    obtain ⟨htop, hts⟩ := List.forall_mem_cons.1 hts
    exact List.forall_mem_cons.2 ⟨ht.isInclude_eq ▸ htop, ih hts⟩

theorem Scans.exists_scan {text : String} (h : Scans text) (origin : String) (n : Nat) :
    ∃ ts, scan origin n text.toList = .ok ts := by
  obtain ⟨us, hus⟩ := h
  have halike : EndAlike (fun e f => e.fault = f.fault) (List.Forall₂ Alike)
      (scan "" 0 text.toList) (scan origin n text.toList) := scan_alike _
  rw [hus] at halike
  generalize scan origin n text.toList = x at halike ⊢
  cases halike with
  | ok _ => exact ⟨_, rfl⟩

theorem NoInclude.isInclude_eq {text : String} (h : NoInclude text) {ts : List Token}
    (hts : scan origin n text.toList = .ok ts) : ∀ t ∈ ts, t.isInclude = false := by
  have halike : EndAlike (fun e f => e.fault = f.fault) (List.Forall₂ Alike)
      (scan "" 0 text.toList) (scan origin n text.toList) := scan_alike _
  rcases hus : scan "" 0 text.toList with e | us <;> rw [hus, hts] at halike
  · cases halike
  · cases halike with
    | ok hall => exact isInclude_eq_of_forall₂ hall (h us hus)

end Token

namespace CompileM

variable {σ : Type} [FileStore σ] {c : Compilation σ} {path file : Path}

theorem gives_resolveIncludesBy_append {follow : Path → CompileM σ (List Token)}
    {c' : Compilation σ} {ts out : List Token} :
    ∀ {own : List Token}, (∀ t ∈ own, t.isInclude = false) →
      Gives (resolveIncludesBy follow ts) c out c' →
        Gives (resolveIncludesBy follow (own ++ ts)) c (own ++ out) c'
  | [], _, h => h
  | t :: own, hown, h => by
    obtain ⟨ht, hown⟩ := List.forall_mem_cons.1 hown
    exact gives_resolveIncludesBy_cons.2
      ⟨[t], own ++ out, c, by simp [ht], gives_resolveIncludesBy_append hown h, rfl⟩

/-- A file with one include: the tokens of the other file, which has none, come in its place. -/
theorem gives_enter_of_include {front inside back : List Token} {t : Token}
    (hstd : c.settings.includeStd = false) (hfile : FileStore.isFile c.store path = true)
    (hnew : ∀ name, c.isIncluded name = false) (hlex : Lexes c.store path (front ++ t :: back))
    (hfront : ∀ u ∈ front, u.isInclude = false) (hback : ∀ u ∈ back, u.isInclude = false)
    (ht : t.isInclude = true) (hreach : Reaches c.store t file)
    (hname : path.baseName ≠ file.baseName) (hin : Lexes c.store file inside)
    (hinside : ∀ u ∈ inside, u.isInclude = false) (hnesting : 0 < FileStore.nesting c.store file) :
    ∃ d, Gives (enter includeFile path) c (some (front ++ (inside ++ back))) d := by
  obtain ⟨catalog, htokens⟩ := gives_tokensOf
    (c := { c with included := c.included.insert path.baseName }) path.baseName hstd hlex
  obtain ⟨d, hd⟩ : ∃ d, Gives (includeFile file)
      (c.entered path.baseName catalog (front ++ t :: back)) inside d := by
    obtain ⟨m, hm⟩ := Nat.exists_eq_add_one.2 hnesting
    have hfresh : (c.entered path.baseName catalog (front ++ t :: back)).isIncluded file.baseName
        = false := by
      have hold := hnew file.baseName
      simp only [Compilation.isIncluded] at hold
      simp [Compilation.entered, Compilation.isIncluded, hname, hold]
    obtain ⟨catalog', henter⟩ := gives_enter_of_own (contribution m)
      (c := c.entered path.baseName catalog (front ++ t :: back)) hstd hreach.isFile hfresh hin
      hinside
    have hcontribution := gives_contribution_succ.2 (.inr ⟨_, henter, rfl⟩)
    rw [← hm] at hcontribution
    exact ⟨_, gives_includeFile.2 hcontribution⟩
  have hresolve : Gives (resolveIncludesBy includeFile (front ++ t :: back))
      (c.entered path.baseName catalog (front ++ t :: back)) (front ++ (inside ++ back)) d := by
    refine gives_resolveIncludesBy_append hfront (gives_resolveIncludesBy_cons.2 ?_)
    refine ⟨inside, back, d, ?_, gives_resolveIncludesBy_of_own hback, rfl⟩
    rw [if_pos ht]
    exact ⟨file, hreach, hd⟩
  refine ⟨(d.noting (.stageDone .includes path.baseName)).noting
    (.ofTokens path.baseName (front ++ (inside ++ back))), gives_enter.2 ⟨hfile, ?_⟩⟩
  rw [if_neg (by simp [hnew])]
  exact ⟨_, _, _, d, htokens, hresolve, rfl, rfl⟩

theorem fails_enter_of_scan (follow : Path → CompileM σ (List Token)) {text : String}
    {e : Token.LexError} (hstd : c.settings.includeStd = false)
    (hfile : FileStore.isFile c.store path = true)
    (hnew : c.isIncluded path.baseName = false) (htext : FileStore.read c.store path = .ok text)
    (hscan : Token.scan path.text 0 text.toList = .error e) :
    ∃ d c', Fails (enter follow path) c d c' ∧ d.fault = e.fault := by
  have hfails : Ensures (enter follow path) c (fun _ _ => False)
      (fun d _ => d.fault = e.fault) := by
    simp [enter, tokensOf, hfile, hnew, htext, hstd, SourceText.scan, hscan, Except.mapError,
      SourceText.report]
  rcases gives_or_fails (enter follow path) c with ⟨ts, c', h⟩ | ⟨d, c', h⟩
  · exact (hfails.1 ts c' h).elim
  · exact ⟨d, c', h, hfails.2 d c' h⟩

end CompileM

section Paste

open CompileM

/-- The file that is included. -/
def libraryFile : Path := ⟨"lib.macrohex"⟩

/-- The include of the file, on line `n`. -/
def libraryInclude (origin : String) (n : Nat) : Token :=
  ⟨.directive, ⟨n, 0⟩, "include lib.macrohex", origin⟩

theorem scan_libraryInclude (origin : String) (n : Nat) :
    Token.scan origin n "#include lib.macrohex".toList = .ok [libraryInclude origin n] := by
  rfl

theorem Path.baseName_eq_of_same {p q : Path} {name : String} (hname : p.fileName? = some name)
    (h : p.same q = true) : q.baseName = p.baseName := by
  have hcomponents : p.components = q.components := of_decide_eq_true h
  have hname' : q.fileName? = some name := by
    rw [← hname, fileName?, fileName?, hcomponents]
  rw [baseName, baseName, hname, hname']
  rfl

theorem same_libraryFile {main : Path} (h : main.baseName ≠ libraryFile.baseName) :
    main.same libraryFile = false := by
  refine Bool.eq_false_iff.2 fun hsame => h ?_
  have hsome : libraryFile.fileName? = some "lib.macrohex" := by decide
  have hcomponents : main.components = libraryFile.components := of_decide_eq_true hsame
  exact Path.baseName_eq_of_same hsome (decide_eq_true hcomponents.symm)

variable {main : Path} {text l : String}

theorem FileSet.isFile_cons_self (files : List (Path × String)) :
    FileStore.isFile (FileSet.mk ((main, text) :: files)) main = true := by
  simp [FileStore.isFile, FileSet.isFile, FileSet.find?, Path.same]

theorem FileSet.read_cons_self (files : List (Path × String)) :
    FileStore.read (FileSet.mk ((main, text) :: files)) main = .ok text := by
  simp [FileStore.read, FileSet.read, FileSet.find?, Path.same]

theorem FileSet.find?_libraryFile (h : main.baseName ≠ libraryFile.baseName) :
    FileSet.find? ⟨[(main, text), (libraryFile, l)]⟩ libraryFile = some (libraryFile, l) := by
  have hself : libraryFile.same libraryFile = true := by simp [Path.same]
  simp [FileSet.find?, List.find?, same_libraryFile h, hself]

theorem FileSet.reaches_libraryFile (h : main.baseName ≠ libraryFile.baseName) (origin : String)
    (n : Nat) : Reaches (FileSet.mk [(main, text), (libraryFile, l)]) (libraryInclude origin n)
      libraryFile := by
  have hfile : FileStore.isFile (FileSet.mk [(main, text), (libraryFile, l)]) libraryFile
      = true := by
    simp [FileStore.isFile, FileSet.isFile, find?_libraryFile h]
  have hasked : askedPath (FileSet.mk [(main, text), (libraryFile, l)]) origin libraryFile
      = libraryFile := if_pos hfile
  exact ⟨"include", "lib.macrohex", by cbv, hasked.symm, hfile⟩

/-- A file that includes another between two stretches of text. -/
def includingFiles (main : Path) (a l b : String) : FileSet :=
  ⟨[(main, a ++ "\n#include lib.macrohex\n" ++ b), (libraryFile, l)]⟩

/-- The same file, with the text of the other in the place of the include. -/
def pastedFiles (main : Path) (a l b : String) : FileSet :=
  ⟨[(main, a ++ "\n" ++ l ++ "\n" ++ b)]⟩

section Texts

variable {a b : String} {front mid : List Token} {origin : String}

theorem scan_including (ha : a.toList.getLast? ≠ some '\r')
    (hfront : Token.scan origin 0 a.toList = .ok front) (b : String) :
    ∃ n m, Token.scan origin 0 (a ++ "\n#include lib.macrohex\n" ++ b).toList
      = (Token.scan origin m b.toList).map fun back =>
        front ++ libraryInclude origin n :: back := by
  have htext : (a ++ "\n#include lib.macrohex\n" ++ b).toList
      = a.toList ++ '\n' :: ("#include lib.macrohex".toList ++ '\n' :: b.toList) := by simp
  rw [htext]
  exact ⟨_, _, Token.scan_around ha (by decide) hfront (scan_libraryInclude origin _) b.toList⟩

theorem scan_pasted (ha : a.toList.getLast? ≠ some '\r') (hl : l.toList.getLast? ≠ some '\r')
    (hfront : Token.scan origin 0 a.toList = .ok front) (hscans : Token.Scans l) (b : String) :
    ∃ n m mid, Token.scan origin n l.toList = .ok mid
      ∧ Token.scan origin 0 (a ++ "\n" ++ l ++ "\n" ++ b).toList
        = (Token.scan origin m b.toList).map fun back => front ++ (mid ++ back) := by
  have htext : (a ++ "\n" ++ l ++ "\n" ++ b).toList
      = a.toList ++ '\n' :: (l.toList ++ '\n' :: b.toList) := by simp
  obtain ⟨mid, hmid⟩ := hscans.exists_scan origin (0 + (Text.lineTexts a.toList).length)
  rw [htext]
  exact ⟨_, _, mid, hmid, Token.scan_around ha hl hfront hmid b.toList⟩

end Texts

variable {settings : Settings} {clock clock' : Nat → Nat → Nat} {home : Path} {a b : String}

/-- New compilations under the same settings are peers once they have entered a file each. -/
theorem peers_of_enter {store store' : FileSet} {ts? us? : Option (List Token)}
    {c d : Compilation FileSet} (hclock : ∀ k n, clock k n < settings.solver.timeoutMs)
    (hclock' : ∀ k n, clock' k n < settings.solver.timeoutMs)
    (hc : Gives (enter includeFile main) (Compilation.new settings clock home store) ts? c)
    (hd : Gives (enter includeFile main) (Compilation.new settings clock' home store') us? d) :
    Peers settings settings c d := by
  have hkept := kept_enter kept_includeFile hc
  have hkept' := kept_enter kept_includeFile hd
  refine ⟨hkept.settings, hkept'.settings, rfl, ?_, ?_, ?_⟩
  · rw [hkept.registry, hkept'.registry]
    exact Registry.empty_alike
  · rw [hkept.solver]
    exact Synthesis.Solver.new_faithful hclock
  · rw [hkept'.solver]
    exact Synthesis.Solver.new_faithful hclock'

theorem gives_enter_including (clock : Nat → Nat → Nat) (home : Path)
    {front inside back : List Token} {n m : Nat} (hstd : settings.includeStd = false)
    (hmain : main.baseName ≠ libraryFile.baseName)
    (ha : Token.NoInclude a) (hl : Token.NoInclude l) (hb : Token.NoInclude b)
    (hfront : Token.scan main.text 0 a.toList = .ok front)
    (hinside : Token.scan libraryFile.text 0 l.toList = .ok inside)
    (hback : Token.scan main.text m b.toList = .ok back)
    (htext : Token.scan main.text 0 (a ++ "\n#include lib.macrohex\n" ++ b).toList
      = .ok (front ++ libraryInclude main.text n :: back)) :
    ∃ d, Gives (enter includeFile main)
      (Compilation.new settings clock home (includingFiles main a l b))
      (some (front ++ (inside ++ back))) d := by
  have hread : FileStore.read (includingFiles main a l b) libraryFile = .ok l := by
    simp [FileStore.read, FileSet.read, includingFiles, FileSet.find?_libraryFile hmain]
  exact gives_enter_of_include
    (c := Compilation.new settings clock home (includingFiles main a l b)) hstd
    (FileSet.isFile_cons_self _) (Compilation.isIncluded_new _ _ _ _)
    ⟨_, FileSet.read_cons_self _, htext⟩ (ha.isInclude_eq hfront) (hb.isInclude_eq hback)
    (by cbv) (FileSet.reaches_libraryFile hmain _ _) hmain ⟨l, hread, hinside⟩
    (hl.isInclude_eq hinside) (Nat.two_pow_pos _)

theorem gives_enter_pasted (clock : Nat → Nat → Nat) (home : Path)
    {front mid back : List Token} {n m : Nat} (hstd : settings.includeStd = false)
    (ha : Token.NoInclude a) (hl : Token.NoInclude l) (hb : Token.NoInclude b)
    (hfront : Token.scan main.text 0 a.toList = .ok front)
    (hmid : Token.scan main.text n l.toList = .ok mid)
    (hback : Token.scan main.text m b.toList = .ok back)
    (htext : Token.scan main.text 0 (a ++ "\n" ++ l ++ "\n" ++ b).toList
      = .ok (front ++ (mid ++ back))) :
    ∃ d, Gives (enter includeFile main)
      (Compilation.new settings clock home (pastedFiles main a l b))
      (some (front ++ (mid ++ back))) d := by
  have hown : ∀ t ∈ front ++ (mid ++ back), t.isInclude = false := by
    simp only [List.mem_append]
    rintro t (ht | ht | ht)
    · exact ha.isInclude_eq hfront t ht
    · exact hl.isInclude_eq hmid t ht
    · exact hb.isInclude_eq hback t ht
  obtain ⟨catalog, hd⟩ := gives_enter_of_own includeFile
    (c := Compilation.new settings clock home (pastedFiles main a l b)) hstd
    (FileSet.isFile_cons_self _) (Compilation.isIncluded_new ..)
    ⟨_, FileSet.read_cons_self _, htext⟩ hown
  exact ⟨_, hd⟩

theorem inStep_enter_pasted (home : Path) (hstd : settings.includeStd = false)
    (hclock : ∀ k n, clock k n < settings.solver.timeoutMs)
    (hclock' : ∀ k n, clock' k n < settings.solver.timeoutMs)
    (hmain : main.baseName ≠ libraryFile.baseName) (ha : Token.Scans a) (hl : Token.Scans l)
    (hacr : a.toList.getLast? ≠ some '\r') (hlcr : l.toList.getLast? ≠ some '\r')
    (haown : Token.NoInclude a) (hlown : Token.NoInclude l) (hbown : Token.NoInclude b) :
    InStep (fun ts? c us? d => ∃ ts us, ts? = some ts ∧ us? = some us
        ∧ AlikeTokens settings settings ts c us d)
      (enter includeFile main) (Compilation.new settings clock home (includingFiles main a l b))
      (enter includeFile main) (Compilation.new settings clock' home (pastedFiles main a l b)) := by
  obtain ⟨front, hfront⟩ := ha.exists_scan main.text 0
  obtain ⟨inside, hinside⟩ := hl.exists_scan libraryFile.text 0
  obtain ⟨n, m, hincluding⟩ := scan_including hacr hfront b
  obtain ⟨n', m', mid, hmid, hpasting⟩ := scan_pasted hacr hlcr hfront hl b
  have hin : EndAlike (fun e f => e.fault = f.fault) (List.Forall₂ Token.Alike)
      (Token.scan libraryFile.text 0 l.toList) (Token.scan main.text n' l.toList) :=
    Token.scan_alike _
  have hends : EndAlike (fun e f => e.fault = f.fault) (List.Forall₂ Token.Alike)
      (Token.scan main.text m b.toList) (Token.scan main.text m' b.toList) := Token.scan_alike _
  rcases hback : Token.scan main.text m b.toList with e | back <;>
    rcases hback' : Token.scan main.text m' b.toList with e' | back' <;>
    rw [hback, hback'] at hends <;> rw [hback] at hincluding <;> rw [hback'] at hpasting
  · cases hends with
    | error hfault =>
      obtain ⟨d, c, hd, hdfault⟩ := fails_enter_of_scan includeFile
        (c := Compilation.new settings clock home (includingFiles main a l b)) hstd
        (FileSet.isFile_cons_self _) (Compilation.isIncluded_new ..) (FileSet.read_cons_self _)
        hincluding
      obtain ⟨d', c', hd', hdfault'⟩ := fails_enter_of_scan includeFile
        (c := Compilation.new settings clock' home (pastedFiles main a l b)) hstd
        (FileSet.isFile_cons_self _) (Compilation.isIncluded_new ..) (FileSet.read_cons_self _)
        hpasting
      exact .inr ⟨d, c, d', c', hd, hd', hdfault.trans (hfault.trans hdfault'.symm)⟩
  · cases hends
  · cases hends
  · rw [hinside, hmid] at hin
    cases hin with
    | ok hin =>
      cases hends with
      | ok hends =>
        obtain ⟨c, hc⟩ := gives_enter_including clock home hstd hmain haown hlown hbown hfront
          hinside hback hincluding
        obtain ⟨d, hd⟩ := gives_enter_pasted clock' home hstd haown hlown hbown hfront hmid hback'
          hpasting
        refine .of_gives hc hd ⟨_, _, rfl, rfl, ?_, peers_of_enter hclock hclock' hc hd⟩
        exact List.rel_append (List.forall₂_same.2 fun t _ => .refl t) (List.rel_append hin hends)

theorem noInclude_of_scan {text : String} {ts : List Token}
    (h : Token.scan "" 0 text.toList = .ok ts) (hown : ∀ t ∈ ts, t.isInclude = false) :
    Token.NoInclude text := by
  intro us hus
  rw [h] at hus
  cases hus
  exact hown

/-- What comes of a text that defines two macros and calls them. -/
theorem exists_gives_compile_pasted :
    ∃ d, Gives (compile ⟨"main.macrohex"⟩) (Compilation.new plainSettings (fun _ _ => 0) ⟨""⟩
      (pastedFiles ⟨"main.macrohex"⟩ "<\"m\" !x> // one\r\n" "m\n<\"n\"\n !y>" "n\n\tm"))
      "x\ny\nx" d := by
  let x : Token := ⟨.literal, ⟨0, 0⟩, "x", "main.macrohex"⟩
  let y : Token := ⟨.literal, ⟨4, 0⟩, "y", "main.macrohex"⟩
  let m : Token := ⟨.definition, ⟨0, 0⟩, "\"m\" !x", "main.macrohex"⟩
  let n : Token := ⟨.definition, ⟨3, 0⟩, "\"n\"\n !y", "main.macrohex"⟩
  let first : Token := ⟨.call, ⟨2, 0⟩, "m", "main.macrohex"⟩
  let second : Token := ⟨.call, ⟨5, 0⟩, "n", "main.macrohex"⟩
  let third : Token := ⟨.call, ⟨6, 1⟩, "m", "main.macrohex"⟩
  let r : Registry := ⟨(∅ : Std.TreeMap String (List Token) compare).insert "m" [x]⟩
  let r' : Registry := ⟨r.bodies.insert "n" [y]⟩
  have hm : ∀ catalog, define catalog .empty m = .ok r := fun _ =>
    define_eq_ok_iff.2 ⟨⟨"m", "!x".toList, 0⟩, _, by cbv, by cbv, rfl⟩
  have hn : ∀ catalog, define catalog r n = .ok r' := fun _ =>
    define_eq_ok_iff.2 ⟨⟨"n", "!y".toList, 1⟩, _, by cbv, by cbv, rfl⟩
  have hreg : ∀ catalog, registerDefinitions catalog .empty [m, first, n, second, third]
      = (r', .ok [first, second, third]) := by
    intro catalog
    have hkind : m.kind = .definition ∧ n.kind = .definition := ⟨rfl, rfl⟩
    simp [registerDefinitions, hkind, hm, hn, first, second, third, Except.map]
  have hbodies : r'.resolve "m" = some [x] ∧ r'.resolve "n" = some [y] := ⟨rfl, rfl⟩
  have hcall : ∀ {t z : Token} {ts us : List Token} (catalog : Catalog), t.kind = .call →
      r'.resolve t.content = some [z] → expandCalls catalog r' ts = .ok us →
      expandCalls catalog r' (t :: ts) = .ok (z :: us) := fun catalog hkind hbody hrest =>
    expandCalls_cons_eq_ok_iff.2 ⟨_, _, expandCall_eq_ok_iff.2 (.inl ⟨hkind, hbody⟩), hrest, rfl⟩
  have hcalls : ∀ catalog, expandCalls catalog r' [first, second, third] = .ok [x, y, x] :=
    fun catalog => hcall catalog rfl hbodies.1
      (hcall catalog rfl hbodies.2 (hcall catalog rfl hbodies.1 rfl))
  obtain ⟨d, hgives, -⟩ := exists_gives_expandedTokens plainSettings (fun _ _ => 0) ⟨""⟩
    (pastedFiles ⟨"main.macrohex"⟩ "<\"m\" !x> // one\r\n" "m\n<\"n\"\n !y>" "n\n\tm")
    ⟨"main.macrohex"⟩ rfl (by decide) rfl ⟨_, rfl, by cbv⟩ (by decide) hreg hcalls rfl rfl
  have hrender : render .rawhex [x, y, x] = "x\ny\nx" := by cbv
  exact ⟨d, gives_compile.2 ⟨_, hgives, hrender.symm⟩⟩

/-- Let three texts hold no include, of which the first two can be taken apart into tokens and do
not end with a `\r`. Without the library and with time enough, a new compilation of a file that
includes the second text between the others, and one of the file in which it stands there itself,
write out the same text or fail with the same fault. -/
theorem compile_include_eq_paste (settings : Settings) (clock clock' : Nat → Nat → Nat)
    (home main : Path) (a l b : String) (hstd : settings.includeStd = false)
    (hclock : ∀ k n, clock k n < settings.solver.timeoutMs)
    (hclock' : ∀ k n, clock' k n < settings.solver.timeoutMs)
    (hmain : main.baseName ≠ libraryFile.baseName) (ha : Token.Scans a) (hl : Token.Scans l)
    (hacr : a.toList.getLast? ≠ some '\r') (hlcr : l.toList.getLast? ≠ some '\r')
    (haown : Token.NoInclude a) (hlown : Token.NoInclude l) (hbown : Token.NoInclude b) :
    (∃ out c d,
      Gives (compile main) (Compilation.new settings clock home (includingFiles main a l b)) out c
      ∧ Gives (compile main) (Compilation.new settings clock' home (pastedFiles main a l b)) out d)
    ∨ ∃ e c f d,
      Fails (compile main) (Compilation.new settings clock home (includingFiles main a l b)) e c
        ∧ Fails (compile main) (Compilation.new settings clock' home (pastedFiles main a l b)) f d
        ∧ e.fault = f.fault := by
  have hstep := inStep_compile (inStep_enter_pasted home hstd hclock hclock' hmain ha hl hacr hlcr
    haown hlown hbown)
  rcases hstep with ⟨out, c, out', d, hout, hout', ts, us, hts, rfl, rfl⟩ | hfails
  · rw [render_eq hts] at hout
    exact .inl ⟨_, c, d, hout, hout'⟩
  · exact .inr hfails

theorem compile_include_eq_paste_calls :
    let a := "<\"m\" !x> // one\r\n"
    let l := "m\n<\"n\"\n !y>"
    let b := "n\n\tm"
    ∃ c d,
      Gives (compile ⟨"main.macrohex"⟩) (Compilation.new plainSettings (fun _ _ => 0) ⟨""⟩
        (includingFiles ⟨"main.macrohex"⟩ a l b)) "x\ny\nx" c
      ∧ Gives (compile ⟨"main.macrohex"⟩) (Compilation.new plainSettings (fun _ _ => 0) ⟨""⟩
        (pastedFiles ⟨"main.macrohex"⟩ a l b)) "x\ny\nx" d := by
  intro a l b
  have ha : Token.scan "" 0 a.toList = .ok [⟨.definition, ⟨0, 0⟩, "\"m\" !x", ""⟩] := by cbv
  have hl : Token.scan "" 0 l.toList
      = .ok [⟨.call, ⟨0, 0⟩, "m", ""⟩, ⟨.definition, ⟨1, 0⟩, "\"n\"\n !y", ""⟩] := by cbv
  have hb : Token.scan "" 0 b.toList
      = .ok [⟨.call, ⟨0, 0⟩, "n", ""⟩, ⟨.call, ⟨1, 1⟩, "m", ""⟩] := by cbv
  obtain ⟨d, hd⟩ := exists_gives_compile_pasted
  have hsame := compile_include_eq_paste plainSettings (fun _ _ => 0) (fun _ _ => 0) ⟨""⟩
    ⟨"main.macrohex"⟩ a l b rfl (fun _ _ => by decide) (fun _ _ => by decide) (by decide)
    ⟨_, ha⟩ ⟨_, hl⟩ (by decide) (by decide) (noInclude_of_scan ha (by decide))
    (noInclude_of_scan hl (by decide)) (noInclude_of_scan hb (by decide))
  rcases hsame with ⟨out, c, d', hc, hd'⟩ | ⟨_, _, f, d', -, hfails, -⟩
  · obtain ⟨rfl, -⟩ := hd.unique hd'
    exact ⟨c, d, hc, hd⟩
  · exact absurd hfails hd.not_fails

end Paste

end HexPatterns
