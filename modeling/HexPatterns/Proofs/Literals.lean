import Mathlib
import HexPatterns.Proofs.Grammar
import HexPatterns.Proofs.Recompile

/-!
# Sheets of literals

A sheet is a source whose lines are literals, each behind an indent, and idle lines: blank ones and
comments. Its line ends may be of any sort, mixed as one likes. When a line end `\r` is followed by
an empty line that ends with `\n`, the two are one line end and the sheet has a line less. That line
is idle, so nothing else changes (`lineTexts_append_end`). Hence the literals of a sheet are read
back one by one (`Sheet.exists_scanLines`), and it compiles to them without the blanks around them.
-/

namespace HexPatterns

open Text

/-- The ways to end a line. -/
inductive LineEnd where
  | newline
  | carriageReturn
  | both
deriving DecidableEq, Repr

def LineEnd.chars : LineEnd → List Char
  | newline => ['\n']
  | carriageReturn => ['\r']
  | both => ['\r', '\n']

inductive SheetLine where
  /-- Blanks, and a comment or nothing. -/
  | idle (blanks comment : List Char)
  | literal (indent text : List Char)

namespace SheetLine

def chars : SheetLine → List Char
  | idle blanks comment => blanks ++ comment
  | literal indent text => indent ++ '!' :: text

def text? : SheetLine → Option (List Char)
  | idle _ _ => none
  | literal _ text => some text

def Shaped : SheetLine → Prop
  | idle blanks comment => allBlank blanks ∧ (comment = [] ∨ ['/', '/'] <+: comment)
  | literal indent text => Token.Indent indent ∧ text ≠ [] ∧ ¬ ['/', '/'] <:+: text

instance : (l : SheetLine) → Decidable l.Shaped
  | idle _ _ => inferInstanceAs (Decidable (_ ∧ (_ ∨ _)))
  | literal indent _ =>
    have : Decidable (Token.Indent indent) := List.decidableBAll _ _
    inferInstanceAs (Decidable (_ ∧ _ ≠ [] ∧ ¬ _ <:+: _))

structure WellFormed (l : SheetLine) : Prop where
  shaped : l.Shaped
  unbroken : ∀ c ∈ l.chars, ¬ IsBreak c

instance (l : SheetLine) : Decidable l.WellFormed :=
  have : Decidable (∀ c ∈ l.chars, ¬ IsBreak c) := List.decidableBAll _ _
  decidable_of_iff (l.Shaped ∧ ∀ c ∈ l.chars, ¬ IsBreak c)
    ⟨fun h => ⟨h.1, h.2⟩, fun h => ⟨h.shaped, h.unbroken⟩⟩

end SheetLine

/-- Lines with their ends, and a last line without one. -/
structure Sheet where
  lines : List (SheetLine × LineEnd)
  last : SheetLine
  wellFormed : ∀ l ∈ lines.map Prod.fst ++ [last], l.WellFormed

def Sheet.chars (s : Sheet) : List Char :=
  s.lines.flatMap (fun (l, e) => l.chars ++ e.chars) ++ s.last.chars

/-- The texts of the literals, in order. -/
def Sheet.texts (s : Sheet) : List (List Char) :=
  (s.lines.map Prod.fst ++ [s.last]).filterMap SheetLine.text?

namespace Text

theorem dropComment_append {a : List Char} (ha : '/' ∉ a) (b : List Char) :
    dropComment (a ++ b) = a ++ dropComment b := by
  induction a with
  | nil => rfl
  | cons c a ih =>
    obtain ⟨hc, ha⟩ := List.ne_and_not_mem_of_not_mem_cons ha
    rw [List.cons_append, dropComment, ih ha, List.cons_append]
    rintro rest rfl
    exact absurd rfl hc

theorem uncommented_of_not_isInfix : ∀ {cs : List Char}, ¬ ['/', '/'] <:+: cs → Uncommented cs
  | [], _ => .nil
  | [c], _ => .singleton c
  | c :: d :: cs, h => by
    refine List.isChain_cons_cons.2 ⟨?_, uncommented_of_not_isInfix fun hin => ?_⟩
    · rintro ⟨rfl, rfl⟩
      exact h (List.prefix_append ['/', '/'] cs).isInfix
    · exact h (hin.trans (List.suffix_cons c _).isInfix)

/-- A line and its end, in front of a text. If the end and the start of the text are one line end,
the text has an empty line less. -/
theorem lineTexts_append_end {l : List Char} (hl : ∀ c ∈ l, ¬ IsBreak c) (e : LineEnd)
    (rest : List Char) : ∃ more, lineTexts (l ++ (e.chars ++ rest)) = l :: more
      ∧ (lineTexts rest = more ∨ lineTexts rest = [] :: more) := by
  rw [lineTexts_append_left hl]
  cases e with
  | newline => exact ⟨lineTexts rest, by simp [LineEnd.chars, lineTexts, IsBreak], .inl rfl⟩
  | both => exact ⟨lineTexts rest, by simp [LineEnd.chars, lineTexts], .inl rfl⟩
  | carriageReturn =>
    by_cases hrest : ∃ rest', rest = '\n' :: rest'
    · obtain ⟨rest, rfl⟩ := hrest
      exact ⟨lineTexts rest, by simp [LineEnd.chars, lineTexts],
        .inr (by simp [lineTexts, IsBreak])⟩
    · refine ⟨lineTexts rest, ?_, .inl rfl⟩
      have hlines : lineTexts ('\r' :: rest) = [] :: lineTexts rest := by
        rw [lineTexts, if_pos (.inl rfl)]
        exact fun rest' _ heq => hrest ⟨rest', heq⟩
      simp [LineEnd.chars, hlines]

end Text

namespace SheetLine

/-- The line as an item of the grammar. -/
def item : SheetLine → Token.Item
  | idle blanks _ => .blank blanks
  | literal indent text => .entry indent (.marked .bang text)

variable {l : SheetLine}

theorem Shaped.item_valid (h : l.Shaped) : l.item.Valid ∧ l.item.isBare = false := by
  cases l with
  | idle blanks comment => exact ⟨h.1, rfl⟩
  | literal indent text => exact ⟨⟨h.1, trivial⟩, List.isEmpty_eq_false_iff.2 h.2.1⟩

theorem Shaped.dropComment_chars (h : l.Shaped) : [dropComment l.chars] = l.item.lines := by
  cases l with
  | idle blanks comment =>
    have hslash : '/' ∉ blanks := fun hmem => by
      cases (List.all_eq_true.1 h.1 _ hmem)
    have hcomment : dropComment comment = [] := by
      rcases h.2 with rfl | ⟨rest, rfl⟩
      · rfl
      · rfl
    rw [chars, dropComment_append hslash, hcomment, List.append_nil]
    rfl
  | literal indent text =>
    obtain ⟨hindent, -, htext⟩ := h
    have hslash : '/' ∉ indent ++ ['!'] := by
      rw [List.mem_append, not_or]
      refine ⟨fun hmem => ?_, by decide⟩
      exact absurd (hindent _ hmem) (by decide)
    have hline : indent ++ '!' :: text = indent ++ ['!'] ++ text := List.append_cons ..
    rw [chars, hline, dropComment_append hslash, (uncommented_of_not_isInfix htext).dropComment_eq,
      ← hline]
    rfl

end SheetLine

namespace Sheet

open Token

theorem literals_tokens (origin : String) (n : Nat) (l : SheetLine) :
    Literals (l.item.tokens origin n) l.text?.toList := by
  cases l with
  | idle => exact .nil
  | literal indent text => exact .cons ⟨rfl, String.toList_ofList⟩ .nil

theorem scanLines_sheetLine {origin : String} {l : SheetLine} (h : l.Shaped) (n : Nat)
    (rest : List (List Char)) :
    scanLines origin n none (dropComment l.chars :: rest)
      = (l.item.tokens origin n ++ ·) <$> scanLines origin (n + 1) none rest := by
  have hlines : l.item.lines.length = 1 := by rw [← h.dropComment_chars, List.length_singleton]
  rw [← hlines, ← scanLines_item h.item_valid.1 h.item_valid.2, ← h.dropComment_chars,
    List.singleton_append]

theorem exists_scanLines (origin : String) {last : SheetLine} (hlast : last.WellFormed) :
    ∀ {lines : List (SheetLine × LineEnd)} (n : Nat), (∀ l ∈ lines, l.1.WellFormed) →
      ∃ ts, scanLines origin n none ((lineTexts (lines.flatMap (fun (l, e) => l.chars ++ e.chars)
          ++ last.chars)).map dropComment) = .ok ts
        ∧ Literals ts ((lines.map Prod.fst ++ [last]).filterMap SheetLine.text?)
  | [], n, _ => by
    refine ⟨last.item.tokens origin n, ?_, ?_⟩
    · rw [List.flatMap_nil, List.nil_append, lineTexts_of_not_isBreak hlast.unbroken,
        List.map_singleton, scanLines_sheetLine hlast.shaped]
      simp [scanLines, Functor.map, Except.map]
    · simpa [List.filterMap_eq_flatMap_toList] using literals_tokens origin n last
  | (l, e) :: lines, n, h => by
    obtain ⟨hl, h⟩ := List.forall_mem_cons.1 h
    obtain ⟨more, hlines, hrest⟩ := lineTexts_append_end hl.unbroken e
      (lines.flatMap (fun (l, e) => l.chars ++ e.chars) ++ last.chars)
    obtain ⟨ts, hts, hall⟩ : ∃ ts, scanLines origin (n + 1) none (more.map dropComment) = .ok ts
        ∧ Literals ts ((lines.map Prod.fst ++ [last]).filterMap SheetLine.text?) := by
      rcases hrest with hrest | hrest
      · exact hrest ▸ exists_scanLines origin hlast (n + 1) h
      · obtain ⟨ts, hts, hall⟩ := exists_scanLines origin hlast n h
        have hblank : scanLine origin n none [] = .ok (none, none) := rfl
        rw [hrest, List.map_cons, dropComment, scanLines_cons_of_ok hblank] at hts
        exact ⟨ts, by simpa using hts, hall⟩
    refine ⟨l.item.tokens origin n ++ ts, ?_, ?_⟩
    · rw [List.flatMap_cons, List.append_assoc, List.append_assoc, hlines, List.map_cons,
        scanLines_sheetLine hl.shaped, hts]
      rfl
    · rw [List.filterMap_eq_flatMap_toList, List.map_cons, List.cons_append, List.flatMap_cons,
        ← List.filterMap_eq_flatMap_toList]
      exact List.rel_append (literals_tokens origin n l) hall

end Sheet

open CompileM

/-- A sheet compiles to the texts of its literals, one a line and without the blanks around them.
There is nothing to warn of, and no macro is registered. -/
theorem compile_sheet {σ : Type} [FileStore σ] (sheet : Sheet) (settings : Settings)
    (clock : Nat → Nat → Nat) (home path : Path) (store : σ)
    (hstd : settings.includeStd = false) (hformat : settings.outputFormat = .rawhex)
    (hfile : FileStore.isFile store path = true)
    (hread : FileStore.read store path = .ok (String.ofList sheet.chars)) :
    ∃ c, Gives (compile path) (Compilation.new settings clock home store)
        (String.ofList (['\n'].intercalate (sheet.texts.map trim))) c
      ∧ c.registry = .empty ∧ ∀ e ∈ c.log, e.isWarning = false := by
  have hwell := List.forall_mem_append.1 sheet.wellFormed
  obtain ⟨ts, hscan, hall⟩ := Sheet.exists_scanLines path.text
    (hwell.2 _ (List.mem_singleton_self _)) 0 fun l hl => hwell.1 _ (List.mem_map_of_mem hl)
  have hlex : Lexes store path ts := by
    refine ⟨_, hread, ?_⟩
    rw [Token.scan_eq_scanLines, String.toList_ofList]
    exact hscan
  obtain ⟨hkind, htexts⟩ := texts_of_literals hall
  obtain ⟨c, hc, hrest⟩ := gives_expandedTokens_of_literals clock home hstd hfile hlex hkind
  refine ⟨c, gives_compile.2 ⟨ts, hc, ?_⟩, hrest⟩
  apply String.toList_injective
  rw [Compilation.new, hformat, toList_render_rawhex, htexts, String.toList_ofList, Sheet.texts]

/-- Two literals under line ends of each sort. The empty line between a `\r` and a `\n` is none. -/
def mixedSheet : Sheet where
  lines :=
    [(.literal ['\t'] [' ', 'a', ' ', 'b', ' '], .carriageReturn), (.idle [] [], .newline),
      (.idle [' '] ['/', '/', '!', 'x'], .both), (.literal [] ['c', '/', 'd'], .newline)]
  last := .idle [] []
  wellFormed := by decide

theorem compile_mixedSheet :
    ∃ c, Gives (compile ⟨"main.macrohex"⟩)
        (mainCompilation .rawhex "\t! a b \r\n //!x\r\n!c/d\n") "a b\nc/d" c
      ∧ c.registry = .empty ∧ ∀ e ∈ c.log, e.isWarning = false := by
  have hchars : String.ofList mixedSheet.chars = "\t! a b \r\n //!x\r\n!c/d\n" := by cbv
  have htexts : String.ofList (['\n'].intercalate (mixedSheet.texts.map trim)) = "a b\nc/d" := by
    cbv
  rw [← hchars, ← htexts]
  exact compile_sheet mixedSheet plainSettings (fun _ _ => 0) ⟨""⟩ ⟨"main.macrohex"⟩ _ rfl rfl
    (FileSet.isFile_cons_self []) (FileSet.read_cons_self [])

end HexPatterns
