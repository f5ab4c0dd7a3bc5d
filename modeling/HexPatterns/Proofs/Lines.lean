import Mathlib
import HexPatterns.Diagnostic
import HexPatterns.Proofs.Scan

/-!
# Lines and where they stand

Without their offsets, the lines of a text are found by one recursion over it (`lineTexts`). Two
texts with a line end between them have the lines of the one and then those of the other
(`lineTexts_append`, `lineTexts_intercalate`). With its offset, a line is a stretch of the text that
holds no line end and that as many line ends precede as its number says (`exists_of_lines`). So a
span from any column of a line to its end marks a stretch of that line, cut between characters
(`Line.spanFrom_shows`).
-/

namespace HexPatterns.Text

/-- The character is part of a line end. -/
def IsBreak (c : Char) : Prop :=
  c = '\r' ∨ c = '\n'

instance (c : Char) : Decidable (IsBreak c) :=
  inferInstanceAs (Decidable (c = '\r' ∨ c = '\n'))

/-- The lines of a text, without their offsets. -/
def lineTexts : List Char → List (List Char)
  | [] => [[]]
  | '\r' :: '\n' :: cs => [] :: lineTexts cs
  | c :: cs => if IsBreak c then [] :: lineTexts cs else (lineTexts cs).modifyHead (c :: ·)

theorem modifyHead_nil_append (ls : List (List Char)) : ls.modifyHead ([] ++ ·) = ls := by
  cases ls <;> rfl

theorem map_chars_splitFrom (offset : Nat) (read cs : List Char) :
    (Line.splitFrom offset read cs).map Line.chars
      = (lineTexts cs).modifyHead (read.reverse ++ ·) := by
  fun_induction Line.splitFrom offset read cs with
  | case1 offset read => simp [lineTexts]
  | case2 offset read cs ih =>
    rw [List.map_cons, ih, List.reverse_nil, modifyHead_nil_append]
    simp [lineTexts]
  | case3 offset read c cs hno hc ih =>
    have hc : IsBreak c := hc
    rw [lineTexts, if_pos hc, List.map_cons, ih, List.reverse_nil, modifyHead_nil_append]
    · simp
    · exact hno
  | case4 offset read c cs hno hc ih =>
    have hc : ¬ IsBreak c := hc
    rw [lineTexts, if_neg hc, ih]
    · simp [Function.comp_def]
    · exact hno

theorem map_chars_lines (cs : List Char) : (lines cs).map Line.chars = lineTexts cs := by
  rw [lines, map_chars_splitFrom, List.reverse_nil, modifyHead_nil_append]

theorem length_lines (cs : List Char) : (lines cs).length = (lineTexts cs).length := by
  rw [← map_chars_lines, List.length_map]

theorem lineTexts_ne_nil (cs : List Char) : lineTexts cs ≠ [] := by
  fun_induction lineTexts cs with
  | case1 => simp
  | case2 => simp
  | case3 => simp
  | case4 c cs _ _ ih => cases h : lineTexts cs <;> simp_all

theorem not_isBreak_of_mem_lineTexts {cs l : List Char} (hl : l ∈ lineTexts cs) :
    ∀ c ∈ l, ¬ IsBreak c := by
  fun_induction lineTexts cs generalizing l with
  | case1 => simp_all
  | case2 cs ih =>
    rcases List.mem_cons.1 hl with rfl | hl
    · simp
    · exact ih hl
  | case3 c cs _ _ ih =>
    rcases List.mem_cons.1 hl with rfl | hl
    · simp
    · exact ih hl
  | case4 c cs _ hc ih =>
    rcases h : lineTexts cs with _ | ⟨first, rest⟩
    · exact absurd h (lineTexts_ne_nil cs)
    · rw [h, List.modifyHead_cons, List.mem_cons] at hl
      rcases hl with rfl | hl
      · exact List.forall_mem_cons.2 ⟨hc, ih (by simp [h])⟩
      · exact ih (by simp [h, hl])

theorem not_isBreak_of_mem_dropComment {cs l : List Char}
    (hl : l ∈ (lineTexts cs).map dropComment) : ∀ c ∈ l, ¬ IsBreak c := by
  obtain ⟨whole, hwhole, rfl⟩ := List.mem_map.1 hl
  have hpre := dropComment_prefix whole
  exact fun c hc => not_isBreak_of_mem_lineTexts hwhole c (hpre.mem hc)

/-- In front of a text, characters that end no line belong to its first line. -/
theorem lineTexts_append_left {a : List Char} (ha : ∀ c ∈ a, ¬ IsBreak c) (cs : List Char) :
    lineTexts (a ++ cs) = (lineTexts cs).modifyHead (a ++ ·) := by
  induction a with
  | nil => exact (modifyHead_nil_append _).symm
  | cons c a ih =>
    obtain ⟨hc, ha⟩ := List.forall_mem_cons.1 ha
    rw [List.cons_append, lineTexts, if_neg hc, ih ha, List.modifyHead_modifyHead]
    · rfl
    · rintro rest rfl
      exact absurd (.inl rfl) hc

/-- Behind a text, characters that end no line belong to its last line. -/
theorem length_lineTexts_append_right {b : List Char} (hb : ∀ c ∈ b, ¬ IsBreak c) (cs : List Char) :
    (lineTexts (cs ++ b)).length = (lineTexts cs).length := by
  fun_induction lineTexts cs with
  | case1 =>
    have h := lineTexts_append_left hb []
    rw [List.append_nil] at h
    rw [List.nil_append, h, List.length_modifyHead]
    rfl
  | case2 cs ih => simp [lineTexts, ih]
  | case3 c cs hno hc ih =>
    rw [List.cons_append, lineTexts, if_pos hc]
    · simp [ih]
    · rintro rest hr h
      rcases cs with _ | ⟨d, cs⟩
      · exact hb '\n' (by rw [List.nil_append] at h; simp [h]) (.inr rfl)
      · obtain ⟨rfl, -⟩ := List.cons.inj h
        exact hno cs hr rfl
  | case4 c cs _ hc ih =>
    rw [List.cons_append, lineTexts, if_neg hc]
    · simp [ih]
    · rintro rest rfl
      exact absurd (.inl rfl) hc

/-- A text that is followed by a line end is a text of its own, unless its last character and the
line end are one. -/
theorem lineTexts_append {a : List Char} (ha : a.getLast? ≠ some '\r') (cs : List Char) :
    lineTexts (a ++ '\n' :: cs) = lineTexts a ++ lineTexts cs := by
  fun_induction lineTexts a with
  | case1 => simp [lineTexts, IsBreak]
  | case2 a ih =>
    rw [List.cons_append, List.cons_append, lineTexts, ih, List.cons_append]
    intro hlast
    rcases a with _ | ⟨d, a⟩
    · simp at hlast
    · exact ha (by simpa using hlast)
  | case3 c a hno hc ih =>
    have hlast : a.getLast? ≠ some '\r' := fun h => by
      rcases a with _ | ⟨d, a⟩
      · simp at h
      · exact ha (by simpa using h)
    rw [List.cons_append, lineTexts, if_pos hc, ih hlast, List.cons_append]
    rintro rest rfl h
    rcases a with _ | ⟨d, a⟩
    · exact ha rfl
    · obtain ⟨rfl, -⟩ := List.cons.inj h
      exact hno a rfl rfl
  | case4 c a _ hc ih =>
    have hlast : a.getLast? ≠ some '\r' := fun h => by
      rcases a with _ | ⟨d, a⟩
      · simp at h
      · exact ha (by simpa using h)
    rw [List.cons_append, lineTexts, if_neg hc, ih hlast]
    · rcases h : lineTexts a with _ | ⟨first, rest⟩
      · exact absurd h (lineTexts_ne_nil a)
      · rfl
    · rintro rest rfl
      exact absurd (.inl rfl) hc

theorem length_lineTexts {cs : List Char} (h : '\r' ∉ cs) :
    (lineTexts cs).length = cs.count '\n' + 1 := by
  induction cs with
  | nil => rfl
  | cons c cs ih =>
    obtain ⟨hc, hcs⟩ := List.ne_and_not_mem_of_not_mem_cons h
    rw [lineTexts]
    · by_cases hn : c = '\n'
      · simp [hn, IsBreak, ih hcs]
      · have hno : ¬ IsBreak c := fun hb => hb.elim (Ne.symm hc) hn
        simp [hno, ih hcs, hn]
    · rintro rest rfl
      exact absurd rfl hc

/-- A text that ends no line is one line. -/
theorem lineTexts_of_not_isBreak {cs : List Char} (h : ∀ c ∈ cs, ¬ IsBreak c) :
    lineTexts cs = [cs] := by
  have happend := lineTexts_append_left h []
  rw [List.append_nil] at happend
  rw [happend]
  simp [lineTexts]

/-- Texts with line ends between them have the lines of each, one text after the other. -/
theorem lineTexts_intercalate : ∀ {texts : List (List Char)}, texts ≠ [] →
    (∀ cs ∈ texts, '\r' ∉ cs) → lineTexts (['\n'].intercalate texts) = texts.flatMap lineTexts
  | [], hne, _ => absurd rfl hne
  | [cs], _, _ => by simp
  | cs :: ds :: texts, _, h => by
    obtain ⟨hcs, hrest⟩ := List.forall_mem_cons.1 h
    have hlast : cs.getLast? ≠ some '\r' := fun hlast => hcs (List.mem_of_getLast? hlast)
    rw [List.intercalate_cons_cons, List.append_assoc, List.singleton_append,
      lineTexts_append hlast, lineTexts_intercalate (by simp) hrest, ← List.flatMap_cons]

theorem intercalate_append_head (a l : List Char) (ls : List (List Char)) :
    ['\n'].intercalate ((a ++ l) :: ls) = a ++ ['\n'].intercalate (l :: ls) := by
  cases ls <;> simp [List.intercalate_cons_cons]

/-- The lines in front of a line are each followed by a line end. -/
theorem intercalate_append_cons (l : List Char) (ls : List (List Char)) :
    ∀ front : List (List Char), ['\n'].intercalate (front ++ l :: ls)
      = front.flatMap (· ++ ['\n']) ++ ['\n'].intercalate (l :: ls)
  | [] => rfl
  | first :: front => by
    obtain ⟨next, rest, hnext⟩ : ∃ next rest, front ++ l :: ls = next :: rest := by
      cases front <;> simp
    rw [List.cons_append, hnext, List.intercalate_cons_cons, ← hnext,
      intercalate_append_cons l ls front]
    simp

theorem intercalate_lineTexts {cs : List Char} (h : '\r' ∉ cs) :
    ['\n'].intercalate (lineTexts cs) = cs := by
  induction cs with
  | nil => rfl
  | cons c cs ih =>
    obtain ⟨hc, hcs⟩ := List.ne_and_not_mem_of_not_mem_cons h
    obtain ⟨first, rest, hlines⟩ := List.exists_cons_of_ne_nil (lineTexts_ne_nil cs)
    have ih := ih hcs
    rw [lineTexts]
    · by_cases hn : c = '\n'
      · rw [if_pos (.inr hn), hn, hlines, List.intercalate_cons_cons, ← hlines, ih]
        rfl
      · have hno : ¬ IsBreak c := fun hb => hb.elim (Ne.symm hc) hn
        rw [hlines] at ih
        rw [if_neg hno, hlines, List.modifyHead_cons]
        calc ['\n'].intercalate ((c :: first) :: rest)
            = [c] ++ ['\n'].intercalate (first :: rest) := intercalate_append_head [c] first rest
          _ = c :: cs := by rw [ih, List.singleton_append]
    · rintro rest rfl
      exact absurd rfl hc

/-- A text up to a place on one of its lines, and from there on. -/
theorem eq_of_lineTexts {cs : List Char} (hreturn : '\r' ∉ cs) {front back : List (List Char)}
    {indent rest : List Char} (h : lineTexts cs = front ++ (indent ++ rest) :: back) :
    cs = front.flatMap (· ++ ['\n']) ++ indent ++ ['\n'].intercalate (rest :: back) := by
  rw [List.append_assoc, ← intercalate_append_head, ← intercalate_append_cons, ← h,
    intercalate_lineTexts hreturn]

section Offsets

@[simp] theorem byteLength_append (a b : List Char) :
    byteLength (a ++ b) = byteLength a + byteLength b := by
  induction a with
  | nil => simp [byteLength]
  | cons c a ih =>
    rw [List.cons_append]
    change c.utf8Size + byteLength (a ++ b) = c.utf8Size + byteLength a + byteLength b
    rw [ih, Nat.add_assoc]

@[simp] theorem byteLength_reverse (a : List Char) : byteLength a.reverse = byteLength a := by
  induction a with
  | nil => rfl
  | cons c a ih =>
    rw [List.reverse_cons, byteLength_append, ih]
    change byteLength a + (c.utf8Size + 0) = c.utf8Size + byteLength a
    omega

theorem byteLength_break {c : Char} (h : IsBreak c) (cs : List Char) :
    byteLength (c :: cs) = 1 + byteLength cs := by
  rcases h with rfl | rfl <;> rfl

/-- Line `i` starts where its offset says, behind `i` line ends. -/
theorem exists_of_splitFrom {offset : Nat} {read cs : List Char} (hread : ∀ c ∈ read, ¬ IsBreak c)
    {i : Nat} {l : Line} (h : (Line.splitFrom offset read cs)[i]? = some l) :
    ∃ before after, read.reverse ++ cs = before ++ l.chars ++ after
      ∧ l.offset = offset + byteLength before
      ∧ (lineTexts before).length = i + 1
      ∧ (∀ c ∈ after.head?, IsBreak c) := by
  fun_induction Line.splitFrom offset read cs generalizing i with
  | case1 offset read =>
    obtain ⟨rfl, rfl⟩ : i = 0 ∧ l = ⟨offset, read.reverse⟩ := by
      rcases i with _ | i
      · exact ⟨rfl, by simpa using h.symm⟩
      · simp at h
    exact ⟨[], [], by simp, rfl, rfl, by simp⟩
  | case2 offset read cs ih =>
    rcases i with _ | i
    · obtain rfl : l = ⟨offset, read.reverse⟩ := by simpa using h.symm
      exact ⟨[], '\r' :: '\n' :: cs, by simp, rfl, rfl, by simp [IsBreak]⟩
    · obtain ⟨before, after, hcs, hoffset, hlength, hafter⟩ := ih (by simp) h
      refine ⟨read.reverse ++ '\r' :: '\n' :: before, after, ?_, ?_, ?_, hafter⟩
      · rw [List.reverse_nil, List.nil_append] at hcs
        simp [hcs]
      · rw [hoffset, byteLength_append, byteLength_reverse, byteLength_break (.inl rfl),
          byteLength_break (.inr rfl)]
        omega
      · rw [lineTexts_append_left (by simpa using hread), List.length_modifyHead]
        simp [lineTexts, hlength]
  | case3 offset read c cs hno hc ih =>
    have hc : IsBreak c := hc
    rcases i with _ | i
    · obtain rfl : l = ⟨offset, read.reverse⟩ := by simpa using h.symm
      exact ⟨[], c :: cs, by simp, rfl, rfl, by simpa using hc⟩
    · obtain ⟨before, after, hcs, hoffset, hlength, hafter⟩ := ih (by simp) h
      rw [List.reverse_nil, List.nil_append] at hcs
      refine ⟨read.reverse ++ c :: before, after, by simp [hcs], ?_, ?_, hafter⟩
      · rw [hoffset, byteLength_append, byteLength_reverse, byteLength_break hc]
        omega
      · rw [lineTexts_append_left (by simpa using hread), List.length_modifyHead, lineTexts,
          if_pos hc, List.length_cons, hlength]
        rintro rest rfl rfl
        exact hno _ rfl hcs
  | case4 offset read c cs _ hc ih =>
    obtain ⟨before, after, hcs, hrest⟩ := ih (List.forall_mem_cons.2 ⟨hc, hread⟩) h
    exact ⟨before, after, by rw [← hcs]; simp, hrest⟩

theorem exists_of_lines {cs : List Char} {i : Nat} {l : Line} (h : (lines cs)[i]? = some l) :
    ∃ before after, cs = before ++ l.chars ++ after ∧ l.offset = byteLength before
      ∧ (lineTexts before).length = i + 1 ∧ ∀ c ∈ after.head?, IsBreak c := by
  obtain ⟨before, after, hcs, hoffset, hrest⟩ := exists_of_splitFrom (by simp) h
  exact ⟨before, after, hcs, by omega, hrest⟩

theorem isInfix_of_mem_lineTexts {cs l : List Char} (h : l ∈ lineTexts cs) : l <:+: cs := by
  rw [← map_chars_lines, List.mem_map] at h
  obtain ⟨line, hmem, rfl⟩ := h
  obtain ⟨i, hi⟩ := List.getElem?_of_mem hmem
  obtain ⟨before, after, hcs, -⟩ := exists_of_lines hi
  exact ⟨before, after, hcs.symm⟩

/-- The span marks line number `n` of the text from some column on, up to the end of the line, and
`shown` is what it marks. It is cut between characters and holds no line end. -/
def Span.Shows (span : Span) (text : List Char) (n : Nat) (shown : List Char) : Prop :=
  ∃ before after, text = before ++ shown ++ after
    ∧ span.offset = byteLength before
    ∧ span.length = byteLength shown
    ∧ (∀ c ∈ shown, ¬ IsBreak c)
    ∧ (lines before).length = n + 1
    ∧ ∀ c ∈ after.head?, IsBreak c

/-- The span marks a stretch of line number `n` of the text, up to the end of the line. -/
def Span.Marks (span : Span) (text : List Char) (n : Nat) : Prop :=
  ∃ shown, span.Shows text n shown

theorem Line.spanFrom_shows {cs : List Char} {n : Nat} {l : Line} (h : (lines cs)[n]? = some l)
    (column : Nat) : (l.spanFrom column).Shows cs n (l.chars.drop column) := by
  obtain ⟨before, after, hcs, hoffset, hlength, hafter⟩ := exists_of_lines h
  have hmem : l.chars ∈ lineTexts cs := by
    rw [← map_chars_lines]
    exact List.mem_map_of_mem (List.mem_of_getElem? h)
  have hline := not_isBreak_of_mem_lineTexts hmem
  refine ⟨before ++ l.chars.take column, after, ?_, ?_, rfl, ?_, ?_, hafter⟩
  · rw [List.append_assoc before, List.take_append_drop, hcs]
  · rw [byteLength_append, ← hoffset]
    rfl
  · exact fun c hc => hline c (List.mem_of_mem_drop hc)
  · rw [length_lines, length_lineTexts_append_right fun c hc => hline c (List.mem_of_mem_take hc),
      hlength]

theorem Line.spanFrom_marks {cs : List Char} {n : Nat} {l : Line} (h : (lines cs)[n]? = some l)
    (column : Nat) : (l.spanFrom column).Marks cs n :=
  ⟨_, spanFrom_shows h column⟩

end Offsets

end HexPatterns.Text

namespace HexPatterns.SourceText

/-- A position on a line of a source that was read has a span, which marks a stretch of that
line. -/
theorem exists_excerptAt? (name : String) {text : String} {p : Position}
    (h : p.line < (Text.lines text.toList).length) :
    ∃ span, (ofText name text).excerptAt? p = some ⟨name, text, span⟩
      ∧ span.Marks text.toList p.line := by
  have hline := List.getElem?_eq_getElem h
  refine ⟨_, ?_, Text.Line.spanFrom_marks hline p.column⟩
  simp [excerptAt?, spanAt?, ofText, hline]

end HexPatterns.SourceText

namespace HexPatterns.Token

theorem scan_eq_scanLines (origin : String) (n : Nat) (text : List Char) :
    scan origin n text = scanLines origin n none ((Text.lineTexts text).map Text.dropComment) := by
  rw [scan, ← Text.map_chars_lines, List.map_map]
  rfl

end HexPatterns.Token
