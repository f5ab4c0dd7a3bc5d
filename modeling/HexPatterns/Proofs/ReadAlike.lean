import Mathlib
import HexPatterns.Proofs.Contents
import HexPatterns.Proofs.Pasting

/-!
# Texts that are read alike

Two changes of a text leave its tokens as they are, or move them to other lines.

Putting a text in front, with a line end between them, moves them down by the lines of that text: a
reader that has come to the end of a line outside a definition has nothing left to remember but the
number of the line (`scan_down`). If the text in front has a marker with nothing behind it, the
reader never gets beyond it (`scan_append_of_emptyDirective`), also if the last character of that
text and the line end become one.

Writing all line ends the same way and leaving the comments out changes nothing, since the lines of
the text stay what the reader makes of them anyway (`lineTexts_tidied`).
-/

namespace HexPatterns

namespace Text

/-- Behind a `\r` a text starts anew, whether or not a `\n` belongs to it. -/
theorem lineTexts_append_return (a cs : List Char) :
    lineTexts (a ++ '\r' :: cs) = lineTexts a ++ (lineTexts ('\r' :: cs)).tail := by
  fun_induction lineTexts a with
  | case1 =>
    rcases cs with _ | ⟨d, cs⟩
    · rfl
    · by_cases hd : d = '\n'
      · simp [hd, lineTexts]
      · simp [lineTexts, IsBreak, hd]
  | case2 a ih => rw [List.cons_append, List.cons_append, lineTexts, ih, List.cons_append]
  | case3 c a hno hc ih =>
    rw [List.cons_append, lineTexts, if_pos hc, ih, List.cons_append]
    rintro rest rfl h
    rcases a with _ | ⟨d, a⟩
    · cases h
    · obtain ⟨rfl, -⟩ := List.cons.inj h
      exact hno a rfl rfl
  | case4 c a _ hc ih =>
    rw [List.cons_append, lineTexts, if_neg hc, ih]
    · rcases h : lineTexts a with _ | ⟨first, rest⟩
      · exact absurd h (lineTexts_ne_nil a)
      · rfl
    · rintro rest rfl
      exact absurd (.inl rfl) hc

/-! ## Line ends and comments -/

/-- The text with a `\n` for every line end. -/
def sameEnds : List Char → List Char
  | [] => []
  | '\r' :: '\n' :: cs => '\n' :: sameEnds cs
  | c :: cs => (if c = '\r' then '\n' else c) :: sameEnds cs

/-- The text without its comments, each of which goes from a `//` up to the next `\n`. The text may
start inside a comment. -/
def dropComments (inside : Bool) : List Char → List Char
  | [] => []
  | '\n' :: cs => '\n' :: dropComments false cs
  | '/' :: '/' :: cs => dropComments true cs
  | c :: cs => if inside then dropComments true cs else c :: dropComments false cs

/-- The text with one sort of line end and without comments. -/
def tidied (text : List Char) : List Char :=
  dropComments false (sameEnds text)

theorem lineTexts_newline (cs : List Char) : lineTexts ('\n' :: cs) = [] :: lineTexts cs := by
  simp [lineTexts, IsBreak]

theorem lineTexts_cons {c : Char} (hc : ¬ IsBreak c) (cs : List Char) :
    lineTexts (c :: cs) = (lineTexts cs).modifyHead (c :: ·) :=
  lineTexts_append_left (List.forall_mem_singleton.2 hc) cs

theorem lineTexts_sameEnds (text : List Char) :
    lineTexts (sameEnds text) = lineTexts text ∧ '\r' ∉ sameEnds text := by
  fun_induction sameEnds text with
  | case1 => exact ⟨rfl, by simp⟩
  | case2 cs ih =>
    rw [lineTexts_newline, lineTexts, ih.1]
    exact ⟨rfl, by simp [ih.2]⟩
  | case3 c cs hno ih =>
    by_cases hc : IsBreak c
    · have hend : (if c = '\r' then '\n' else c) = '\n' := by
        rcases hc with rfl | rfl <;> rfl
      have hlines : lineTexts (c :: cs) = [] :: lineTexts cs := by
        rw [lineTexts, if_pos hc]
        exact hno
      rw [hend, lineTexts_newline, hlines, ih.1]
      exact ⟨rfl, by simp [ih.2]⟩
    · have hreturn : c ≠ '\r' := fun h => hc (.inl h)
      rw [if_neg hreturn, lineTexts_cons hc, lineTexts_cons hc, ih.1]
      exact ⟨rfl, by simp [hreturn.symm, ih.2]⟩

/-- A line that is not empty starts where the text does. -/
theorem exists_eq_cons_of_lineTexts {cs next : List Char} {d : Char} {more : List (List Char)}
    (h : lineTexts cs = (d :: next) :: more) : ∃ tail, cs = d :: tail := by
  fun_cases lineTexts cs with
  | case1 => simp [lineTexts] at h
  | case2 cs => simp [lineTexts] at h
  | case3 c cs hno hc =>
    rw [lineTexts, if_pos hc] at h
    · cases h
    · exact hno
  | case4 c cs hno hc =>
    obtain ⟨first, rest, hcs⟩ := List.exists_cons_of_ne_nil (lineTexts_ne_nil cs)
    rw [lineTexts_cons hc, hcs] at h
    cases h
    exact ⟨cs, rfl⟩

theorem lineTexts_dropComments {cs : List Char} (hreturn : '\r' ∉ cs) (inside : Bool)
    {first : List Char} {rest : List (List Char)} (h : lineTexts cs = first :: rest) :
    lineTexts (dropComments inside cs)
      = (if inside then [] else dropComment first) :: rest.map dropComment := by
  fun_induction dropComments inside cs generalizing first rest with
  | case1 inside =>
    obtain ⟨rfl, rfl⟩ : first = [] ∧ rest = [] := by simpa [lineTexts, eq_comm] using h
    simp [lineTexts, dropComment]
  | case2 inside cs ih =>
    rw [lineTexts_newline] at h
    obtain ⟨rfl, rfl⟩ := List.cons.inj h
    obtain ⟨next, more, hcs⟩ := List.exists_cons_of_ne_nil (lineTexts_ne_nil cs)
    rw [lineTexts_newline, ih (List.not_mem_of_not_mem_cons hreturn) hcs, hcs]
    simp [dropComment]
  | case3 inside cs ih =>
    obtain ⟨next, more, hcs⟩ := List.exists_cons_of_ne_nil (lineTexts_ne_nil cs)
    have hslash : ¬ IsBreak '/' := by decide
    rw [lineTexts_cons hslash, lineTexts_cons hslash, hcs] at h
    obtain ⟨rfl, rfl⟩ := List.cons.inj h
    have hreturn : '\r' ∉ cs := by simpa using hreturn
    rw [ih hreturn hcs]
    simp [dropComment]
  | case4 c cs hnewline hslash ih =>
    obtain ⟨hc, hcs⟩ := List.ne_and_not_mem_of_not_mem_cons hreturn
    obtain ⟨next, more, hlines⟩ := List.exists_cons_of_ne_nil (lineTexts_ne_nil cs)
    have hbreak : ¬ IsBreak c := fun hb => hb.elim (Ne.symm hc) hnewline
    rw [lineTexts_cons hbreak, hlines] at h
    obtain ⟨rfl, rfl⟩ := List.cons.inj h
    rw [ih hcs hlines, if_pos rfl, if_pos rfl]
  | case5 inside c cs hnewline hslash hinside ih =>
    obtain ⟨hc, hcs⟩ := List.ne_and_not_mem_of_not_mem_cons hreturn
    obtain ⟨next, more, hlines⟩ := List.exists_cons_of_ne_nil (lineTexts_ne_nil cs)
    have hbreak : ¬ IsBreak c := fun hb => hb.elim (Ne.symm hc) hnewline
    rw [lineTexts_cons hbreak, hlines] at h
    obtain ⟨rfl, rfl⟩ := List.cons.inj h
    have hdrop : dropComment (c :: next) = c :: dropComment next := by
      rw [dropComment]
      rintro tail rfl rfl
      obtain ⟨tail, rfl⟩ := exists_eq_cons_of_lineTexts hlines
      exact hslash tail rfl rfl
    rw [lineTexts_cons hbreak, ih hcs hlines, if_neg hinside, hdrop]
    rfl

theorem lineTexts_tidied (text : List Char) :
    lineTexts (tidied text) = (lineTexts text).map dropComment := by
  obtain ⟨hlines, hreturn⟩ := lineTexts_sameEnds text
  obtain ⟨first, rest, htext⟩ := List.exists_cons_of_ne_nil (lineTexts_ne_nil text)
  rw [tidied, lineTexts_dropComments hreturn false (hlines.trans htext), htext]
  rfl

theorem Uncommented.not_isInfix {cs : List Char} (h : Uncommented cs) : ¬ ['/', '/'] <:+: cs := by
  intro hin
  have hslashes : Uncommented ['/', '/'] := List.IsChain.infix h hin
  exact (List.isChain_cons_cons.1 hslashes).1 ⟨rfl, rfl⟩

end Text

/-- The place `k` lines further down. -/
def Position.down (k : Nat) (p : Position) : Position :=
  ⟨p.line + k, p.column⟩

namespace Token

open Text

variable {origin : String} {n : Nat}

def down (k : Nat) (t : Token) : Token :=
  { t with position := t.position.down k }

def LexError.down (k : Nat) : LexError → LexError
  | emptyDirective marker p => .emptyDirective marker (p.down k)
  | unclosedMacro p => .unclosedMacro (p.down k)

/-! ## Further down -/

section Down

def Opening.down (k : Nat) (o : Opening) : Opening :=
  o.move (o.position.down k)

def Yield.down (k : Nat) (y : Yield) : Yield :=
  (y.1.map (Token.down k), y.2.map (Opening.down k))

variable {k : Nat}

theorem scanInside_down (o : Opening) (cs : List Char) :
    scanInside origin (o.down k) cs = Yield.down k (scanInside origin o cs) := by
  unfold scanInside Opening.down
  rw [Opening.readLine_move]
  rcases hread : o.readLine cs with left | content
  · rw [← (Opening.of_readLine_eq_inl hread).1]
    rfl
  · rfl

theorem scanMarked_down (kind : Kind) (marker : Char) (p : Position) (cs : List Char) :
    EndAlike (fun e f => f = e.down k) (fun y z => z = Yield.down k y)
      (scanMarked origin kind marker p cs) (scanMarked origin kind marker (p.down k) cs) := by
  unfold scanMarked
  split
  · exact .error rfl
  · exact .ok rfl

theorem scanOutside_down (column : Nat) (cs : List Char) :
    EndAlike (fun e f => f = e.down k) (fun y z => z = Yield.down k y)
      (scanOutside origin n column cs) (scanOutside origin (n + k) column cs) := by
  fun_induction scanOutside origin n column cs with
  | case1 column => exact .ok rfl
  | case2 column cs ih => exact ih
  | case3 column cs ih => exact ih
  | case4 column cs => exact scanMarked_down .directive '#' ⟨n, column⟩ cs
  | case5 column cs => exact scanMarked_down .literal '!' ⟨n, column⟩ cs
  | case6 column cs => exact .ok (scanInside_down ⟨⟨n, column⟩, 0, []⟩ cs)
  | case7 column cs hnil hspace htab hhash hbang hopen =>
    rw [scanOutside]
    · exact .ok rfl
    all_goals assumption

theorem scanLine_down (o? : Option Opening) (cs : List Char) :
    EndAlike (fun e f => f = e.down k) (fun y z => z = Yield.down k y)
      (scanLine origin n o? cs) (scanLine origin (n + k) (o?.map (Opening.down k)) cs) := by
  cases o? with
  | none =>
    simp only [scanLine, Option.map_none]
    split
    · exact .ok rfl
    · exact scanOutside_down 0 cs
  | some o =>
    simp only [scanLine, Option.map_some]
    split
    · exact .ok rfl
    · exact .ok (scanInside_down o cs)

theorem scanLines_down : ∀ (lines : List (List Char)) (n : Nat) (o? : Option Opening),
    EndAlike (fun e f => f = e.down k) (fun ts us => us = ts.map (down k))
      (scanLines origin n o? lines) (scanLines origin (n + k) (o?.map (Opening.down k)) lines)
  | [], n, none => .ok rfl
  | [], n, some o => .error rfl
  | cs :: rest, n, o? => by
    rw [scanLines, scanLines, Nat.add_right_comm]
    refine (scanLine_down o? cs).bind ?_
    rintro ⟨t?, p?⟩ _ rfl
    refine (scanLines_down rest (n + 1) p?).bind ?_
    rintro ts _ rfl
    refine .ok ?_
    cases t? <;> rfl

/-- A text that is read `k` lines further down has its tokens, or its fault, there. -/
theorem scan_down (text : List Char) :
    EndAlike (fun e f => f = e.down k) (fun ts us => us = ts.map (down k))
      (scan origin n text) (scan origin (n + k) text) :=
  scanLines_down _ n none

end Down

/-! ## Behind a line end -/

section Append

variable {a : List Char} {marker : Char} {p : Position}

theorem scanLines_append_of_emptyDirective : ∀ {lines : List (List Char)} {n : Nat}
    {o? : Option Opening}, scanLines origin n o? lines = .error (.emptyDirective marker p) →
      ∀ rest, scanLines origin n o? (lines ++ rest) = .error (.emptyDirective marker p)
  | [], n, none, h, _ => by cases h
  | [], n, some o, h, _ => by cases h
  | cs :: lines, n, o?, h, rest => by
    rw [List.cons_append, scanLines]
    rw [scanLines] at h
    rcases hline : scanLine origin n o? cs with e | ⟨t?, o⟩
    · rw [hline] at h
      exact h
    · rw [hline] at h
      rcases hlines : scanLines origin (n + 1) o lines with e | ts
      · simp only [bind, Except.bind, hlines] at h ⊢
        cases h
        rw [scanLines_append_of_emptyDirective hlines rest]
      · simp [bind, Except.bind, hlines, pure, Except.pure] at h

/-- An empty line at the end makes no difference, inside a definition or outside. -/
theorem scanLines_concat_nil : ∀ (lines : List (List Char)) (n : Nat) (o? : Option Opening),
    scanLines origin n o? (lines ++ [[]]) = scanLines origin n o? lines
  | [], n, none => rfl
  | [], n, some o => rfl
  | cs :: lines, n, o? => by
    rw [List.cons_append, scanLines, scanLines]
    simp only [scanLines_concat_nil lines]

theorem scan_append_of_emptyDirective
    (h : scan origin n a = .error (.emptyDirective marker p)) (b : List Char) :
    scan origin n (a ++ '\n' :: b) = .error (.emptyDirective marker p) := by
  rw [scan_eq_scanLines] at h ⊢
  by_cases ha : a.getLast? = some '\r'
  · obtain ⟨front, rfl⟩ := List.getLast?_eq_some_iff.1 ha
    have hlines : lineTexts (front ++ ['\r']) = lineTexts front ++ [[]] :=
      lineTexts_append_return front []
    have hjoined : lineTexts (front ++ ['\r'] ++ '\n' :: b) = lineTexts front ++ lineTexts b := by
      rw [List.append_assoc]
      exact lineTexts_append_return front ('\n' :: b)
    rw [hlines, List.map_append, List.map_singleton, dropComment, scanLines_concat_nil] at h
    rw [hjoined, List.map_append]
    exact scanLines_append_of_emptyDirective h _
  · rw [lineTexts_append ha, List.map_append]
    exact scanLines_append_of_emptyDirective h _

/-- Reading is compositional at line ends. Behind a text with tokens a text is read as if it stood
alone, only further down; behind a marker that has nothing behind it nothing is read. -/
theorem scan_append_line (origin : String) (n : Nat) (a b : List Char) :
    (∀ ts, a.getLast? ≠ some '\r' → scan origin n a = .ok ts →
      scan origin n (a ++ '\n' :: b) = match scan origin n b with
        | .ok us => .ok (ts ++ us.map (down (Text.lines a).length))
        | .error e => .error (e.down (Text.lines a).length))
    ∧ ∀ marker p, scan origin n a = .error (.emptyDirective marker p) →
      scan origin n (a ++ '\n' :: b) = .error (.emptyDirective marker p) := by
  refine ⟨fun ts ha h => ?_, fun marker p h => scan_append_of_emptyDirective h b⟩
  have hdown : EndAlike (fun e f => f = e.down (Text.lines a).length)
      (fun ts us => us = ts.map (down (Text.lines a).length)) (scan origin n b)
      (scan origin (n + (Text.lines a).length) b) := scan_down b
  rw [scan_append ha h, ← length_lines]
  generalize scan origin n b = alone at hdown ⊢
  generalize scan origin (n + (Text.lines a).length) b = below at hdown ⊢
  cases hdown with
  | ok hus =>
    rw [hus]
    rfl
  | error hf =>
    rw [hf]
    rfl

/-- Line ends of each sort, a definition over several lines and a comment in front. -/
theorem scan_append_line_mixedEnds :
    let a := "m\r<\"d\"\n !x//c\r\n>y"
    let ts : List Token := [⟨.call, ⟨0, 0⟩, "m", ""⟩, ⟨.definition, ⟨1, 0⟩, "\"d\"\n !x\n", ""⟩]
    a.toList.getLast? ≠ some '\r' ∧ scan "" 0 a.toList = .ok ts
      ∧ scan "" 0 (a.toList ++ '\n' :: "\r !z".toList) = .ok (ts ++ [⟨.literal, ⟨5, 1⟩, "z", ""⟩])
      ∧ scan "" 0 (a.toList ++ '\n' :: "\r#".toList) = .error (.emptyDirective '#' ⟨5, 0⟩)
      ∧ scan "" 0 ("x\n!\r".toList ++ '\n' :: "<".toList)
          = .error (.emptyDirective '!' ⟨1, 0⟩) := by
  intro a ts
  have hlast : a.toList.getLast? ≠ some '\r' := by
    have hy : a.toList.getLast? = some 'y' := by cbv
    simp [hy]
  have ha : scan "" 0 a.toList = .ok ts := by cbv
  have hlength : (Text.lines a.toList).length = 4 := by cbv
  have hliteral : scan "" 0 "\r !z".toList = .ok [⟨.literal, ⟨1, 1⟩, "z", ""⟩] := by cbv
  have hbare : scan "" 0 "\r#".toList = .error (.emptyDirective '#' ⟨1, 0⟩) := by cbv
  have hfails : scan "" 0 "x\n!\r".toList = .error (.emptyDirective '!' ⟨1, 0⟩) := by cbv
  refine ⟨hlast, ha, ?_, ?_, (scan_append_line "" 0 _ _).2 _ _ hfails⟩
  · rw [(scan_append_line "" 0 a.toList _).1 ts hlast ha, hliteral, hlength]
    rfl
  · rw [(scan_append_line "" 0 a.toList _).1 ts hlast ha, hbare, hlength]
    rfl

end Append

/-! ## Without comments -/

/-- A text is read as the text with one sort of line end and without comments is, and what is read
holds neither `\r` nor `//`, nor `\n` unless it is a definition. -/
theorem scan_tidied (origin : String) (n : Nat) (text : List Char) :
    scan origin n (tidied text) = scan origin n text
      ∧ ∀ ts, scan origin n text = .ok ts → ∀ t ∈ ts,
        '\r' ∉ t.content.toList ∧ ¬ ['/', '/'] <:+: t.content.toList
          ∧ (t.kind ≠ .definition → '\n' ∉ t.content.toList) := by
  constructor
  · rw [scan_eq_scanLines, scan_eq_scanLines, lineTexts_tidied, List.map_map]
    congr 1
    exact List.map_congr_left fun l _ => (dropComment_uncommented l).dropComment_eq
  · intro ts hts t ht
    have hclean := clean_of_scan hts t ht
    exact ⟨hclean.no_return, hclean.uncommented.not_isInfix, hclean.no_newline⟩

/-- Brackets, a marker and all the text of a line in comments, inside a definition and outside. -/
theorem scan_tidied_comments :
    let text := "#a/b//!\r\n<\"d\"// >\r\t//\r\nx>//\n //#"
    let ts : List Token :=
      [⟨.directive, ⟨0, 0⟩, "a/b", ""⟩, ⟨.definition, ⟨1, 0⟩, "\"d\"\n\nx", ""⟩]
    tidied text.toList = "#a/b\n<\"d\"\n\t\nx>\n ".toList ∧ scan "" 0 text.toList = .ok ts
      ∧ scan "" 0 (tidied text.toList) = .ok ts
      ∧ ∀ t ∈ ts, '\r' ∉ t.content.toList ∧ ¬ ['/', '/'] <:+: t.content.toList
          ∧ (t.kind ≠ .definition → '\n' ∉ t.content.toList) := by
  intro text ts
  have htidied : tidied text.toList = "#a/b\n<\"d\"\n\t\nx>\n ".toList := by cbv
  have hts : scan "" 0 text.toList = .ok ts := by cbv
  obtain ⟨hsame, hcontents⟩ := scan_tidied "" 0 text.toList
  exact ⟨htidied, hts, hsame.trans hts, hcontents ts hts⟩

end Token

end HexPatterns
