import Mathlib
import HexPatterns.Proofs.Bodies
import HexPatterns.Proofs.Literals

/-!
# Lines wrapped in a definition

A text that can be read is put between a line that opens a definition and one that closes it. If its
brackets are balanced, the second of these lines is where the definition ends. Its content has the
lines of the text, freed of their comments and emptied where they are blank, and neither makes a
difference when they are read again (`scanLines_emptied`). Of the body, blank lines and an indent
are cut off at the front. What is left starts with the first entry of the text, provided that this
does not start with a blank of its own. So the body is read to the entries of the text again, one
line further down, and only the first of them may have lost an indent.
-/

namespace HexPatterns

open Text

namespace Text

/-- The lines of a text without their comments, every line end being the same. -/
def withoutComments (text : List Char) : List Char :=
  ['\n'].intercalate ((lines text).map fun l => dropComment l.chars)

/-- The number of the first line that holds more than blanks and a comment. -/
def firstLine (text : List Char) : Nat :=
  ((lines text).map fun l => dropComment l.chars).findIdx fun l => !allBlank l

/-- The line has no comment and ends no line. -/
structure PlainLine (l : List Char) : Prop where
  uncommented : Uncommented l
  unbroken : ∀ c ∈ l, ¬ IsBreak c

theorem PlainLine.of_isInfix {l k : List Char} (h : PlainLine l) (hk : k <:+: l) :
    PlainLine k where
  uncommented := List.IsChain.infix h.uncommented hk
  unbroken c hc := h.unbroken c (hk.mem hc)

theorem plainLine_of_mem_dropComment {text l : List Char}
    (h : l ∈ (lineTexts text).map dropComment) : PlainLine l := by
  refine ⟨?_, not_isBreak_of_mem_dropComment h⟩
  obtain ⟨whole, -, rfl⟩ := List.mem_map.1 h
  exact dropComment_uncommented whole

theorem map_dropComment_lines (text : List Char) :
    (lines text).map (fun l => dropComment l.chars) = (lineTexts text).map dropComment := by
  rw [← map_chars_lines, List.map_map]
  rfl

end Text

namespace Token

variable {origin : String} {n : Nat}

/-- The text between a line that opens a definition of the name and a line that closes it. -/
def wrapped (name text : List Char) : List Char :=
  '<' :: '"' :: (name ++ '"' :: '\n' :: (text ++ ['\n', '>']))

/-- The name ends neither itself nor its line, and does not count as brackets. -/
structure Nameable (name : List Char) : Prop where
  plain : ∀ c ∈ name, c ∉ ['"', '<', '>', '\r', '\n']
  uncommented : ¬ ['/', '/'] <:+: name

/-- The text closes what it opens and no more, its end is no half of a line end, and the first of
its characters that is neither a space, a tabulator nor a line end is not another blank. -/
structure Wrappable (text : List Char) : Prop where
  balanced : Balanced (withoutComments text)
  whole : text.getLast? ≠ some '\r'
  start : ∀ c ∈ (withoutComments text).find? fun c => ¬ (c = ' ' ∨ c = '\t' ∨ IsBreak c),
    isBlank c = false

/-! ## Reading plain lines -/

theorem scan_intercalate {ws : List (List Char)} (hne : ws ≠ []) (h : ∀ w ∈ ws, PlainLine w) :
    scan origin n (['\n'].intercalate ws) = scanLines origin n none ws := by
  have hno : ∀ w ∈ ws, '\r' ∉ w ∧ '\n' ∉ w := fun w hw =>
    ⟨fun hmem => (h w hw).unbroken _ hmem (.inl rfl),
      fun hmem => (h w hw).unbroken _ hmem (.inr rfl)⟩
  rw [scan_eq_scanLines, lineTexts_intercalate hne fun w hw => (hno w hw).1, flatMap_lineTexts hno]
  congr 1
  conv_rhs => rw [← List.map_id ws]
  exact List.map_congr_left fun w hw => (h w hw).uncommented.dropComment_eq

theorem scanLine_emptied (o? : Option Opening) (l : List Char) :
    scanLine origin n o? (emptiedIfBlank l) = scanLine origin n o? l := by
  unfold emptiedIfBlank
  split
  · rename_i hblank
    cases o? <;> simp [scanLine, hblank, show allBlank [] = true from rfl]
  · rfl

/-- Emptying blank lines makes no difference to what is read. -/
theorem scanLines_emptied : ∀ (ls : List (List Char)) (n : Nat) (o? : Option Opening),
    scanLines origin n o? (ls.map emptiedIfBlank) = scanLines origin n o? ls
  | [], _, _ => rfl
  | l :: ls, n, o? => by
    rw [List.map_cons, scanLines, scanLines, scanLine_emptied]
    simp only [scanLines_emptied ls]

/-! ## The definition -/

section Wrapped

variable {name text : List Char}

theorem Nameable.plainLine (h : Nameable name) : PlainLine ('<' :: '"' :: (name ++ ['"'])) := by
  constructor
  · have hname := uncommented_of_not_isInfix h.uncommented
    have hquoted : Uncommented (name ++ ['"']) :=
      List.isChain_append.2 ⟨hname, .singleton _, by simp⟩
    refine List.isChain_cons.2 ⟨by simp, List.isChain_cons.2 ⟨by simp, hquoted⟩⟩
  · simp only [List.forall_mem_cons, List.forall_mem_append]
    refine ⟨by decide, by decide, fun c hc hbreak => ?_, by decide, by simp⟩
    rcases hbreak with rfl | rfl
    · exact h.plain _ hc (by simp)
    · exact h.plain _ hc (by simp)

theorem Nameable.brackets_eq (h : Nameable name) : brackets ('"' :: (name ++ ['"'])) = [] := by
  refine List.filter_eq_nil_iff.2 fun c hc hbracket => ?_
  have hcases : c = '"' ∨ c ∈ name := by simpa [or_comm, or_assoc] using hc
  rcases hcases with rfl | hmem
  · simp at hbracket
  · rcases of_decide_eq_true hbracket with rfl | rfl <;> exact h.plain _ hmem (by simp)

theorem Wrappable.lines_wrapped (htext : Wrappable text) (hname : Nameable name) :
    (lineTexts (wrapped name text)).map dropComment
      = (Item.entry [] (.definition (('"' :: (name ++ ['"']))
          :: (lineTexts text).map dropComment) [] [])).lines := by
  have hfirst := hname.plainLine
  have hsplit : wrapped name text
      = ('<' :: '"' :: (name ++ ['"'])) ++ '\n' :: (text ++ '\n' :: ['>']) := by simp [wrapped]
  have hlast : ('<' :: '"' :: (name ++ ['"'])).getLast? ≠ some '\r' := fun h =>
    hfirst.unbroken _ (List.mem_of_getLast? h) (.inl rfl)
  rw [hsplit, lineTexts_append hlast, lineTexts_append htext.whole,
    lineTexts_of_not_isBreak hfirst.unbroken, List.map_append, List.map_append, List.map_singleton,
    hfirst.uncommented.dropComment_eq]
  simp [Item.lines, Entry.lines, lineTexts, IsBreak, dropComment]

/-- The wrapped text is one definition. Its content has the lines of the text, and an empty one. -/
theorem Wrappable.scan_wrapped (htext : Wrappable text) (hname : Nameable name) (origin : String)
    (n : Nat) : scan origin n (wrapped name text) = .ok [⟨.definition, ⟨n, 0⟩, String.ofList
      ('"' :: (name ++ '"' :: '\n' :: ['\n'].intercalate
        (((lineTexts text).map dropComment).map emptiedIfBlank ++ [[]]))), origin⟩] := by
  have hvalid : (Entry.definition (('"' :: (name ++ ['"'])) :: (lineTexts text).map dropComment)
      [] []).Valid := by
    have hbalanced := htext.balanced
    rw [withoutComments, map_dropComment_lines, ← balanced_brackets, brackets_intercalate]
      at hbalanced
    rw [Entry.Valid, closes_iff_balanced, ← balanced_brackets, List.append_nil, List.flatten_cons,
      brackets_append, hname.brackets_eq]
    exact hbalanced
  have hindent : Indent [] := by simp [Indent]
  rw [scan_eq_scanLines, htext.lines_wrapped hname, ← List.append_nil (Item.lines _),
    scanLines_definition hindent hvalid, Entry.token, Entry.emptied, List.cons_append,
    intercalate_cons_concat]
  simp [scanLines, Functor.map, Except.map]

end Wrapped

/-! ## The body -/

theorem flatMap_emptied {blanks : List (List Char)} (h : ∀ l ∈ blanks, allBlank l = true) :
    (blanks.map emptiedIfBlank).flatMap (· ++ ['\n']) = List.replicate blanks.length '\n' := by
  induction blanks with
  | nil => rfl
  | cons l blanks ih =>
    obtain ⟨hl, h⟩ := List.forall_mem_cons.1 h
    rw [List.map_cons, List.flatMap_cons, ih h, emptiedIfBlank, if_pos hl]
    rfl

theorem allBlank_replicate (k : Nat) : allBlank (List.replicate k '\n') = true := by
  refine List.all_eq_true.2 fun c hc => ?_
  rw [List.eq_of_mem_replicate hc]
  decide

theorem Indent.allBlank {indent : List Char} (h : Indent indent) : allBlank indent = true := by
  refine List.all_eq_true.2 fun c hc => ?_
  rcases h c hc with rfl | rfl <;> decide

theorem Indent.count_newline {indent : List Char} (h : Indent indent) :
    indent.count '\n' = 0 :=
  List.count_eq_zero.2 fun hmem => absurd (h _ hmem) (by decide)

/-- The items of a text are blank lines only, or blank lines up to a first entry. -/
theorem blanks_or_exists_entry : ∀ items : List Item,
    (∃ blanks : List (List Char), items = blanks.map .blank)
      ∨ ∃ (blanks : List (List Char)) (indent : List Char) (e : Entry) (rest : List Item),
        items = blanks.map .blank ++ .entry indent e :: rest
  | [] => .inl ⟨[], rfl⟩
  | .entry indent e :: items => .inr ⟨[], indent, e, items, rfl⟩
  | .blank l :: items => by
    rcases blanks_or_exists_entry items with ⟨blanks, rfl⟩ | ⟨blanks, indent, e, rest, rfl⟩
    · exact .inl ⟨l :: blanks, rfl⟩
    · exact .inr ⟨l :: blanks, indent, e, rest, rfl⟩

theorem flatMap_lines_blank (blanks : List (List Char)) :
    (blanks.map Item.blank).flatMap Item.lines = blanks := by
  induction blanks with
  | nil => rfl
  | cons l blanks ih =>
    rw [List.map_cons, List.flatMap_cons, ih]
    rfl

theorem tokensFrom_blank_append (items : List Item) : ∀ (blanks : List (List Char)) (n : Nat),
    tokensFrom origin n (blanks.map .blank ++ items) = tokensFrom origin (n + blanks.length) items
  | [], n => rfl
  | l :: blanks, n => by
    rw [List.map_cons, List.cons_append, tokensFrom, tokensFrom_blank_append items blanks,
      List.length_cons]
    show [] ++ tokensFrom origin (n + 1 + blanks.length) items = _
    rw [List.nil_append, Nat.add_right_comm, Nat.add_assoc]

/-- The token has come a line further down. If it was not on the line `first` it has kept its
column. -/
structure Lowered (first : Nat) (t u : Token) : Prop where
  alike : t.Alike u
  origin : u.origin = t.origin
  line : u.position.line = t.position.line + 1
  column : t.position.line ≠ first → u.position.column = t.position.column

theorem Entry.lowered {first : Nat} (e : Entry) (n column column' : Nat)
    (h : n ≠ first → column' = column) :
    (e.token origin ⟨n, column⟩).Lowered first (e.token origin ⟨n + 1, column'⟩) := by
  cases e <;> exact ⟨⟨rfl, rfl⟩, rfl, rfl, h⟩

theorem tokensFrom_lowered (first : Nat) : ∀ (items : List Item) (n : Nat),
    List.Forall₂ (Lowered first) (tokensFrom origin n items) (tokensFrom origin (n + 1) items)
  | [], _ => .nil
  | i :: items, n => by
    rw [tokensFrom, tokensFrom, Nat.add_right_comm]
    refine List.rel_append ?_ (tokensFrom_lowered first items _)
    cases i with
    | blank l => exact .nil
    | entry indent e => exact .cons (e.lowered n _ _ fun _ => rfl) .nil

theorem findIdx_blanks {l : List Char} {ls : List (List Char)} (hl : allBlank l = false) :
    ∀ {blanks : List (List Char)}, (∀ k ∈ blanks, allBlank k = true) →
      (blanks ++ l :: ls).findIdx (fun k => !allBlank k) = blanks.length
  | [], _ => by simp [List.findIdx_cons, hl]
  | k :: blanks, h => by
    obtain ⟨hk, h⟩ := List.forall_mem_cons.1 h
    simp [List.findIdx_cons, hk, findIdx_blanks hl h]

/-- The lines of the items in a content, whose last line is the empty one in front of the closing
bracket. -/
def innerText (items : List Item) : List Char :=
  ['\n'].intercalate ((items.flatMap Item.lines).map emptiedIfBlank ++ [[]])

theorem scan_innerText {items : List Item} (hvalid : ∀ i ∈ items, i.Valid)
    (hbare : ∀ i ∈ items, i.isBare = false)
    (hplain : ∀ l ∈ items.flatMap Item.lines, PlainLine l) :
    scan origin n (innerText items) = .ok (tokensFrom origin n items) := by
  have hempty : (items.flatMap Item.lines).map emptiedIfBlank ++ [[]]
      = (items.flatMap Item.lines ++ [[]]).map emptiedIfBlank := by
    rw [List.map_append]
    rfl
  rw [innerText, scan_intercalate (by simp), hempty, scanLines_emptied,
    scanLines_items hvalid hbare]
  · simp [scanLines, scanLine, allBlank, bind, Except.bind, pure, Except.pure, Functor.map,
      Except.map]
  · intro w hw
    rw [hempty] at hw
    obtain ⟨l, hl, rfl⟩ := List.mem_map.1 hw
    rcases List.mem_append.1 hl with hl | hl
    · exact (hplain l hl).of_isInfix (prefix_emptiedIfBlank l).isInfix
    · rw [List.mem_singleton.1 hl]
      exact ⟨.nil, by simp [emptiedIfBlank, allBlank]⟩

section Items

variable {text : List Char} {blanks : List (List Char)} {indent : List Char} {e : Entry}

theorem innerText_blanks_append (h : ∀ l ∈ blanks, allBlank l = true) (items : List Item) :
    innerText (blanks.map .blank ++ items)
      = List.replicate blanks.length '\n' ++ innerText items := by
  obtain ⟨l, ls, hls⟩ : ∃ l ls,
      (items.flatMap Item.lines).map emptiedIfBlank ++ [[]] = l :: ls :=
    List.exists_cons_of_ne_nil (by simp)
  rw [innerText, innerText, List.flatMap_append, flatMap_lines_blank, List.map_append,
    List.append_assoc, hls, intercalate_append_cons, flatMap_emptied h]

theorem exists_innerText_entry {c : Char} {tail : List Char} {more : List (List Char)}
    (hlines : e.lines = (c :: tail) :: more) (hblank : allBlank (c :: tail) = false)
    (rest : List Item) : ∃ after, ∀ indent,
      innerText (.entry indent e :: rest) = indent ++ c :: after := by
  refine ⟨['\n'].intercalate
    (tail :: ((more ++ rest.flatMap Item.lines).map emptiedIfBlank ++ [[]])), fun indent => ?_⟩
  have hline : emptiedIfBlank (indent ++ c :: tail) = (indent ++ [c]) ++ tail := by
    rw [emptiedIfBlank, if_neg, List.append_assoc]
    · rfl
    · simp [allBlank_append, hblank]
  rw [innerText, List.flatMap_cons, Item.lines_entry hlines, List.cons_append, List.map_cons, hline,
    List.cons_append, intercalate_append_head, List.append_assoc]
  rfl

/-- The first entry of a text does not start with a blank. -/
theorem Wrappable.isBlank_eq_false (htext : Wrappable text)
    (hblanks : ∀ l ∈ blanks, allBlank l = true) (hindent : Indent indent) {c : Char}
    (hc : c ≠ ' ' ∧ c ≠ '\t') (hbreak : ¬ IsBreak c) {tail : List Char} {more : List (List Char)}
    (hlines : (lineTexts text).map dropComment = blanks ++ (indent ++ c :: tail) :: more) :
    isBlank c = false := by
  have hfirst : ∀ x ∈ blanks.flatMap (· ++ ['\n']) ++ indent, isBlank x = true := by
    intro x hx
    rw [List.mem_append, List.mem_flatMap] at hx
    rcases hx with ⟨l, hl, hx⟩ | hx
    · rcases List.mem_append.1 hx with hx | hx
      · exact List.all_eq_true.1 (hblanks l hl) x hx
      · rw [List.mem_singleton.1 hx]
        decide
    · exact List.all_eq_true.1 hindent.allBlank x hx
  have htail : ['\n'].intercalate ((c :: tail) :: more)
      = c :: ['\n'].intercalate (tail :: more) := intercalate_append_head [c] tail more
  have hstart := htext.start
  rw [withoutComments, map_dropComment_lines, hlines, intercalate_append_cons,
    intercalate_append_head, ← List.append_assoc, htail, List.find?_append] at hstart
  rcases hfind : (blanks.flatMap (· ++ ['\n']) ++ indent).find?
      (fun c => ¬ (c = ' ' ∨ c = '\t' ∨ IsBreak c)) with _ | x
  · refine hstart c ?_
    rw [hfind, Option.none_or, List.find?_cons_of_pos]
    · rfl
    · simp [hc.1, hc.2, hbreak]
  · have hx := hfirst x (List.mem_of_find?_eq_some hfind)
    rw [hstart x (by rw [hfind]; rfl)] at hx
    cases hx

/-- An entry without its indent takes up as many lines. -/
theorem tokensFrom_outdented (indent : List Char) (e : Entry) (rest : List Item) (n : Nat) :
    List.Forall₂ (Lowered n) (tokensFrom origin n (.entry indent e :: rest))
      (tokensFrom origin (n + 1) (.entry [] e :: rest)) := by
  have hlength : (Item.entry [] e).lines.length = (Item.entry indent e).lines.length := by
    simp [Item.lines]
  rw [tokensFrom, tokensFrom, hlength, Nat.add_right_comm]
  exact .cons (e.lowered n _ _ fun hne => absurd rfl hne) (tokensFrom_lowered n rest _)

/-- What stands behind the name: blanks, and then entries that are those of the text, a line further
down. -/
theorem Wrappable.exists_inner (htext : Wrappable text) {items : List Item}
    (hvalid : ∀ i ∈ items, i.Valid) (hbare : ∀ i ∈ items, i.isBare = false)
    (hlines : items.flatMap Item.lines = (lineTexts text).map dropComment) (origin : String)
    (n : Nat) : ∃ (gap : List Char) (inner : List Item),
      '\n' :: innerText items = gap ++ innerText inner ∧ allBlank gap = true
      ∧ (∀ c ∈ (innerText inner).head?, isBlank c = false)
      ∧ scan origin (n + gap.count '\n') (innerText inner)
        = .ok (tokensFrom origin (n + gap.count '\n') inner)
      ∧ List.Forall₂ (Lowered (n + firstLine text)) (tokensFrom origin n items)
          (tokensFrom origin (n + gap.count '\n') inner) := by
  rcases blanks_or_exists_entry items with ⟨blanks, rfl⟩ | ⟨blanks, indent, e, rest, rfl⟩
  · have hblanks : ∀ l ∈ blanks, allBlank l = true := fun l hl => hvalid _ (List.mem_map_of_mem hl)
    refine ⟨'\n' :: List.replicate blanks.length '\n', [], ?_, ?_, ?_, ?_, ?_⟩
    · rw [← List.append_nil (blanks.map _), innerText_blanks_append hblanks, List.cons_append]
    · exact allBlank_replicate (blanks.length + 1)
    · simp [innerText]
    · exact scan_innerText (by simp) (by simp) (by simp)
    · rw [← List.append_nil (blanks.map _), tokensFrom_blank_append]
      exact .nil
  · have hblanks : ∀ l ∈ blanks, allBlank l = true := fun l hl => hvalid (.blank l) (by simp [hl])
    obtain ⟨hindent, he⟩ : Indent indent ∧ e.Valid := hvalid (.entry indent e) (by simp)
    obtain ⟨c, tail, more, helines, hc, hblank⟩ := Entry.exists_lines he
    obtain ⟨after, hafter⟩ := exists_innerText_entry helines hblank rest
    have hall : (lineTexts text).map dropComment
        = blanks ++ (indent ++ c :: tail) :: (more ++ rest.flatMap Item.lines) := by
      rw [← hlines, List.flatMap_append, flatMap_lines_blank, List.flatMap_cons,
        Item.lines_entry helines]
      rfl
    have hplain : ∀ l ∈ blanks ++ (indent ++ c :: tail) :: (more ++ rest.flatMap Item.lines),
        PlainLine l := fun l hl => plainLine_of_mem_dropComment (hall ▸ hl)
    have hline := hplain (indent ++ c :: tail) (by simp)
    have hfirst : firstLine text = blanks.length := by
      have hblank' : allBlank (indent ++ c :: tail) = false := by simp [allBlank_append, hblank]
      rw [firstLine, map_dropComment_lines, hall, findIdx_blanks hblank' hblanks]
    have hcount : ('\n' :: (List.replicate blanks.length '\n' ++ indent)).count '\n'
        = blanks.length + 1 := by simp [hindent.count_newline]
    refine ⟨'\n' :: (List.replicate blanks.length '\n' ++ indent), .entry [] e :: rest,
      ?_, ?_, ?_, ?_, ?_⟩
    · rw [innerText_blanks_append hblanks, hafter, hafter]
      simp
    · rw [← List.cons_append, allBlank_append, hindent.allBlank, Bool.and_true]
      exact allBlank_replicate (blanks.length + 1)
    · rw [hafter]
      rintro _ ⟨⟩
      exact htext.isBlank_eq_false hblanks hindent hc (hline.unbroken c (by simp)) hall
    · refine scan_innerText (List.forall_mem_cons.2 ⟨⟨by simp [Indent], he⟩, fun i hi => ?_⟩)
        (List.forall_mem_cons.2 ⟨hbare (.entry indent e) (by simp), fun i hi => ?_⟩) ?_
      · exact hvalid i (by simp [hi])
      · exact hbare i (by simp [hi])
      · rw [List.flatMap_cons, Item.lines_entry helines]
        have htail := hline.of_isInfix (List.suffix_append indent (c :: tail)).isInfix
        refine List.forall_mem_cons.2 ⟨htail, fun l hl => ?_⟩
        exact hplain l (List.mem_append_right _ (List.mem_cons_of_mem _ hl))
    · rw [tokensFrom_blank_append, hcount, hfirst, ← Nat.add_assoc]
      exact tokensFrom_outdented indent e rest _

end Items

/-- Lines that are wrapped in a definition become the body of its name: the same tokens, a line
further down. -/
theorem registerDefinitions_wrapped {text : List Char} {ts : List Token} {name : String}
    {r : Registry} (catalog : Catalog) (hname : Nameable name.toList) (htext : Wrappable text)
    (hscan : scan origin n text = .ok ts) (hnew : r.lookup name = none) :
    ∃ t r' body, scan origin n (wrapped name.toList text) = .ok [t] ∧ t.kind = .definition
      ∧ registerDefinitions catalog r [t] = (r', .ok [])
      ∧ (∀ other, r'.lookup other = if name = other then some body else r.lookup other)
      ∧ List.Forall₂ (Lowered (n + firstLine text)) ts body := by
  rw [scan_eq_scanLines] at hscan
  obtain ⟨items, hvalid, hbare, hlines, rfl⟩ := exists_items_of_scanLines hscan
  obtain ⟨gap, inner, hgap, hblank, hhead, hbody, hlowered⟩ :=
    htext.exists_inner hvalid hbare hlines origin n
  have hwrapped := htext.scan_wrapped hname origin n
  rw [← hlines, ← innerText, hgap] at hwrapped
  have hquote : '"' ∉ name.toList := fun hmem => hname.plain _ hmem (by simp)
  have hdefines : Defines ⟨.definition, ⟨n, 0⟩, String.ofList
      ('"' :: (name.toList ++ '"' :: (gap ++ innerText inner))), origin⟩
      ⟨name, innerText inner, gap.count '\n'⟩ name
      (tokensFrom origin (n + gap.count '\n') inner) := by
    refine ⟨rfl, ?_, rfl, hbody⟩
    rw [String.toList_ofList, Definition.ofContent_quoted hquote hblank hhead, String.ofList_toList]
  obtain ⟨r', hregister, hlookup⟩ := registerDefinitions_of_defines catalog hdefines hnew
  exact ⟨_, r', _, hwrapped, rfl, hregister, hlookup, hlowered⟩

/-- A comment, a blank line, all three line ends and a definition inside. -/
theorem registerDefinitions_wrapped_nested :
    let text := " // c\r\n\t!ff//x\r<\"in\"\n\n  #a\n> b\n m"
    let inner : Token := ⟨.definition, ⟨2, 0⟩, "\"in\"\n\n  #a\n", ""⟩
    let ts : List Token := [⟨.literal, ⟨1, 1⟩, "ff", ""⟩, inner, ⟨.call, ⟨6, 1⟩, "m", ""⟩]
    Nameable "out".toList ∧ Wrappable text.toList ∧ scan "" 0 text.toList = .ok ts
      ∧ Registry.empty.lookup "out" = none
      ∧ ∃ t r' body, scan "" 0 (wrapped "out".toList text.toList) = .ok [t] ∧ t.kind = .definition
        ∧ registerDefinitions .empty .empty [t] = (r', .ok [])
        ∧ (∀ other, r'.lookup other = if "out" = other then some body
            else Registry.empty.lookup other)
        ∧ List.Forall₂ (Lowered 1) ts body := by
  intro text inner ts
  have hname : Nameable "out".toList := by
    have hchars : "out".toList = ['o', 'u', 't'] := rfl
    rw [hchars]
    exact ⟨by simp, by decide⟩
  have htext : Wrappable text.toList := by
    have hstripped : withoutComments text.toList
        = [' ', '\n', '\t', '!', 'f', 'f', '\n', '<', '"', 'i', 'n', '"', '\n', '\n', ' ', ' ', '#',
          'a', '\n', '>', ' ', 'b', '\n', ' ', 'm'] := by cbv
    have hlast : text.toList.getLast? = some 'm' := by cbv
    constructor
    · rw [hstripped]
      decide +kernel
    · simp [hlast]
    · intro c hc
      have hstart : c = '!' := by simpa [hstripped, IsBreak] using hc.symm
      subst hstart
      decide
  have hscan : scan "" 0 text.toList = .ok ts := by cbv
  have hnew := Registry.lookup_empty "out"
  have hfirst : 0 + firstLine text.toList = 1 := by cbv
  exact ⟨hname, htext, hscan, hnew,
    hfirst ▸ registerDefinitions_wrapped .empty hname htext hscan hnew⟩

end Token

end HexPatterns
