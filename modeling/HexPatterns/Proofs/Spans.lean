import Mathlib
import HexPatterns.Proofs.Grammar

/-!
# The span of a token

The reader counts characters, on lines that it has freed of their comments. A span counts bytes, on
the lines as they are. What is left of a line without its comment is the front of it, so a column
means the same place in both (`SourceText.exists_spanAt?`). A token stands at its column with all of
its text, a definition with its `<`, and an error is laid to the marker or the `<` that is to blame
(`exists_lead_of_scanLines`, `exists_sign_of_scanLines`). So this is where the spans start.
-/

namespace HexPatterns

open Text

theorem Text.exists_comment (l : List Char) :
    ∃ comment, l = dropComment l ++ comment ∧ (comment = [] ∨ ['/', '/'] <+: comment) := by
  fun_induction dropComment l with
  | case1 => exact ⟨[], rfl, .inl rfl⟩
  | case2 rest => exact ⟨_, rfl, .inr ⟨rest, rfl⟩⟩
  | case3 c l _ ih =>
    obtain ⟨comment, hl, hcomment⟩ := ih
    exact ⟨comment, by rw [List.cons_append, ← hl], hcomment⟩

/-- A line freed of its comment is the front of a line of the text. -/
theorem Text.exists_line_of_dropComment {text l : List Char} {i : Nat}
    (h : ((lineTexts text).map dropComment)[i]? = some l) :
    ∃ whole comment, (lines text)[i]? = some whole ∧ whole.chars = l ++ comment
      ∧ (comment = [] ∨ ['/', '/'] <+: comment) := by
  rw [← map_chars_lines, List.map_map, List.getElem?_map, Option.map_eq_some_iff] at h
  obtain ⟨whole, hwhole, rfl⟩ := h
  obtain ⟨comment, hchars, hcomment⟩ := exists_comment whole.chars
  exact ⟨whole, comment, hwhole, hchars, hcomment⟩

namespace Token

/-- How a token starts on its line: with all of its text, if it is no definition. -/
def lead (t : Token) : List Char :=
  match t.kind with
  | .directive => '#' :: t.content.toList
  | .literal => '!' :: t.content.toList
  | .definition => ['<']
  | .call => t.content.toList

/-- The character that an error is about. -/
def LexError.sign : LexError → Char
  | emptyDirective marker _ => marker
  | unclosedMacro _ => '<'

section Lead

variable {origin : String} {n : Nat} {ls : List (List Char)}

theorem Entry.exists_lead (origin : String) (p : Position) (e : Entry) :
    ∃ rest more, e.lines = rest :: more ∧ (e.token origin p).lead <+: rest
      ∧ ((e.token origin p).kind ≠ .definition → rest = (e.token origin p).lead) := by
  rcases e with ⟨m, rest⟩ | text | ⟨before, last, dropped⟩
  · refine ⟨m.char :: rest, [], rfl, ?_⟩
    cases m <;> simp [lead, token, Marker.kind, Marker.char]
  · exact ⟨text, [], rfl, by simp [lead, token], fun _ => by simp [lead, token]⟩
  · have hlead : ∀ l : List Char, ['<'] <+: '<' :: l := fun l => ⟨l, rfl⟩
    cases before with
    | nil => exact ⟨_, [], rfl, hlead _, fun h => absurd rfl h⟩
    | cons first before => exact ⟨_, _, rfl, hlead _, fun h => absurd rfl h⟩

theorem exists_lead_of_scanLines {ts : List Token} (h : scanLines origin n none ls = .ok ts)
    {t : Token} (ht : t ∈ ts) : ∃ front indent rest back,
      ls = front ++ (indent ++ rest) :: back ∧ t.position = ⟨n + front.length, indent.length⟩
        ∧ t.lead <+: rest ∧ (t.kind ≠ .definition → rest = t.lead) := by
  obtain ⟨front, indent, e, back, rfl, -, rfl⟩ := exists_entry_of_scanLines h ht
  obtain ⟨rest, more, hlines, hlead⟩ :=
    e.exists_lead origin ⟨n + front.length, indent.length⟩
  refine ⟨front, indent, rest, more ++ back, ?_, ?_, hlead⟩
  · rw [Item.lines_entry hlines, List.cons_append]
  · cases e <;> rfl

theorem exists_sign_of_scanLines {e : LexError} (h : scanLines origin n none ls = .error e) :
    ∃ front indent rest back, ls = front ++ (indent ++ e.sign :: rest) :: back
      ∧ e.position = ⟨n + front.length, indent.length⟩ := by
  rcases exists_of_scanLines_eq_error h with
    ⟨front, indent, back, m, rfl, rfl⟩ | ⟨front, u, rfl, rfl⟩
  · exact ⟨front, indent, [], back, rfl, rfl⟩
  · obtain ⟨first, more, -, hlines⟩ := u.exists_lines
    exact ⟨front, u.indent, first, more, by rw [hlines]; rfl, rfl⟩

end Lead

end Token

namespace SourceText

/-- A place on a line freed of its comment has a span, and behind the rest of that line the span
shows nothing but the comment. -/
theorem exists_spanAt? (name : String) {text : String} {front back : List (List Char)}
    {indent rest : List Char}
    (h : (lineTexts text.toList).map dropComment = front ++ (indent ++ rest) :: back) :
    ∃ span comment, (ofText name text).spanAt? ⟨front.length, indent.length⟩ = some span
      ∧ span.Shows text.toList front.length (rest ++ comment)
      ∧ (comment = [] ∨ ['/', '/'] <+: comment) := by
  obtain ⟨whole, comment, hwhole, hchars, hcomment⟩ :=
    exists_line_of_dropComment (by rw [h, List.getElem?_append_right le_rfl, Nat.sub_self]; rfl)
  have hshows := Line.spanFrom_shows hwhole indent.length
  rw [hchars, List.append_assoc, List.drop_left] at hshows
  refine ⟨whole.spanFrom indent.length, comment, ?_, hshows, hcomment⟩
  simp [spanAt?, ofText, hwhole]

/-- A token of a source is found again by the span at its position. Up to the end of the line the
span shows the token, or the `<` of a definition, and then at most a comment. The span at the
position of an error starts with the character that the error is about. -/
theorem spanAt?_of_scan (name origin text : String) :
    (∀ ts, Token.scan origin 0 text.toList = .ok ts → ∀ t ∈ ts, ∃ span shown,
      (ofText name text).spanAt? t.position = some span
        ∧ span.Shows text.toList t.position.line shown ∧ t.lead <+: shown
        ∧ (t.kind ≠ .definition → ∃ comment, shown = t.lead ++ comment
          ∧ (comment = [] ∨ ['/', '/'] <+: comment)))
    ∧ ∀ e, Token.scan origin 0 text.toList = .error e → ∃ span shown,
      (ofText name text).spanAt? e.position = some span
        ∧ span.Shows text.toList e.position.line shown ∧ shown.head? = some e.sign := by
  rw [Token.scan_eq_scanLines]
  constructor
  · intro ts hts t ht
    obtain ⟨front, indent, rest, back, hlines, hposition, hlead, hall⟩ :=
      Token.exists_lead_of_scanLines hts ht
    rw [Nat.zero_add] at hposition
    obtain ⟨span, comment, hspan, hshows, hcomment⟩ := exists_spanAt? name hlines
    refine ⟨span, rest ++ comment, by rw [hposition, hspan], by rwa [hposition],
      hlead.trans (List.prefix_append _ _), fun hkind => ⟨comment, ?_, hcomment⟩⟩
    rw [hall hkind]
  · intro e he
    obtain ⟨front, indent, rest, back, hlines, hposition⟩ := Token.exists_sign_of_scanLines he
    rw [Nat.zero_add] at hposition
    obtain ⟨span, comment, hspan, hshows, -⟩ := exists_spanAt? name hlines
    exact ⟨span, _, by rw [hposition, hspan], by rwa [hposition], rfl⟩

/-- Characters of two bytes in front of the columns and behind them, a comment, and line ends of
each sort. -/
theorem spanAt?_of_scan_twoBytes :
    let text := "\t#gé // ü\r<\"n\"\n!a>\r\né"
    let directive : Token := ⟨.directive, ⟨0, 1⟩, "gé ", "main"⟩
    let call : Token := ⟨.call, ⟨3, 0⟩, "é", "main"⟩
    (∃ shown, (ofText "m" text).spanAt? directive.position = some ⟨1, 10⟩
        ∧ (Span.mk 1 10).Shows text.toList 0 shown ∧ directive.lead <+: shown)
      ∧ (∃ shown, (ofText "m" text).spanAt? call.position = some ⟨22, 2⟩
        ∧ (Span.mk 22 2).Shows text.toList 3 shown ∧ call.lead <+: shown)
      ∧ ∃ shown, (ofText "m" "é\n  #//é").spanAt? ⟨1, 2⟩ = some ⟨5, 5⟩
        ∧ (Span.mk 5 5).Shows "é\n  #//é".toList 1 shown ∧ shown.head? = some '#' := by
  intro text directive call
  have hscan : Token.scan "main" 0 text.toList
      = .ok [directive, ⟨.definition, ⟨1, 0⟩, "\"n\"\n!a", "main"⟩, call] := by cbv
  have hdirective : (ofText "m" text).spanAt? directive.position = some ⟨1, 10⟩ := by cbv
  have hcall : (ofText "m" text).spanAt? call.position = some ⟨22, 2⟩ := by cbv
  have hfails : Token.scan "main" 0 "é\n  #//é".toList
      = .error (.emptyDirective '#' ⟨1, 2⟩) := by cbv
  have hmarker : (ofText "m" "é\n  #//é").spanAt? ⟨1, 2⟩ = some ⟨5, 5⟩ := by cbv
  refine ⟨?_, ?_, ?_⟩
  · obtain ⟨_, shown, hspan, hshows, hlead, -⟩ :=
      (spanAt?_of_scan "m" "main" text).1 _ hscan directive (by simp)
    cases hdirective.symm.trans hspan
    exact ⟨shown, hdirective, hshows, hlead⟩
  · obtain ⟨_, shown, hspan, hshows, hlead, -⟩ :=
      (spanAt?_of_scan "m" "main" text).1 _ hscan call (by simp)
    cases hcall.symm.trans hspan
    exact ⟨shown, hcall, hshows, hlead⟩
  · obtain ⟨_, shown, hspan, hshows, hhead⟩ :=
      (spanAt?_of_scan "m" "main" "é\n  #//é").2 _ hfails
    cases hmarker.symm.trans hspan
    exact ⟨shown, hmarker, hshows, hhead⟩

end SourceText

end HexPatterns
