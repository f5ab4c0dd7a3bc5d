import Mathlib
import HexPatterns.Proofs.Outline

/-!
# The reader follows the grammar

Inside a definition the reader keeps the number of open brackets of the text behind the `<`
(`Opening.After`), so it stops at the `>` that closes the definition and at no other. A source is
read item by item (`scanLines_item`). So it gives the tokens of the items of its outline, unless one
of them is a marker with nothing behind it or a definition stays open, and the first of these is
what is reported (`scan_outline`).
-/

namespace HexPatterns.Token

open Text

/-! ## The reader inside a definition -/

/-- The definition has as many brackets open inside as the text behind its `<` leaves open. -/
def Opening.After (o : Opening) (cs : List Char) : Prop :=
  cs.count '<' = cs.count '>' + o.inner

/-- One character on, unless it is the `>` that settles the brackets. -/
theorem Opening.After.cons {o : Opening} {cs : List Char} {c : Char} (h : o.After cs)
    (hc : c = '>' → ¬ Settled (cs ++ [c])) : ∃ m,
      (∀ ds, o.readLine (c :: ds) = ({ o.push c with inner := m } : Opening).readLine ds)
        ∧ ({ o.push c with inner := m } : Opening).After (cs ++ [c]) := by
  unfold After at h ⊢
  by_cases hopen : c = '<'
  · subst hopen
    refine ⟨o.inner + 1, fun ds => by rw [readLine], ?_⟩
    have hcount : (cs ++ ['<']).count '<' = cs.count '<' + 1
        ∧ (cs ++ ['<']).count '>' = cs.count '>' := by simp
    dsimp only
    omega
  by_cases hclose : c = '>'
  · subst hclose
    have hunsettled : o.inner ≠ 0 := fun hzero => hc rfl (settled_concat.2 (by omega))
    obtain ⟨m, hm⟩ := Nat.exists_eq_succ_of_ne_zero hunsettled
    refine ⟨m, fun ds => ?_, ?_⟩
    · rw [readLine, hm]
    · have hcount : (cs ++ ['>']).count '<' = cs.count '<'
          ∧ (cs ++ ['>']).count '>' = cs.count '>' + 1 := by simp
      dsimp only
      omega
  · refine ⟨o.inner, fun ds => ?_, ?_⟩
    · rw [readLine]
      · rfl
      · exact hopen
      · exact hclose
    · simpa [hopen, hclose] using h

theorem Opening.readLine_of_closes {dropped : List Char} : ∀ {last cs : List Char} {o : Opening},
    o.After cs → Closes (cs ++ last) →
      o.readLine (last ++ '>' :: dropped) = .inr (o.read.reverse ++ last)
  | [], cs, o, h, hcloses => by
    rw [List.append_nil] at hcloses
    have hsettled := settled_concat.1 hcloses.1
    have hinner : o.inner = 0 := by
      unfold After at h
      omega
    simp [readLine, hinner]
  | c :: last, cs, o, h, hcloses => by
    have hpre : cs ++ [c] <+: cs ++ c :: last := ⟨last, by simp⟩
    obtain ⟨m, hread, h⟩ := h.cons (c := c) fun hc => hc ▸ hcloses.2 cs (hc ▸ hpre)
    rw [List.cons_append, hread, readLine_of_closes h (by simpa using hcloses)]
    simp [push]

theorem Opening.readLine_of_neverCloses : ∀ {l cs : List Char} {o : Opening},
    o.After cs → NeverCloses (cs ++ l) → ∃ m,
      o.readLine l = .inl { o with inner := m, read := l.reverse ++ o.read }
        ∧ (cs ++ l).count '<' = (cs ++ l).count '>' + m
  | [], cs, o, h, _ => ⟨o.inner, by simp [readLine], by simpa [After] using h⟩
  | c :: l, cs, o, h, hnever => by
    have hpre : cs ++ [c] <+: cs ++ c :: l := ⟨l, by simp⟩
    obtain ⟨m, hread, h⟩ := h.cons (c := c) fun hc => hc ▸ hnever cs (hc ▸ hpre)
    obtain ⟨k, hl, hk⟩ := readLine_of_neverCloses (l := l) h (by simpa using hnever)
    refine ⟨k, ?_, by simpa using hk⟩
    rw [hread, hl]
    simp [push]

section Inside

variable {origin : String} {n : Nat} {o : Opening} {cs l last dropped : List Char}

theorem scanInside_of_closes (h : o.After cs) (hcloses : Closes (cs ++ last)) :
    scanInside origin o (last ++ '>' :: dropped)
      = (some ⟨.definition, o.position, String.ofList (o.read.reverse ++ last), origin⟩, none) := by
  rw [scanInside, Opening.readLine_of_closes h hcloses]

theorem scanInside_of_neverCloses (origin : String) (h : o.After cs)
    (hnever : NeverCloses (cs ++ l)) :
    ∃ p : Opening, scanInside origin o l = (none, some p) ∧ p.After (cs ++ l)
      ∧ p.position = o.position ∧ p.read = '\n' :: (l.reverse ++ o.read) := by
  obtain ⟨m, hread, hm⟩ := Opening.readLine_of_neverCloses h hnever
  rw [scanInside, hread]
  exact ⟨_, rfl, hm, rfl, rfl⟩

theorem count_eq_zero_of_allBlank {c : Char} (hc : isBlank c = false) (hl : allBlank l = true) :
    l.count c = 0 := by
  refine List.count_eq_zero.2 fun hmem => ?_
  rw [List.all_eq_true.1 hl c hmem] at hc
  cases hc

/-- A line that does not end the definition adds itself to the content, emptied if it is blank. -/
theorem scanLine_of_neverCloses (origin : String) (n : Nat) (h : o.After cs)
    (hnever : NeverCloses (cs ++ l)) :
    ∃ p : Opening, scanLine origin n (some o) l = .ok (none, some p) ∧ p.After (cs ++ l)
      ∧ p.position = o.position
      ∧ p.read = '\n' :: ((emptiedIfBlank l).reverse ++ o.read) := by
  unfold emptiedIfBlank
  by_cases hblank : allBlank l = true
  · refine ⟨o.push '\n', by simp [scanLine, hblank], ?_, rfl, by simp [hblank, Opening.push]⟩
    have hopen := count_eq_zero_of_allBlank (c := '<') (by decide) hblank
    have hclose := count_eq_zero_of_allBlank (c := '>') (by decide) hblank
    simpa [Opening.After, Opening.push, hopen, hclose] using h
  · obtain ⟨p, hp, hrest⟩ := scanInside_of_neverCloses origin h hnever
    exact ⟨p, by simp [scanLine, hblank, hp], by simpa [hblank] using hrest⟩

theorem scanLine_of_closes (n : Nat) (h : o.After cs) (hcloses : Closes (cs ++ last)) :
    scanLine origin n (some o) (last ++ '>' :: dropped)
      = .ok (some ⟨.definition, o.position, String.ofList (o.read.reverse ++ last), origin⟩,
          none) := by
  have hblank : allBlank (last ++ '>' :: dropped) = false := by
    rw [allBlank_append, show allBlank ('>' :: dropped) = false from rfl, Bool.and_false]
  simp [scanLine, hblank, scanInside_of_closes h hcloses]

end Inside

section Lines

variable {origin : String} {rest : List (List Char)}

theorem scanLines_cons_of_ok {n : Nat} {o? o : Option Opening} {l : List Char} {t? : Option Token}
    (h : scanLine origin n o? l = .ok (t?, o)) :
    scanLines origin n o? (l :: rest) = (t?.toList ++ ·) <$> scanLines origin (n + 1) o rest := by
  rw [scanLines, h, map_eq_pure_bind]
  rfl

theorem scanLines_cons_of_error {n : Nat} {o? : Option Opening} {l : List Char} {e : LexError}
    (h : scanLine origin n o? l = .error e) : scanLines origin n o? (l :: rest) = .error e := by
  rw [scanLines, h]
  rfl

theorem intercalate_cons_concat (l last : List Char) (ls : List (List Char)) :
    ['\n'].intercalate (l :: (ls ++ [last])) = l ++ '\n' :: ['\n'].intercalate (ls ++ [last]) := by
  cases ls <;> simp [List.intercalate_cons_cons]

/-- The whole lines of a definition, and then the one that closes it. -/
theorem scanLines_of_closes {last dropped : List Char} : ∀ {before : List (List Char)} {n : Nat}
    {o : Opening} {cs : List Char}, o.After cs → Closes (cs ++ (before.flatten ++ last)) →
      scanLines origin n (some o) (before ++ (last ++ '>' :: dropped) :: rest)
        = ([⟨.definition, o.position, String.ofList (o.read.reverse ++ ['\n'].intercalate
            (before.map emptiedIfBlank ++ [last])), origin⟩] ++ ·)
          <$> scanLines origin (n + (before.length + 1)) none rest
  | [], n, o, cs, h, hcloses => by
    rw [List.nil_append, scanLines_cons_of_ok (scanLine_of_closes n h (by simpa using hcloses))]
    simp
  | l :: before, n, o, cs, h, hcloses => by
    have hnever : NeverCloses (cs ++ l) :=
      hcloses.2.mono ⟨before.flatten ++ last, by simp⟩
    obtain ⟨p, hp, hafter, hposition, hread⟩ := scanLine_of_neverCloses origin n h hnever
    rw [List.cons_append, scanLines_cons_of_ok hp,
      scanLines_of_closes hafter (by simpa using hcloses), hposition, hread, Functor.map_map]
    have hnext : n + 1 + (before.length + 1) = n + ((l :: before).length + 1) := by
      rw [List.length_cons]
      omega
    rw [hnext, List.map_cons, List.cons_append, intercalate_cons_concat]
    simp

theorem scanLines_of_neverCloses : ∀ {ls : List (List Char)} {n : Nat} {o : Opening}
    {cs : List Char}, o.After cs → NeverCloses (cs ++ ls.flatten) →
      scanLines origin n (some o) ls = .error (.unclosedMacro o.position)
  | [], n, o, cs, _, _ => rfl
  | l :: ls, n, o, cs, h, hnever => by
    have hl : NeverCloses (cs ++ l) := hnever.mono ⟨ls.flatten, by simp⟩
    obtain ⟨p, hp, hafter, hposition, -⟩ := scanLine_of_neverCloses origin n h hl
    rw [scanLines_cons_of_ok hp, scanLines_of_neverCloses hafter (by simpa using hnever), hposition]
    rfl

end Lines

/-! ## The reader outside definitions -/

section Items

variable {origin : String} {n : Nat} {rest : List (List Char)}

theorem scanOutside_append {indent : List Char} (h : Indent indent) (column : Nat)
    (cs : List Char) :
    scanOutside origin n column (indent ++ cs)
      = scanOutside origin n (column + indent.length) cs := by
  induction indent generalizing column with
  | nil => rfl
  | cons c indent ih =>
    obtain ⟨hc, hindent⟩ := List.forall_mem_cons.1 h
    have hlength : column + (c :: indent).length = column + 1 + indent.length := by
      rw [List.length_cons]
      omega
    rw [hlength, ← ih hindent]
    rcases hc with rfl | rfl <;> rfl

theorem scanOutside_call {c : Char} {text : List Char} {column : Nat}
    (hc : c ∉ [' ', '\t', '#', '!', '<']) :
    scanOutside origin n column (c :: text)
      = .ok (some ⟨.call, ⟨n, column⟩, String.ofList (c :: text), origin⟩, none) := by
  simp only [List.mem_cons, not_or] at hc
  rw [scanOutside] <;> simp [hc]

/-- The lines of an entry are read from behind its indent. -/
theorem scanLine_entry {indent l : List Char} {c : Char} (hindent : Indent indent)
    (hblank : allBlank (c :: l) = false) :
    scanLine origin n none (indent ++ c :: l) = scanOutside origin n indent.length (c :: l) := by
  have hline : allBlank (indent ++ c :: l) = false := by
    rw [allBlank_append, hblank, Bool.and_false]
  simp [scanLine, hline, scanOutside_append hindent]

theorem scanOutside_marker (m : Marker) (column : Nat) (tail : List Char) :
    scanOutside origin n column (m.char :: tail)
      = scanMarked origin m.kind m.char ⟨n, column⟩ tail := by
  cases m <;> rfl

theorem scanLines_definition {indent last dropped : List Char} {before : List (List Char)}
    (hindent : Indent indent) (h : (Entry.definition before last dropped).Valid) :
    scanLines origin n none
        ((Item.entry indent (.definition before last dropped)).lines ++ rest)
      = ([(Entry.definition before last dropped).token origin ⟨n, indent.length⟩] ++ ·)
        <$> scanLines origin (n + (before.length + 1)) none rest := by
  have hstart : Opening.After ⟨⟨n, indent.length⟩, 0, []⟩ [] := rfl
  rcases before with _ | ⟨first, before⟩
  · have hline : scanLine origin n none (indent ++ '<' :: (last ++ '>' :: dropped))
        = .ok (some ⟨.definition, ⟨n, indent.length⟩, String.ofList last, origin⟩, none) := by
      rw [scanLine_entry hindent rfl, scanOutside, scanInside_of_closes hstart h]
      rfl
    refine (scanLines_cons_of_ok hline).trans ?_
    simp [Entry.token, Entry.emptied]
  · have hnever : NeverCloses first := h.2.mono ⟨before.flatten ++ last, by simp⟩
    obtain ⟨p, hp, hafter, hposition, hread⟩ := scanInside_of_neverCloses origin hstart hnever
    have hline : scanLine origin n none (indent ++ '<' :: first) = .ok (none, some p) := by
      rw [scanLine_entry hindent rfl, scanOutside, hp]
    have hlines : (Item.entry indent (.definition (first :: before) last dropped)).lines ++ rest
        = (indent ++ '<' :: first) :: (before ++ (last ++ '>' :: dropped) :: rest) := by
      simp [Item.lines, Entry.lines]
    have hclosed : Closes ([] ++ first ++ (before.flatten ++ last)) := by
      simpa [Entry.Valid] using h
    have hnext : n + 1 + (before.length + 1) = n + ((first :: before).length + 1) := by
      rw [List.length_cons]
      omega
    rw [hlines, scanLines_cons_of_ok hline, scanLines_of_closes hafter hclosed, Functor.map_map,
      hposition, hread, hnext, Entry.token, Entry.emptied, List.cons_append,
      intercalate_cons_concat]
    simp

theorem scanLines_item {i : Item} (hi : i.Valid) (hbare : i.isBare = false) :
    scanLines origin n none (i.lines ++ rest)
      = (i.tokens origin n ++ ·) <$> scanLines origin (n + i.lines.length) none rest := by
  rcases i with l | ⟨indent, ⟨m, tail⟩ | text | ⟨before, last, dropped⟩⟩
  · have hl : allBlank l = true := hi
    have hline : scanLine origin n none l = .ok (none, none) := by simp [scanLine, hl]
    exact scanLines_cons_of_ok hline
  · have htail : tail.isEmpty = false := hbare
    have hblank : allBlank (m.char :: tail) = false := by cases m <;> rfl
    have hline : scanLine origin n none (indent ++ m.char :: tail)
        = .ok (some ⟨m.kind, ⟨n, indent.length⟩, String.ofList tail, origin⟩, none) := by
      rw [scanLine_entry hi.1 hblank, scanOutside_marker, scanMarked, htail]
      rfl
    exact scanLines_cons_of_ok hline
  · obtain ⟨hindent, hblank, hhead⟩ := hi
    rcases text with _ | ⟨c, text⟩
    · cases hblank
    · exact scanLines_cons_of_ok
        ((scanLine_entry hindent hblank).trans (scanOutside_call (hhead c rfl)))
  · rw [scanLines_definition hi.1 hi.2]
    simp [Item.lines, Entry.lines, Item.tokens]

theorem scanLines_bare {indent : List Char} {m : Marker} (hindent : Indent indent) :
    scanLines origin n none ((Item.entry indent (.marked m [])).lines ++ rest)
      = .error (.emptyDirective m.char ⟨n, indent.length⟩) := by
  have hblank : allBlank [m.char] = false := by cases m <;> rfl
  have hline : scanLine origin n none (indent ++ [m.char])
      = .error (.emptyDirective m.char ⟨n, indent.length⟩) := by
    rw [scanLine_entry hindent hblank, scanOutside_marker]
    rfl
  exact scanLines_cons_of_error hline

theorem scanLines_unclosed (u : Unclosed) :
    scanLines origin n none u.lines = .error (.unclosedMacro ⟨n, u.indent.length⟩) := by
  obtain ⟨first, more, hinside, hlines⟩ := u.exists_lines
  have hnever : NeverCloses (first ++ more.flatten) := by
    simpa [hinside] using u.neverCloses
  have hstart : Opening.After ⟨⟨n, u.indent.length⟩, 0, []⟩ [] := rfl
  obtain ⟨p, hp, hafter, hposition, -⟩ := scanInside_of_neverCloses (l := first) origin hstart
    (hnever.mono (List.prefix_append _ _))
  have hline : scanLine origin n none (u.indent ++ '<' :: first) = .ok (none, some p) := by
    rw [scanLine_entry u.isIndent rfl, scanOutside, hp]
  rw [hlines, scanLines_cons_of_ok hline, scanLines_of_neverCloses hafter hnever, hposition]
  rfl

theorem scanLines_items : ∀ {items : List Item} {n : Nat}, (∀ i ∈ items, i.Valid) →
    (∀ i ∈ items, i.isBare = false) →
      scanLines origin n none (items.flatMap Item.lines ++ rest) = (tokensFrom origin n items ++ ·)
        <$> scanLines origin (n + (items.flatMap Item.lines).length) none rest
  | [], n, _, _ => by simp [tokensFrom]
  | i :: items, n, hvalid, hbare => by
    obtain ⟨hi, hvalid⟩ := List.forall_mem_cons.1 hvalid
    obtain ⟨hibare, hbare⟩ := List.forall_mem_cons.1 hbare
    rw [List.flatMap_cons, List.append_assoc, scanLines_item hi hibare,
      scanLines_items hvalid hbare, Functor.map_map]
    simp [tokensFrom, Nat.add_assoc]

end Items

/-- What is wrong with a source whose first line has number `n`: the first marker with nothing
behind it, or else the definition that is never closed. -/
inductive Outline.Rejected (o : Outline) (n : Nat) : LexError → Prop
  | bare {before after : List Item} {indent : List Char} {m : Marker} :
      o.items = before ++ .entry indent (.marked m []) :: after → (∀ i ∈ before, i.isBare = false) →
      o.Rejected n
        (.emptyDirective m.char ⟨n + (before.flatMap Item.lines).length, indent.length⟩)
  | unclosed {u : Unclosed} : (∀ i ∈ o.items, i.isBare = false) → o.unclosed = some u →
      o.Rejected n (.unclosedMacro ⟨n + (o.items.flatMap Item.lines).length, u.indent.length⟩)

namespace Outline

variable {n : Nat} {o : Outline}

theorem scanLines_eq_ok (hbare : ∀ i ∈ o.items, i.isBare = false) (hclosed : o.unclosed = none)
    (origin : String) :
    scanLines origin n none o.lines = .ok (tokensFrom origin n o.items) := by
  rw [lines, hclosed, scanLines_items o.valid hbare]
  simp [scanLines, Functor.map, Except.map]

theorem Rejected.scanLines_eq_error {e : LexError} (h : o.Rejected n e) (origin : String) :
    scanLines origin n none o.lines = .error e := by
  rw [lines]
  cases h with
  | @bare before after indent m hitems hbare =>
    have hvalid := o.valid
    rw [hitems, List.forall_mem_append, List.forall_mem_cons] at hvalid
    obtain ⟨hbefore, ⟨hindent, -⟩, -⟩ := hvalid
    rw [hitems, List.flatMap_append, List.flatMap_cons, List.append_assoc, List.append_assoc,
      scanLines_items hbefore hbare, scanLines_bare hindent]
    rfl
  | unclosed hbare hopen =>
    rw [hopen, scanLines_items o.valid hbare, Option.elim_some, scanLines_unclosed]
    rfl

theorem accepted_or_rejected (o : Outline) (n : Nat) :
    ((∀ i ∈ o.items, i.isBare = false) ∧ o.unclosed = none) ∨ ∃ e, o.Rejected n e := by
  rcases hfirst : o.items.find? Item.isBare with _ | i
  · have hbare : ∀ i ∈ o.items, i.isBare = false := by simpa using hfirst
    rcases hopen : o.unclosed with _ | u
    · exact .inl ⟨hbare, rfl⟩
    · exact .inr ⟨_, .unclosed hbare hopen⟩
  · obtain ⟨hi, before, after, hitems, hbare⟩ := List.find?_eq_some_iff_append.1 hfirst
    rcases i with l | ⟨indent, ⟨m, tail⟩ | text | ⟨b, l, d⟩⟩
    · cases hi
    · obtain rfl := List.isEmpty_iff.1 hi
      exact .inr ⟨_, .bare hitems (by simpa using hbare)⟩
    · cases hi
    · cases hi

end Outline

theorem exists_entry_of_mem_tokensFrom {origin : String} {t : Token} :
    ∀ {items : List Item} {n : Nat}, t ∈ tokensFrom origin n items → ∃ front indent e back,
      items = front ++ .entry indent e :: back
        ∧ t = e.token origin ⟨n + (front.flatMap Item.lines).length, indent.length⟩
  | [], n, h => by simp [tokensFrom] at h
  | i :: items, n, h => by
    rw [tokensFrom, List.mem_append] at h
    rcases h with h | h
    · rcases i with l | ⟨indent, e⟩
      · simp [Item.tokens] at h
      · exact ⟨[], indent, e, items, rfl, by simpa [Item.tokens] using h⟩
    · obtain ⟨front, indent, e, back, rfl, rfl⟩ := exists_entry_of_mem_tokensFrom h
      exact ⟨i :: front, indent, e, back, rfl, by simp [Nat.add_assoc]⟩

section Inversion

variable {origin : String} {n : Nat} {ls : List (List Char)}

/-- Lines that give tokens are those of items, and the tokens are theirs. -/
theorem exists_items_of_scanLines {ts : List Token} (h : scanLines origin n none ls = .ok ts) :
    ∃ items : List Item, (∀ i ∈ items, i.Valid) ∧ (∀ i ∈ items, i.isBare = false)
      ∧ items.flatMap Item.lines = ls ∧ ts = tokensFrom origin n items := by
  obtain ⟨o, rfl⟩ := exists_outline ls
  rcases o.accepted_or_rejected n with ⟨hbare, hclosed⟩ | ⟨e, he⟩
  · rw [Outline.scanLines_eq_ok hbare hclosed] at h
    cases h
    exact ⟨o.items, o.valid, hbare, by simp [Outline.lines, hclosed], rfl⟩
  · cases (he.scanLines_eq_error origin).symm.trans h

theorem exists_entry_of_scanLines {ts : List Token} (h : scanLines origin n none ls = .ok ts)
    {t : Token} (ht : t ∈ ts) : ∃ front indent e back,
      ls = front ++ ((Item.entry indent e).lines ++ back) ∧ (Item.entry indent e).Valid
        ∧ t = e.token origin ⟨n + front.length, indent.length⟩ := by
  obtain ⟨items, hvalid, -, rfl, rfl⟩ := exists_items_of_scanLines h
  obtain ⟨front, indent, e, back, rfl, rfl⟩ := exists_entry_of_mem_tokensFrom ht
  exact ⟨front.flatMap Item.lines, indent, e, back.flatMap Item.lines, by simp,
    hvalid _ (by simp), rfl⟩

theorem exists_definition_of_scanLines {ts : List Token} (h : scanLines origin n none ls = .ok ts)
    {t : Token} (ht : t ∈ ts) (hkind : t.kind = .definition) :
    ∃ front indent before last dropped back,
      ls = front ++ ((Item.entry indent (.definition before last dropped)).lines ++ back)
        ∧ Closes (before.flatten ++ last)
        ∧ t = (Entry.definition before last dropped).token origin
            ⟨n + front.length, indent.length⟩ := by
  obtain ⟨front, indent, e, back, hlines, hvalid, rfl⟩ := exists_entry_of_scanLines h ht
  rcases e with ⟨m, rest⟩ | call | ⟨before, last, dropped⟩
  · cases m <;> cases hkind
  · cases hkind
  · exact ⟨front, indent, before, last, dropped, back, hlines, hvalid.2, rfl⟩

/-- Lines without tokens have a line that is a marker only, or from one line on they are a
definition that is never closed. -/
theorem exists_of_scanLines_eq_error {e : LexError} (h : scanLines origin n none ls = .error e) :
    (∃ front indent back, ∃ m : Marker, ls = front ++ (indent ++ [m.char]) :: back
        ∧ e = .emptyDirective m.char ⟨n + front.length, indent.length⟩)
      ∨ ∃ front, ∃ u : Unclosed, ls = front ++ u.lines
        ∧ e = .unclosedMacro ⟨n + front.length, u.indent.length⟩ := by
  obtain ⟨o, rfl⟩ := exists_outline ls
  rcases o.accepted_or_rejected n with ⟨hbare, hclosed⟩ | ⟨e', he⟩
  · cases (Outline.scanLines_eq_ok hbare hclosed origin).symm.trans h
  · cases (he.scanLines_eq_error origin).symm.trans h
    cases he with
    | @bare before after indent m hitems _ =>
      refine .inl ⟨_, indent, after.flatMap Item.lines ++ o.unclosed.elim [] Unclosed.lines, m, ?_,
        rfl⟩
      simp [Outline.lines, hitems, Item.lines, Entry.lines]
    | @unclosed u _ hopen => exact .inr ⟨_, u, by simp [Outline.lines, hopen], rfl⟩

end Inversion

/-- A source has one outline. It is read to the tokens of its items, unless the outline is
rejected. -/
theorem scan_outline (origin : String) (n : Nat) (text : List Char) :
    ∃ o : Outline, o.lines = (Text.lines text).map (fun l => dropComment l.chars)
      ∧ (∀ o' : Outline, o'.lines = (Text.lines text).map (fun l => dropComment l.chars) → o' = o)
      ∧ (∀ ts, scan origin n text = .ok ts ↔
          (∀ i ∈ o.items, i.isBare = false) ∧ o.unclosed = none ∧ ts = tokensFrom origin n o.items)
      ∧ ∀ e, scan origin n text = .error e ↔ o.Rejected n e := by
  obtain ⟨o, ho⟩ := exists_outline ((Text.lines text).map fun l => dropComment l.chars)
  refine ⟨o, ho, fun o' ho' => Outline.eq_of_lines_eq (ho'.trans ho.symm), ?_⟩
  rw [scan, ← ho]
  rcases o.accepted_or_rejected n with ⟨hbare, hclosed⟩ | ⟨e, he⟩
  · have hscan := Outline.scanLines_eq_ok (n := n) hbare hclosed origin
    refine ⟨fun ts => ?_, fun e => ⟨fun h => ?_, fun he => ?_⟩⟩
    · rw [hscan, Except.ok.injEq]
      exact ⟨fun h => ⟨hbare, hclosed, h.symm⟩, fun h => h.2.2.symm⟩
    · cases hscan.symm.trans h
    · cases hscan.symm.trans (he.scanLines_eq_error origin)
  · have hscan := he.scanLines_eq_error origin
    refine ⟨fun ts => ⟨fun h => ?_, ?_⟩, fun e' => ⟨fun h => ?_, ?_⟩⟩
    · cases hscan.symm.trans h
    · rintro ⟨hbare, hclosed, -⟩
      cases hscan.symm.trans (Outline.scanLines_eq_ok hbare hclosed origin)
    · cases hscan.symm.trans h
      exact he
    · exact fun he' => he'.scanLines_eq_error origin

end HexPatterns.Token
