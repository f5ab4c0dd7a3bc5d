import Mathlib
import HexPatterns.Proofs.Lines

/-!
# The grammar of sources

Freed of their comments, the lines of a source are a sequence of items: a blank line, or spaces and
tabulators and an entry. An entry behind `#` or `!` and a call take one line. A definition takes the
lines up to the first `>` at which as many brackets are closed as opened, that one included. At the
end there may be a definition that is never closed. That is an `Outline`, said with no regard to how
it is found: brackets are counted in the text, not tracked by a reader.

Every sequence of lines has an outline (`exists_outline`), and one only (`Outline.eq_of_lines_eq`).
Entries are told apart by their first character. That two definitions which start alike end alike is
seen on the text of all the lines that follow, where the `>` that closes is one place (`Closes.eq`).
-/

namespace HexPatterns.Token

open Text

/-- Spaces and tabulators only, as they may stand in front of an entry. -/
def Indent (cs : List Char) : Prop :=
  ∀ c ∈ cs, c = ' ' ∨ c = '\t'

/-- The characters that make a token of the rest of their line. -/
inductive Marker where
  | hash
  | bang
deriving DecidableEq, Repr

def Marker.char : Marker → Char
  | hash => '#'
  | bang => '!'

def Marker.kind : Marker → Kind
  | hash => .directive
  | bang => .literal

/-- With this text behind a `<`, as many brackets are closed as opened. -/
def Settled (cs : List Char) : Prop :=
  ('<' :: cs).count '<' = ('<' :: cs).count '>'

/-- No `>` of the text settles the brackets. -/
def NeverCloses (cs : List Char) : Prop :=
  ∀ q, q ++ ['>'] <+: cs → ¬ Settled (q ++ ['>'])

/-- A `>` behind the text settles the brackets, and none in it does. -/
def Closes (cs : List Char) : Prop :=
  Settled (cs ++ ['>']) ∧ NeverCloses cs

def emptiedIfBlank (l : List Char) : List Char :=
  if allBlank l then [] else l

/-- What stands on a line behind its indent, and on the lines that belong to it. -/
inductive Entry where
  | marked (marker : Marker) (rest : List Char)
  | call (text : List Char)
  /-- Between its brackets there are some whole lines, the first of them from the `<` on, and the
  part of a line in front of the `>`. -/
  | definition (before : List (List Char)) (last dropped : List Char)

namespace Entry

def lines : Entry → List (List Char)
  | marked marker rest => [marker.char :: rest]
  | call text => [text]
  | definition before last dropped =>
    (before ++ [last ++ '>' :: dropped]).modifyHead ('<' :: ·)

def Valid : Entry → Prop
  | marked _ _ => True
  | call text => allBlank text = false ∧ ∀ c ∈ text.head?, c ∉ [' ', '\t', '#', '!', '<']
  | definition before last _ => Closes (before.flatten ++ last)

/-- The lines of a content. What stands on the line of the `<` is no line of its own. -/
def emptied : List (List Char) → List (List Char)
  | [] => []
  | first :: more => first :: more.map emptiedIfBlank

/-- A marker with nothing behind it. -/
def isBare : Entry → Bool
  | marked _ rest => rest.isEmpty
  | _ => false

def token (origin : String) (p : Position) : Entry → Token
  | marked marker rest => ⟨marker.kind, p, String.ofList rest, origin⟩
  | call text => ⟨.call, p, String.ofList text, origin⟩
  | definition before last _ =>
    ⟨.definition, p, String.ofList (['\n'].intercalate (emptied before ++ [last])), origin⟩

end Entry

inductive Item where
  | blank (line : List Char)
  | entry (indent : List Char) (e : Entry)

namespace Item

def lines : Item → List (List Char)
  | blank line => [line]
  | entry indent e => e.lines.modifyHead (indent ++ ·)

def Valid : Item → Prop
  | blank line => allBlank line
  | entry indent e => Indent indent ∧ e.Valid

def isBare : Item → Bool
  | blank _ => false
  | entry _ e => e.isBare

/-- The tokens of an item whose first line has number `n`: one, unless it is blank. -/
def tokens (origin : String) (n : Nat) : Item → List Token
  | blank _ => []
  | entry indent e => [e.token origin ⟨n, indent.length⟩]

end Item

/-- The tokens of items, the first line of which has number `n`. -/
def tokensFrom (origin : String) : Nat → List Item → List Token
  | _, [] => []
  | n, i :: items => i.tokens origin n ++ tokensFrom origin (n + i.lines.length) items

/-- A definition that no line of the source closes, by its lines from behind the `<`. -/
structure Unclosed where
  indent : List Char
  inside : List (List Char)
  isIndent : Indent indent
  ne_nil : inside ≠ []
  neverCloses : NeverCloses inside.flatten

def Unclosed.lines (u : Unclosed) : List (List Char) :=
  u.inside.modifyHead fun l => u.indent ++ '<' :: l

structure Outline where
  items : List Item
  unclosed : Option Unclosed
  valid : ∀ i ∈ items, i.Valid

def Outline.lines (o : Outline) : List (List Char) :=
  o.items.flatMap Item.lines ++ o.unclosed.elim [] Unclosed.lines

/-! ## Where a definition ends -/

theorem settled_concat {cs : List Char} :
    Settled (cs ++ ['>']) ↔ cs.count '<' = cs.count '>' := by
  simp [Settled]

theorem NeverCloses.mono {cs ds : List Char} (h : NeverCloses ds) (hpre : cs <+: ds) :
    NeverCloses cs :=
  fun q hq => h q (hq.trans hpre)

/-- Of the places at which a text is settled, one is the first. -/
theorem exists_closes {cs : List Char} : ∀ {q : List Char}, q ++ ['>'] <+: cs →
    Settled (q ++ ['>']) → ∃ p, p ++ ['>'] <+: cs ∧ Closes p
  | q, hq, hsettled => by
    by_cases hnever : NeverCloses q
    · exact ⟨q, hq, hsettled, hnever⟩
    · simp only [NeverCloses, not_forall, not_not] at hnever
      obtain ⟨r, hr, hsettled⟩ := hnever
      have hlt : r.length < q.length := by simpa using hr.length_le
      exact exists_closes ((hr.trans (List.prefix_append q _)).trans hq) hsettled
termination_by q => q.length

theorem neverCloses_or_exists_closes (cs : List Char) :
    NeverCloses cs ∨ ∃ q, q ++ ['>'] <+: cs ∧ Closes q := by
  by_cases h : NeverCloses cs
  · exact .inl h
  · simp only [NeverCloses, not_forall, not_not] at h
    obtain ⟨q, hq, hsettled⟩ := h
    exact .inr (exists_closes hq hsettled)

/-- In one text there is one place that closes. -/
theorem Closes.eq {p q cs : List Char} (hp : Closes p) (hq : Closes q) (hpcs : p ++ ['>'] <+: cs)
    (hqcs : q ++ ['>'] <+: cs) : p = q := by
  rcases List.prefix_or_prefix_of_prefix hpcs hqcs with h | h
  · rcases List.prefix_concat_iff.1 h with h | h
    · exact List.append_cancel_right h
    · exact absurd hp.1 (hq.2 p h)
  · rcases List.prefix_concat_iff.1 h with h | h
    · exact (List.append_cancel_right h).symm
    · exact absurd hq.1 (hp.2 q h)

/-- A `>` in the text of some lines is on one of them. -/
theorem exists_lines_of_prefix : ∀ {ls : List (List Char)} {q : List Char},
    q ++ ['>'] <+: ls.flatten → ∃ before last dropped rest,
      ls = before ++ (last ++ '>' :: dropped) :: rest ∧ q = before.flatten ++ last
  | [], q, h => by simp at h
  | l :: ls, q, h => by
    have hl : l <+: (l :: ls).flatten := by simp
    rcases List.prefix_or_prefix_of_prefix h hl with hq | hq
    · obtain ⟨dropped, rfl⟩ := hq
      exact ⟨[], q, dropped, ls, by simp, by simp⟩
    · rcases List.prefix_concat_iff.1 hq with rfl | ⟨r, rfl⟩
      · exact ⟨[], q, [], ls, by simp, by simp⟩
      · rw [List.flatten_cons, List.append_assoc, List.prefix_append_right_inj] at h
        obtain ⟨before, last, dropped, rest, rfl, rfl⟩ := exists_lines_of_prefix h
        exact ⟨l :: before, last, dropped, rest, by simp, by simp⟩

theorem length_lt_of_lines {before before' rest rest' : List (List Char)}
    {last dropped : List Char} (heq : before ++ (last ++ '>' :: dropped) :: rest = before' ++ rest')
    (hlt : before.length < before'.length) :
    (before.flatten ++ last).length < before'.flatten.length := by
  have hpre : before ++ [last ++ '>' :: dropped] <+: before' ++ rest' :=
    ⟨rest, by rw [← heq, List.append_assoc, List.singleton_append]⟩
  obtain ⟨more, rfl⟩ :=
    List.prefix_of_prefix_length_le hpre (List.prefix_append _ _) (by simpa using hlt)
  simp only [List.flatten_append, List.flatten_cons, List.flatten_nil, List.length_append,
    List.length_cons, List.append_nil]
  omega

theorem prefix_flatten_lines (before rest : List (List Char)) (last dropped : List Char) :
    before.flatten ++ last ++ ['>'] <+: (before ++ (last ++ '>' :: dropped) :: rest).flatten :=
  ⟨dropped ++ rest.flatten, by simp⟩

/-- Where the text behind the `<` is the same, neither closing line comes before the other. -/
theorem Closes.lines_eq {before before' rest rest' : List (List Char)}
    {last last' dropped dropped' : List Char} (h : Closes (before.flatten ++ last))
    (h' : Closes (before'.flatten ++ last'))
    (heq : before ++ (last ++ '>' :: dropped) :: rest
      = before' ++ (last' ++ '>' :: dropped') :: rest') :
    before = before' ∧ last = last' ∧ dropped = dropped' ∧ rest = rest' := by
  have hinside : before.flatten ++ last = before'.flatten ++ last' :=
    h.eq h' (prefix_flatten_lines before rest last dropped)
      (heq ▸ prefix_flatten_lines before' rest' last' dropped')
  rcases lt_trichotomy before.length before'.length with hlt | hlength | hlt
  · have := length_lt_of_lines heq hlt
    rw [hinside, List.length_append] at this
    omega
  · obtain ⟨rfl, hlines⟩ := List.append_inj heq hlength
    obtain ⟨hline, rfl⟩ := List.cons.inj hlines
    obtain rfl := List.append_cancel_left hinside
    exact ⟨rfl, rfl, (List.cons.inj (List.append_cancel_left hline)).2, rfl⟩
  · have := length_lt_of_lines heq.symm hlt
    rw [← hinside, List.length_append] at this
    omega

/-! ## Every sequence of lines has one outline -/

theorem exists_indent : ∀ l : List Char, allBlank l = true ∨
    ∃ indent c rest, Indent indent ∧ c ≠ ' ' ∧ c ≠ '\t' ∧ l = indent ++ c :: rest
  | [] => .inl rfl
  | c :: l => by
    by_cases hc : c = ' ' ∨ c = '\t'
    · rcases exists_indent l with h | ⟨indent, d, rest, hindent, hd, hd', rfl⟩
      · refine .inl ?_
        have hblank : isBlank c = true := by rcases hc with rfl | rfl <;> decide
        simpa [allBlank, hblank] using h
      · exact .inr ⟨c :: indent, d, rest, List.forall_mem_cons.2 ⟨hc, hindent⟩, hd, hd', rfl⟩
    · rw [not_or] at hc
      exact .inr ⟨[], c, l, by simp [Indent], hc.1, hc.2, rfl⟩

theorem Indent.eq {a b x y : List Char} {c d : Char} (hc : c ≠ ' ' ∧ c ≠ '\t')
    (hd : d ≠ ' ' ∧ d ≠ '\t') : Indent a → Indent b → a ++ c :: x = b ++ d :: y →
      a = b ∧ c :: x = d :: y := by
  intro ha hb heq
  induction a generalizing b with
  | nil =>
    rcases b with _ | ⟨e, b⟩
    · exact ⟨rfl, heq⟩
    · obtain ⟨rfl, -⟩ := List.cons.inj heq
      exact absurd (hb c List.mem_cons_self) (by simpa using hc)
  | cons e a ih =>
    rcases b with _ | ⟨f, b⟩
    · obtain ⟨rfl, -⟩ := List.cons.inj heq
      exact absurd (ha e List.mem_cons_self) (by simpa using hd)
    · obtain ⟨rfl, htail⟩ := List.cons.inj heq
      obtain ⟨rfl, hrest⟩ := ih (List.forall_mem_cons.1 ha).2 (List.forall_mem_cons.1 hb).2 htail
      exact ⟨rfl, hrest⟩

/-- A line that holds more than spaces and tabulators starts with an entry, or opens a definition
that may or may not be closed on the lines to come. -/
theorem exists_start (l : List Char) (ls : List (List Char)) :
    (∃ i rest, Item.Valid i ∧ l :: ls = i.lines ++ rest ∧ rest.length ≤ ls.length)
      ∨ ∃ u : Unclosed, l :: ls = u.lines := by
  by_cases hblank : allBlank l = true
  · exact .inl ⟨.blank l, ls, hblank, rfl, le_rfl⟩
  obtain h | ⟨indent, c, rest, hindent, hspace, htab, rfl⟩ := exists_indent l
  · exact absurd h hblank
  by_cases hhash : c = '#'
  · subst hhash
    exact .inl ⟨.entry indent (.marked .hash rest), ls, ⟨hindent, trivial⟩, rfl, le_rfl⟩
  by_cases hbang : c = '!'
  · subst hbang
    exact .inl ⟨.entry indent (.marked .bang rest), ls, ⟨hindent, trivial⟩, rfl, le_rfl⟩
  by_cases hopen : c = '<'
  · subst hopen
    rcases neverCloses_or_exists_closes (rest :: ls).flatten with hnever | ⟨q, hq, hcloses⟩
    · exact .inr ⟨⟨indent, rest :: ls, hindent, by simp, hnever⟩, rfl⟩
    · obtain ⟨before, last, dropped, more, hlines, rfl⟩ := exists_lines_of_prefix hq
      refine .inl ⟨.entry indent (.definition before last dropped), more, ⟨hindent, hcloses⟩, ?_,
        ?_⟩
      · rcases before with _ | ⟨first, before⟩
        · obtain ⟨rfl, rfl⟩ := List.cons.inj hlines
          rfl
        · obtain ⟨rfl, rfl⟩ := List.cons.inj hlines
          simp [Item.lines, Entry.lines]
      · have hlength := congrArg List.length hlines
        simp only [List.length_append, List.length_cons] at hlength
        omega
  · refine .inl ⟨.entry indent (.call (c :: rest)), ls, ⟨hindent, ?_, ?_⟩, rfl, le_rfl⟩
    · rw [allBlank, List.all_append, Bool.and_eq_true, not_and, Bool.not_eq_true] at hblank
      refine hblank (List.all_eq_true.2 fun d hd => ?_)
      rcases hindent d hd with rfl | rfl <;> decide
    · simp [hspace, htab, hhash, hbang, hopen]

theorem exists_outline (ls : List (List Char)) : ∃ o : Outline, o.lines = ls := by
  induction h : ls.length using Nat.strong_induction_on generalizing ls with
  | _ k ih =>
    rcases ls with _ | ⟨l, ls⟩
    · exact ⟨⟨[], none, by simp⟩, rfl⟩
    rcases exists_start l ls with ⟨i, rest, hi, hlines, hlength⟩ | ⟨u, hlines⟩
    · rw [List.length_cons] at h
      obtain ⟨o, rfl⟩ := ih rest.length (by omega) rest rfl
      refine ⟨⟨i :: o.items, o.unclosed, List.forall_mem_cons.2 ⟨hi, o.valid⟩⟩, ?_⟩
      rw [hlines, Outline.lines, Outline.lines, List.flatMap_cons, List.append_assoc]
    · exact ⟨⟨[], some u, by simp⟩, hlines.symm⟩

theorem Entry.exists_lines {e : Entry} (he : e.Valid) : ∃ c rest more,
    e.lines = (c :: rest) :: more ∧ (c ≠ ' ' ∧ c ≠ '\t') ∧ allBlank (c :: rest) = false := by
  rcases e with ⟨marker, rest⟩ | text | ⟨before, last, dropped⟩
  · rcases marker with _ | _
    · exact ⟨'#', rest, [], rfl, by decide, rfl⟩
    · exact ⟨'!', rest, [], rfl, by decide, rfl⟩
  · obtain ⟨hblank, hhead⟩ := he
    rcases text with _ | ⟨c, rest⟩
    · cases hblank
    · have hc := hhead c rfl
      simp only [List.mem_cons, not_or] at hc
      exact ⟨c, rest, [], rfl, ⟨hc.1, hc.2.1⟩, hblank⟩
  · rcases before with _ | ⟨first, before⟩
    · exact ⟨'<', last ++ '>' :: dropped, [], rfl, by decide, rfl⟩
    · exact ⟨'<', first, before ++ [last ++ '>' :: dropped], rfl, by decide, rfl⟩

theorem modifyHead_cons_inj {c : Char} : ∀ {ls ls' : List (List Char)},
    ls.modifyHead (c :: ·) = ls'.modifyHead (c :: ·) → ls = ls'
  | [], [], _ => rfl
  | [], l' :: ls', h => by simp at h
  | l :: ls, [], h => by simp at h
  | l :: ls, l' :: ls', h => by simpa using h

theorem Entry.definition_lines_append (before rest : List (List Char)) (last dropped : List Char) :
    (definition before last dropped).lines ++ rest
      = (before ++ (last ++ '>' :: dropped) :: rest).modifyHead ('<' :: ·) := by
  cases before <;> simp [lines]

/-- The character that tells what the entry is, unless it is a call. -/
def Entry.lead? : Entry → Option Char
  | marked marker _ => some marker.char
  | call _ => none
  | definition _ _ _ => some '<'

theorem Entry.lead?_eq {e : Entry} (he : e.Valid) {c : Char} {rest : List Char}
    {more ls : List (List Char)} (h : e.lines ++ more = (c :: rest) :: ls) :
    e.lead? = if c ∈ ['#', '!', '<'] then some c else none := by
  rcases e with ⟨marker, tail⟩ | text | ⟨before, last, dropped⟩
  · obtain ⟨hc, -⟩ := List.cons.inj (List.cons.inj h).1
    subst hc
    cases marker <;> rfl
  · obtain ⟨rfl, -⟩ := List.cons.inj h
    have hc := he.2 c rfl
    simp only [List.mem_cons, not_or] at hc
    simp [lead?, hc]
  · rw [definition_lines_append] at h
    rcases before with _ | ⟨first, before⟩
    · obtain ⟨rfl, -⟩ := List.cons.inj (List.cons.inj h).1
      rfl
    · obtain ⟨rfl, -⟩ := List.cons.inj (List.cons.inj h).1
      rfl

theorem Marker.char_inj : ∀ {m m' : Marker}, m.char = m'.char → m = m'
  | hash, hash, _ | bang, bang, _ => rfl
  | hash, bang, h | bang, hash, h => absurd h (by decide)

theorem Entry.lines_inj {e e' : Entry} {rest rest' : List (List Char)} (he : e.Valid)
    (he' : e'.Valid) (heq : e.lines ++ rest = e'.lines ++ rest') : e = e' ∧ rest = rest' := by
  have hlead : e.lead? = e'.lead? := by
    obtain ⟨c, tail, more, hlines, -⟩ := exists_lines he
    rw [lead?_eq he (congrArg (· ++ rest) hlines),
      lead?_eq he' (heq.symm.trans (congrArg (· ++ rest) hlines))]
  rcases e with ⟨marker, tail⟩ | text | ⟨before, last, dropped⟩
  · rcases e' with ⟨marker', tail'⟩ | text' | ⟨before', last', dropped'⟩
    · obtain ⟨hline, rfl⟩ := List.cons.inj heq
      obtain ⟨hchar, rfl⟩ := List.cons.inj hline
      rw [Marker.char_inj hchar]
      exact ⟨rfl, rfl⟩
    · cases hlead
    · cases marker <;> simp [lead?, Marker.char] at hlead
  · rcases e' with ⟨marker', tail'⟩ | text' | ⟨before', last', dropped'⟩
    · cases hlead
    · obtain ⟨rfl, rfl⟩ := List.cons.inj heq
      exact ⟨rfl, rfl⟩
    · cases hlead
  · rcases e' with ⟨marker', tail'⟩ | text' | ⟨before', last', dropped'⟩
    · cases marker' <;> simp [lead?, Marker.char] at hlead
    · cases hlead
    · rw [definition_lines_append, definition_lines_append] at heq
      obtain ⟨rfl, rfl, rfl, rfl⟩ := Closes.lines_eq he he' (modifyHead_cons_inj heq)
      exact ⟨rfl, rfl⟩

theorem allBlank_append {a b : List Char} :
    allBlank (a ++ b) = (allBlank a && allBlank b) :=
  List.all_append

theorem Item.lines_entry {e : Entry} {indent l : List Char} {more : List (List Char)}
    (h : e.lines = l :: more) : (entry indent e).lines = (indent ++ l) :: more := by
  rw [lines, h, List.modifyHead_cons]

/-- An item that starts with an indent and a character of an entry is an entry with that indent. -/
theorem Item.exists_entry {i : Item} {indent tail : List Char} {c : Char}
    {rest ls : List (List Char)} (hi : i.Valid) (hindent : Indent indent)
    (hc : c ≠ ' ' ∧ c ≠ '\t') (hblank : allBlank (c :: tail) = false)
    (heq : i.lines ++ rest = (indent ++ c :: tail) :: ls) :
    ∃ e, i = .entry indent e ∧ e.Valid ∧ e.lines ++ rest = (c :: tail) :: ls := by
  rcases i with l | ⟨indent', e⟩
  · obtain ⟨rfl, -⟩ := List.cons.inj heq
    have hi : allBlank (indent ++ c :: tail) = true := hi
    rw [allBlank_append, hblank, Bool.and_false] at hi
    cases hi
  · obtain ⟨hindent', he⟩ := hi
    obtain ⟨d, tail', more, hlines, hd, -⟩ := Entry.exists_lines he
    rw [lines_entry hlines] at heq
    obtain ⟨hline, rfl⟩ := List.cons.inj heq
    obtain ⟨rfl, htail⟩ := Indent.eq hd hc hindent' hindent hline
    exact ⟨e, rfl, he, by rw [hlines, htail]; rfl⟩

theorem Item.lines_inj {i i' : Item} {rest rest' : List (List Char)} (hi : i.Valid)
    (hi' : i'.Valid) (heq : i.lines ++ rest = i'.lines ++ rest') : i = i' ∧ rest = rest' := by
  rcases i with l | ⟨indent, e⟩
  · rcases i' with l' | ⟨indent', e'⟩
    · obtain ⟨rfl, rfl⟩ := List.cons.inj heq
      exact ⟨rfl, rfl⟩
    · obtain ⟨c, tail, more, hlines, hc, hblank⟩ := Entry.exists_lines hi'.2
      rw [lines_entry hlines] at heq
      obtain ⟨_, h, -⟩ := exists_entry hi hi'.1 hc hblank heq
      cases h
  · obtain ⟨c, tail, more, hlines, hc, hblank⟩ := Entry.exists_lines hi.2
    have hstart : i'.lines ++ rest' = (indent ++ c :: tail) :: (more ++ rest) := by
      rw [← heq, lines_entry hlines, List.cons_append]
    obtain ⟨e', rfl, he', hrest⟩ := exists_entry hi' hi.1 hc hblank hstart
    obtain ⟨rfl, rfl⟩ := Entry.lines_inj hi.2 he' (by rw [hlines, hrest]; rfl)
    exact ⟨rfl, rfl⟩

theorem Unclosed.exists_lines (u : Unclosed) : ∃ first more, u.inside = first :: more
    ∧ u.lines = (u.indent ++ '<' :: first) :: more := by
  rcases h : u.inside with _ | ⟨first, more⟩
  · exact absurd h u.ne_nil
  · exact ⟨first, more, rfl, by rw [lines, h]; rfl⟩

/-- No item is the beginning of a definition that is never closed. -/
theorem Unclosed.lines_ne (u : Unclosed) {i : Item} (hi : i.Valid) (rest : List (List Char)) :
    u.lines ≠ i.lines ++ rest := by
  intro heq
  obtain ⟨first, more, hinside, hlines⟩ := u.exists_lines
  obtain ⟨e, rfl, he, hrest⟩ :=
    Item.exists_entry hi u.isIndent (by decide) rfl (heq.symm.trans hlines)
  have hlead := Entry.lead?_eq he hrest
  rcases e with ⟨marker, tail⟩ | text | ⟨before, last, dropped⟩
  · cases marker <;> cases hlead
  · cases hlead
  · rw [Entry.definition_lines_append] at hrest
    have hlines : u.inside = before ++ (last ++ '>' :: dropped) :: rest :=
      (modifyHead_cons_inj (hrest.trans (by rw [hinside]; rfl))).symm
    exact u.neverCloses _ (hlines ▸ prefix_flatten_lines ..) he.1

theorem Unclosed.lines_inj {u u' : Unclosed} (heq : u.lines = u'.lines) : u = u' := by
  obtain ⟨first, more, hinside, hlines⟩ := u.exists_lines
  obtain ⟨first', more', hinside', hlines'⟩ := u'.exists_lines
  rw [hlines, hlines'] at heq
  obtain ⟨hline, rfl⟩ := List.cons.inj heq
  obtain ⟨hindent, htail⟩ := Indent.eq (by decide) (by decide) u.isIndent u'.isIndent hline
  obtain ⟨-, rfl⟩ := List.cons.inj htail
  obtain ⟨indent, inside, _, _, _⟩ := u
  obtain ⟨indent', inside', _, _, _⟩ := u'
  simp_all

theorem Item.lines_ne_nil {i : Item} (hi : i.Valid) : i.lines ≠ [] := by
  rcases i with l | ⟨indent, e⟩
  · exact List.cons_ne_nil _ _
  · obtain ⟨c, tail, more, hlines, -⟩ := Entry.exists_lines hi.2
    rw [lines_entry hlines]
    exact List.cons_ne_nil _ _

theorem unclosed_lines_ne {u? : Option Unclosed} {i : Item} (hi : i.Valid)
    (rest : List (List Char)) : u?.elim [] Unclosed.lines ≠ i.lines ++ rest := by
  cases u? with
  | none => exact fun h => Item.lines_ne_nil hi (List.append_eq_nil_iff.1 h.symm).1
  | some u => exact u.lines_ne hi rest

theorem items_eq_of_lines_eq {u? u?' : Option Unclosed} : ∀ {items items' : List Item},
    (∀ i ∈ items, i.Valid) → (∀ i ∈ items', i.Valid) →
    items.flatMap Item.lines ++ u?.elim [] Unclosed.lines
      = items'.flatMap Item.lines ++ u?'.elim [] Unclosed.lines → items = items' ∧ u? = u?'
  | [], [], _, _, h => by
    refine ⟨rfl, ?_⟩
    rcases u? with _ | u <;> rcases u?' with _ | u'
    · rfl
    · obtain ⟨_, _, -, hlines⟩ := u'.exists_lines
      exact absurd (h.trans hlines) (by simp)
    · obtain ⟨_, _, -, hlines⟩ := u.exists_lines
      exact absurd (h.symm.trans hlines) (by simp)
    · rw [Unclosed.lines_inj h]
  | [], i' :: items', _, hvalid', h => by
    rw [List.flatMap_cons, List.append_assoc] at h
    exact absurd h (unclosed_lines_ne (List.forall_mem_cons.1 hvalid').1 _)
  | i :: items, [], hvalid, _, h => by
    rw [List.flatMap_cons, List.append_assoc] at h
    exact absurd h.symm (unclosed_lines_ne (List.forall_mem_cons.1 hvalid).1 _)
  | i :: items, i' :: items', hvalid, hvalid', h => by
    obtain ⟨hi, hitems⟩ := List.forall_mem_cons.1 hvalid
    obtain ⟨hi', hitems'⟩ := List.forall_mem_cons.1 hvalid'
    rw [List.flatMap_cons, List.append_assoc, List.flatMap_cons, List.append_assoc] at h
    obtain ⟨rfl, hrest⟩ := Item.lines_inj hi hi' h
    obtain ⟨rfl, rfl⟩ := items_eq_of_lines_eq hitems hitems' hrest
    exact ⟨rfl, rfl⟩

theorem Outline.eq_of_lines_eq {o o' : Outline} (h : o.lines = o'.lines) : o = o' := by
  obtain ⟨items, u?, hvalid⟩ := o
  obtain ⟨items', u?', hvalid'⟩ := o'
  obtain ⟨rfl, rfl⟩ := items_eq_of_lines_eq hvalid hvalid' h
  rfl

end HexPatterns.Token
