import Mathlib
import HexPatterns.Proofs.Lines

/-!
# Lines divide the bytes of a text

Lines and the line ends between them cover a text without gap or overlap, and in no other way
(`partition_iff_lines`). This is said of the bytes of the text: what stands at a place is compared
byte by byte, and nothing is taken for granted of where characters start. Behind some characters,
bytes that write a text are the next characters of it (`standsAt_iff`), since no two characters are
written alike at the front. So a division of the bytes is one of the characters, and along these the
lines are found one by one.
-/

namespace HexPatterns.Text

section Bytes

/-- The text stands in the bytes, from the given place on. -/
def StandsAt (bytes : ByteArray) (start : Nat) (text : List Char) : Prop :=
  bytes.extract start (start + byteLength text) = text.utf8Encode

/-- One line end fills the bytes from one place to the other. -/
inductive EndBetween (bytes : ByteArray) (start stop : Nat) : Prop
  | returnNewline : StandsAt bytes start ['\r', '\n'] → stop = start + 2 →
      EndBetween bytes start stop
  | newline : StandsAt bytes start ['\n'] → stop = start + 1 → EndBetween bytes start stop
  | loneReturn : StandsAt bytes start ['\r'] → stop = start + 1 → ¬ StandsAt bytes stop ['\n'] →
      EndBetween bytes start stop

variable {before : ByteArray} {start : Nat} {text cs : List Char}

theorem size_utf8Encode (cs : List Char) : cs.utf8Encode.size = byteLength cs := by
  induction cs with
  | nil => rfl
  | cons c cs ih =>
    rw [List.utf8Encode_cons, ByteArray.size_append, ih, List.utf8Encode_singleton,
      List.size_toByteArray, String.length_utf8EncodeChar]
    rfl

/-- Where the bytes of some characters start, there stand the texts that the characters start
with. -/
theorem standsAt_iff (hstart : before.size = start) :
    StandsAt (before ++ cs.utf8Encode) start text ↔ text <+: cs := by
  have hextract : (before ++ cs.utf8Encode).extract (before.size + 0)
      (before.size + byteLength text) = cs.utf8Encode.extract 0 (byteLength text) :=
    ByteArray.extract_append_size_add
  rw [Nat.add_zero] at hextract
  rw [StandsAt, ← hstart, hextract]
  constructor
  · intro h
    have hsize := congrArg ByteArray.size h
    rw [ByteArray.size_extract, size_utf8Encode text] at hsize
    refine List.isPrefix_of_utf8Encode_append_eq_utf8Encode
      (cs.utf8Encode.extract (byteLength text) cs.utf8Encode.size) ?_
    rw [← h, ← ByteArray.extract_eq_extract_append_extract _ (by omega) (by omega),
      ByteArray.extract_zero_size]
  · rintro ⟨rest, rfl⟩
    rw [List.utf8Encode_append]
    exact ByteArray.extract_append_eq_left (size_utf8Encode text).symm

theorem append_utf8Encode (before : ByteArray) (text rest : List Char) :
    before ++ (text ++ rest).utf8Encode = before ++ text.utf8Encode ++ rest.utf8Encode := by
  rw [List.utf8Encode_append, ByteArray.append_assoc]

theorem size_append_utf8Encode (before : ByteArray) (text : List Char) :
    (before ++ text.utf8Encode).size = before.size + byteLength text := by
  rw [ByteArray.size_append, size_utf8Encode]

/-- The text is a line end, and all of it, in front of the others. -/
inductive Ends : List Char → List Char → Prop
  | returnNewline {rest : List Char} : Ends ['\r', '\n'] rest
  | newline {rest : List Char} : Ends ['\n'] rest
  | loneReturn {rest : List Char} : ¬ ['\n'] <+: rest → Ends ['\r'] rest

theorem endBetween_iff {stop : Nat} (hstart : before.size = start) :
    EndBetween (before ++ cs.utf8Encode) start stop
      ↔ ∃ text rest, cs = text ++ rest ∧ Ends text rest ∧ stop = start + byteLength text := by
  have hbehind : ∀ rest, StandsAt (before ++ (['\r'] ++ rest).utf8Encode) (start + 1) ['\n']
      ↔ ['\n'] <+: rest := by
    intro rest
    rw [append_utf8Encode, standsAt_iff]
    rw [size_append_utf8Encode, hstart]
    rfl
  constructor
  · rintro (⟨h, rfl⟩ | ⟨h, rfl⟩ | ⟨h, rfl, hno⟩) <;>
      obtain ⟨rest, rfl⟩ := (standsAt_iff hstart).1 h
    · exact ⟨_, rest, rfl, .returnNewline, rfl⟩
    · exact ⟨_, rest, rfl, .newline, rfl⟩
    · exact ⟨_, rest, rfl, .loneReturn (hno ∘ (hbehind rest).2), rfl⟩
  · rintro ⟨text, rest, rfl, hends, rfl⟩
    have hstands := (standsAt_iff hstart).2 (List.prefix_append text rest)
    cases hends with
    | returnNewline => exact .returnNewline hstands rfl
    | newline => exact .newline hstands rfl
    | loneReturn hno => exact .loneReturn hstands rfl (hno ∘ (hbehind rest).1)

end Bytes

section Splitting

variable {offset : Nat} {read l cs : List Char}

/-- Characters that end no line belong to the line that is being read. -/
theorem splitFrom_append_left (hl : ∀ c ∈ l, ¬ IsBreak c) :
    Line.splitFrom offset read (l ++ cs) = Line.splitFrom offset (l.reverse ++ read) cs := by
  induction l generalizing read with
  | nil => rfl
  | cons c l ih =>
    obtain ⟨hc, hl⟩ := List.forall_mem_cons.1 hl
    have hc' : ¬ (c = '\r' ∨ c = '\n') := hc
    rw [List.cons_append, Line.splitFrom, if_neg hc', ih hl, List.reverse_cons, List.append_assoc]
    · rfl
    · rintro rest rfl
      exact absurd (.inl rfl) hc

theorem splitFrom_of_ends {text rest : List Char} (h : Ends text rest) :
    Line.splitFrom offset read (text ++ rest) = ⟨offset, read.reverse⟩
      :: Line.splitFrom (offset + byteLength read + byteLength text) [] rest := by
  cases h with
  | returnNewline => rfl
  | newline => rfl
  | loneReturn hno =>
    rw [List.singleton_append, Line.splitFrom, if_pos (.inl rfl)]
    · rfl
    · rintro rest' - rfl
      exact hno (List.prefix_append ['\n'] rest')

end Splitting

/-- Where a line ends. -/
def Line.stop (l : Line) : Nat := l.offset + byteLength l.chars

/-- The lines divide the bytes, from the place `start` to the end: the first line starts there, each
line stands in its place, one line end is between a line and the next, and the last line ends with
the bytes. -/
structure Partition (bytes : ByteArray) (start : Nat) (ls : List Line) : Prop where
  nonempty : ls ≠ []
  first : ∀ l ∈ ls.head?, l.offset = start
  unbroken : ∀ l ∈ ls, ∀ c ∈ l.chars, c ≠ '\r' ∧ c ≠ '\n'
  stands : ∀ l ∈ ls, StandsAt bytes l.offset l.chars
  ended : ls.IsChain fun l next => EndBetween bytes l.stop next.offset
  last : ∀ l ∈ ls.getLast?, l.stop = bytes.size

section Partition

variable {bytes before : ByteArray} {start : Nat} {l next : Line} {ls : List Line}
  {cs : List Char}

theorem partition_singleton : Partition bytes start [l] ↔ l.offset = start
    ∧ (∀ c ∈ l.chars, ¬ IsBreak c) ∧ StandsAt bytes l.offset l.chars ∧ l.stop = bytes.size := by
  simp only [IsBreak, not_or]
  constructor
  · intro h
    exact ⟨h.first l rfl, h.unbroken l (by simp), h.stands l (by simp), h.last l rfl⟩
  · rintro ⟨hfirst, hunbroken, hstands, hlast⟩
    exact ⟨by simp, by simpa using hfirst, by simpa using hunbroken, by simpa using hstands,
      by simp, by simpa using hlast⟩

theorem partition_cons : Partition bytes start (l :: next :: ls) ↔ l.offset = start
    ∧ (∀ c ∈ l.chars, ¬ IsBreak c) ∧ StandsAt bytes l.offset l.chars
    ∧ EndBetween bytes l.stop next.offset ∧ Partition bytes next.offset (next :: ls) := by
  simp only [IsBreak, not_or]
  constructor
  · intro h
    obtain ⟨hend, hended⟩ := List.isChain_cons_cons.1 h.ended
    exact ⟨h.first l rfl, h.unbroken l (by simp), h.stands l (by simp), hend, by simp, by simp,
      (List.forall_mem_cons.1 h.unbroken).2, (List.forall_mem_cons.1 h.stands).2, hended,
      by simpa using h.last⟩
  · rintro ⟨hfirst, hunbroken, hstands, hend, hrest⟩
    exact ⟨by simp, by simpa using hfirst, List.forall_mem_cons.2 ⟨hunbroken, hrest.unbroken⟩,
      List.forall_mem_cons.2 ⟨hstands, hrest.stands⟩, List.isChain_cons_cons.2 ⟨hend, hrest.ended⟩,
      by simpa using hrest.last⟩

theorem eq_nil_of_byteLength {rest : List Char} (h : byteLength rest = 0) : rest = [] := by
  rw [← size_utf8Encode, ByteArray.size_eq_zero_iff] at h
  exact List.utf8Encode_eq_empty.1 h

/-- Lines that divide the bytes of some characters are the lines of these characters. -/
theorem Partition.eq_splitFrom (hstart : before.size = start)
    (h : Partition (before ++ cs.utf8Encode) start ls) : ls = Line.splitFrom start [] cs := by
  induction ls generalizing before start cs with
  | nil => exact absurd rfl h.nonempty
  | cons l ls ih =>
    obtain rfl := h.first l rfl
    obtain ⟨rest, rfl⟩ : l.chars <+: cs := (standsAt_iff hstart).1 (h.stands l (by simp))
    have hline : (before ++ l.chars.utf8Encode).size = l.stop := by
      rw [size_append_utf8Encode, hstart, Line.stop]
    rw [append_utf8Encode] at h
    rcases ls with _ | ⟨next, ls⟩
    · obtain ⟨-, hunbroken, -, hlast⟩ := partition_singleton.1 h
      rw [size_append_utf8Encode, hline] at hlast
      obtain rfl : rest = [] := eq_nil_of_byteLength (by omega)
      rw [splitFrom_append_left hunbroken]
      simp [Line.splitFrom]
    · obtain ⟨-, hunbroken, -, hend, hrest⟩ := partition_cons.1 h
      obtain ⟨text, rest, rfl, hends, hnext⟩ := (endBetween_iff hline).1 hend
      rw [append_utf8Encode] at hrest
      have hsize : (before ++ l.chars.utf8Encode ++ text.utf8Encode).size = next.offset := by
        rw [size_append_utf8Encode, hline, hnext]
      rw [splitFrom_append_left hunbroken, splitFrom_of_ends hends, ih hsize hrest, hnext,
        Line.stop]
      simp

/-- A line in front, and a line end behind it. -/
theorem Partition.cons {chars text rest : List Char} {stop : Nat} (hstart : before.size = start)
    (hchars : ∀ c ∈ chars, ¬ IsBreak c) (hends : Ends text rest)
    (hstop : stop = start + byteLength chars + byteLength text)
    (h : Partition (before ++ chars.utf8Encode ++ text.utf8Encode ++ rest.utf8Encode) stop ls) :
    Partition (before ++ (chars ++ (text ++ rest)).utf8Encode) start (⟨start, chars⟩ :: ls) := by
  rcases ls with _ | ⟨next, ls⟩
  · exact absurd rfl h.nonempty
  have hnext := (h.first next rfl).trans hstop
  have hline : (before ++ chars.utf8Encode).size = start + byteLength chars := by
    rw [size_append_utf8Encode, hstart]
  refine partition_cons.2 ⟨rfl, hchars, ?_, ?_, ?_⟩
  · exact (standsAt_iff hstart).2 (List.prefix_append _ _)
  · rw [append_utf8Encode]
    exact (endBetween_iff hline).2 ⟨text, rest, rfl, hends, hnext⟩
  · rw [append_utf8Encode, append_utf8Encode, h.first next rfl]
    exact h

/-- The lines of some characters divide their bytes. -/
theorem partition_splitFrom (read : List Char) (hstart : before.size = start)
    (hread : ∀ c ∈ read, ¬ IsBreak c) :
    Partition (before ++ (read.reverse ++ cs).utf8Encode) start (Line.splitFrom start read cs) := by
  have hreverse : ∀ {read : List Char}, (∀ c ∈ read, ¬ IsBreak c) →
      ∀ c ∈ read.reverse, ¬ IsBreak c := by simp
  fun_induction Line.splitFrom start read cs generalizing before with
  | case1 offset read =>
    refine partition_singleton.2 ⟨rfl, hreverse hread, ?_, ?_⟩
    · exact (standsAt_iff hstart).2 (List.prefix_append _ _)
    · rw [List.append_nil, size_append_utf8Encode, hstart, Line.stop]
  | case2 offset read cs ih =>
    have hstop : offset + byteLength read + 2
        = offset + byteLength read.reverse + byteLength ['\r', '\n'] := by
      rw [byteLength_reverse]
      rfl
    refine .cons hstart (hreverse hread) .returnNewline hstop (ih ?_ (by simp))
    rw [size_append_utf8Encode, size_append_utf8Encode, hstart, hstop]
  | case3 offset read c cs hno hc ih =>
    have hends : Ends [c] cs := by
      rcases hc with rfl | rfl
      · refine .loneReturn ?_
        rintro ⟨rest, rfl⟩
        exact hno rest rfl rfl
      · exact .newline
    have hstop : offset + byteLength read + 1
        = offset + byteLength read.reverse + byteLength [c] := by
      rw [byteLength_reverse, byteLength_break hc]
      rfl
    refine .cons hstart (hreverse hread) hends hstop (ih ?_ (by simp))
    rw [size_append_utf8Encode, size_append_utf8Encode, hstart, hstop]
  | case4 offset read c cs hno hc ih =>
    have hpart := ih hstart (List.forall_mem_cons.2 ⟨hc, hread⟩)
    rwa [List.reverse_cons, List.append_assoc] at hpart

end Partition

/-- How many line ends a text has: as many as it has newlines and returns that no newline
follows. -/
def lineEnds (cs : List Char) : Nat :=
  cs.tails.countP fun t => t[0]? = some '\n' ∨ t[0]? = some '\r' ∧ t[1]? ≠ some '\n'

theorem lineEnds_cons (c : Char) (cs : List Char) : lineEnds (c :: cs)
    = lineEnds cs + if c = '\n' ∨ c = '\r' ∧ cs[0]? ≠ some '\n' then 1 else 0 := by
  simp only [lineEnds, List.tails_cons, List.countP_cons, List.getElem?_cons_zero,
    List.getElem?_cons_succ, Option.some.injEq, decide_eq_true_eq]

theorem length_splitFrom (offset : Nat) (read cs : List Char) :
    (Line.splitFrom offset read cs).length = lineEnds cs + 1 := by
  fun_induction Line.splitFrom offset read cs with
  | case1 => rfl
  | case2 offset read cs ih =>
    rw [List.length_cons, ih, lineEnds_cons, lineEnds_cons]
    simp
  | case3 offset read c cs hno hc ih =>
    have hend : c = '\n' ∨ c = '\r' ∧ cs[0]? ≠ some '\n' := by
      rcases hc with rfl | rfl
      · refine .inr ⟨rfl, fun hnewline => ?_⟩
        obtain ⟨rest, rfl⟩ := List.head?_eq_some_iff.1 (List.head?_eq_getElem? ▸ hnewline)
        exact hno rest rfl rfl
      · exact .inl rfl
    rw [List.length_cons, ih, lineEnds_cons, if_pos hend]
  | case4 offset read c cs hno hc ih =>
    have hend : ¬ (c = '\n' ∨ c = '\r' ∧ cs[0]? ≠ some '\n') := by
      tauto
    rw [ih, lineEnds_cons, if_neg hend]

/-- A place behind some characters of a text is one where a character starts, or the end. -/
theorem isValid_offset {s : String} {l : Line} (h : l ∈ lines s.toList) :
    String.Pos.Raw.IsValid s ⟨l.offset⟩ := by
  obtain ⟨i, hi⟩ := List.getElem?_of_mem h
  obtain ⟨before, after, hs, hoffset, -⟩ := exists_of_lines hi
  refine String.Pos.Raw.isValid_iff_exists_append.2
    ⟨String.ofList before, String.ofList (l.chars ++ after), ?_, ?_⟩
  · rw [← String.ofList_append, ← List.append_assoc, ← hs, String.ofList_toList]
  · rw [String.rawEndPos, ← String.size_toByteArray, String.toByteArray_ofList, size_utf8Encode,
      hoffset]

/-- The lines of a text divide its bytes, and no other lines do. Each starts where a character
starts, or at the end, and there is one more than there are line ends. -/
theorem partition_iff_lines (s : String) :
    (∀ ls, Partition s.toUTF8 0 ls ↔ ls = lines s.toList)
      ∧ (∀ l ∈ lines s.toList, String.Pos.Raw.IsValid s ⟨l.offset⟩)
      ∧ (lines s.toList).length = lineEnds s.toList + 1 := by
  refine ⟨fun ls => ?_, fun l hl => isValid_offset hl, length_splitFrom 0 [] s.toList⟩
  have hbytes : s.toUTF8 = ByteArray.empty ++ s.toList.utf8Encode := by
    rw [ByteArray.empty_append, String.utf8Encode_toList]
    rfl
  rw [hbytes]
  constructor
  · intro h
    exact h.eq_splitFrom rfl
  · rintro rfl
    exact partition_splitFrom [] rfl (by simp)

end HexPatterns.Text
