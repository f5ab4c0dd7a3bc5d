import Mathlib
import HexPatterns.Proofs.Library

/-!
# The file name of a path and its extension

Behind the last segment that counts, a path may have separators and `.`, which do not
(`EndsWith`). Giving it an extension cuts off what stands behind the stem of its file name, so that
the new file name is its last segment (`EndsWith.withExtension`). One name is left out: of `..x`, at
the very end of the text, the cut leaves `..`, which is no file name and gets no extension.

Two paths that have the same segments up to their file names are the same just if the names are
(`EndsWith.same_iff`).
-/

namespace HexPatterns.Path

section Segments

/-- The last segment of a path that stands for a component, with those in front of it and those
behind it, which count for nothing. -/
structure EndsWith (p : Path) (front : List (List Char)) (last : List Char)
    (tail : List (List Char)) : Prop where
  segments : p.segments = front ++ last :: tail
  counts : last ≠ [] ∧ last ≠ ['.']
  idle : ∀ x ∈ tail, x = [] ∨ x = ['.']

/-- The component that a segment stands for behind others. -/
def componentOf (x : List Char) : Component :=
  if x = ['.', '.'] then .parent else .name (String.ofList x)

theorem componentOf_inj {x y : List Char} : componentOf x = componentOf y ↔ x = y := by
  unfold componentOf
  split_ifs with hx hy hy
  · simp [hx, hy]
  · simp [hx, Ne.symm hy]
  · simp [hy, hx]
  · simp [String.ext_iff]

variable {start : Nat} {x : List Char} {a front : List (List Char)}

theorem piecesFrom_of_idle (h : x = [] ∨ x = ['.']) : piecesFrom start [x] = [] := by
  rcases h with rfl | rfl <;> rfl

theorem piecesFrom_of_counts (h : x ≠ [] ∧ x ≠ ['.']) :
    piecesFrom start [x] = [⟨componentOf x, start + x.length⟩] := by
  unfold componentOf
  split_ifs with hparent
  · rw [hparent]
    rfl
  · exact piecesFrom_singleton start h.1 h.2 hparent

theorem piecesFrom_of_all_idle (h : ∀ x ∈ a, x = [] ∨ x = ['.']) : piecesFrom start a = [] := by
  induction a generalizing start with
  | nil => rfl
  | cons x a ih =>
    obtain ⟨hx, ha⟩ := List.forall_mem_cons.1 h
    rw [← List.singleton_append, piecesFrom_append (by simp), piecesFrom_of_idle hx, ih ha]
    rfl

/-- The pieces of a path are those of the segments in front and that of the last one that counts. -/
theorem exists_pieces (front : List (List Char)) : ∃ before : List Piece,
    ∀ {p : Path} {last : List Char} {tail : List (List Char)}, p.EndsWith front last tail →
      p.pieces = before ++ [⟨componentOf last, (joined (front ++ [last])).length⟩] := by
  have hpieces : ∀ {p : Path} {last : List Char} {tail : List (List Char)},
      p.EndsWith front last tail → p.pieces = piecesOf (front ++ [last]) := by
    intro p last tail h
    have hne : front ++ [last] ≠ [[]] := by
      intro hempty
      rcases front with _ | ⟨x, front⟩
      · exact h.counts.1 (by simpa using hempty)
      · simp at hempty
    rw [pieces_eq, h.segments, List.append_cons, piecesOf_append (by simp) hne,
      piecesFrom_of_all_idle h.idle, List.append_nil]
  by_cases hfront : front = []
  · subst hfront
    refine ⟨[], fun h => ?_⟩
    rw [hpieces h, List.nil_append, piecesOf_plain h.counts.1 h.counts.2,
      piecesFrom_of_counts h.counts, joined_singleton, Nat.zero_add, List.nil_append]
  by_cases hroot : front = [[]]
  · subst hroot
    refine ⟨[⟨.root, 1⟩], fun h => ?_⟩
    rw [hpieces h, List.singleton_append, piecesOf_root (by simp), piecesFrom_of_counts h.counts,
      joined_cons (by simp), joined_singleton, List.nil_append, List.length_cons, Nat.add_comm]
    rfl
  · refine ⟨piecesOf front, fun h => ?_⟩
    rw [hpieces h, piecesOf_append hfront hroot, piecesFrom_of_counts h.counts,
      joined_append hfront (by simp), joined_singleton, List.length_append, List.length_cons]
    congr 3
    omega

variable {p q : Path} {last other : List Char} {tail tail' : List (List Char)}

namespace EndsWith

theorem getLast?_pieces (h : p.EndsWith front last tail) :
    p.pieces.getLast? = some ⟨componentOf last, (joined (front ++ [last])).length⟩ := by
  obtain ⟨before, hbefore⟩ := exists_pieces front
  rw [hbefore h, List.getLast?_concat]

theorem same_iff (hp : p.EndsWith front last tail) (hq : q.EndsWith front other tail') :
    p.same q = true ↔ last = other := by
  obtain ⟨before, hbefore⟩ := exists_pieces front
  simp [same, components, hbefore hp, hbefore hq, componentOf_inj]

theorem fileName?_eq (h : p.EndsWith front last tail) :
    p.fileName? = if last = ['.', '.'] then none else some (String.ofList last) := by
  rw [fileName?, components, List.getLast?_map, h.getLast?_pieces, Option.map_some, componentOf]
  split_ifs <;> rfl

end EndsWith

theorem exists_last_or_idle (a : List (List Char)) : (∀ x ∈ a, x = [] ∨ x = ['.'])
    ∨ ∃ front last tail, a = front ++ last :: tail ∧ (last ≠ [] ∧ last ≠ ['.'])
      ∧ ∀ x ∈ tail, x = [] ∨ x = ['.'] := by
  induction a using List.reverseRecOn with
  | nil => exact .inl (by simp)
  | append_singleton a x ih =>
    by_cases hx : x = [] ∨ x = ['.']
    · rcases ih with hidle | ⟨front, last, tail, rfl, hlast, htail⟩
      · exact .inl (List.forall_mem_append.2 ⟨hidle, by simpa using hx⟩)
      · refine .inr ⟨front, last, tail ++ [x], by simp, hlast, ?_⟩
        exact List.forall_mem_append.2 ⟨htail, by simpa using hx⟩
    · exact .inr ⟨a, x, [], rfl, not_or.1 hx, by simp⟩

theorem fileName?_of_all_idle (h : ∀ x ∈ p.segments, x = [] ∨ x = ['.']) : p.fileName? = none := by
  rw [fileName?, components, pieces_eq]
  rcases hsegments : p.segments with _ | ⟨x, rest⟩
  · exact absurd hsegments p.segments_ne_nil
  · rw [hsegments] at h
    obtain ⟨hx, hrest⟩ := List.forall_mem_cons.1 h
    rcases hx with rfl | rfl
    · rcases rest with _ | ⟨y, rest⟩
      · rfl
      · rw [piecesOf_root (by simp), piecesFrom_of_all_idle hrest]
        rfl
    · rw [piecesOf, piecesFrom_of_all_idle hrest]
      rfl

/-- The file name is the last segment that counts. -/
theorem exists_endsWith {name : String} (h : p.fileName? = some name) :
    ∃ front tail, p.EndsWith front name.toList tail ∧ name.toList ≠ ['.', '.'] := by
  rcases exists_last_or_idle p.segments with hidle | ⟨front, last, tail, hsegments, hlast, htail⟩
  · rw [fileName?_of_all_idle hidle] at h
    cases h
  · have hends : p.EndsWith front last tail := ⟨hsegments, hlast, htail⟩
    rw [hends.fileName?_eq] at h
    split_ifs at h with hparent
    obtain rfl : String.ofList last = name := Option.some.inj h
    exact ⟨front, tail, by simpa using hends, by simpa using hparent⟩

end Segments

section Names

variable {stem ext : List Char}

/-- Where the last dot of a name stands, there it is split, but not at its first character. -/
theorem splitName_append (hext : '.' ∉ ext) : splitName (stem ++ '.' :: ext)
    = if stem = [] then ('.' :: ext, none) else (stem, some ext) := by
  have hbehind : ∀ c ∈ ext.reverse, decide (c ≠ '.') = true := by
    intro c hc
    rw [decide_eq_true_eq]
    rintro rfl
    exact hext (List.mem_reverse.1 hc)
  have hreverse : (stem ++ '.' :: ext).reverse = ext.reverse ++ '.' :: stem.reverse := by simp
  have hdrop : (stem ++ '.' :: ext).reverse.dropWhile (· ≠ '.') = '.' :: stem.reverse := by
    rw [hreverse, List.dropWhile_append_of_pos hbehind]
    rfl
  have htake : (stem ++ '.' :: ext).reverse.takeWhile (· ≠ '.') = ext.reverse := by
    rw [hreverse, List.takeWhile_append_of_pos hbehind]
    exact List.append_nil _
  simp only [splitName, hdrop, htake, List.drop_succ_cons, List.drop_zero, List.reverse_reverse,
    List.isEmpty_iff]
  split_ifs with h
  · rw [h, List.nil_append]
  · rfl

/-- A name is its stem, a dot and its extension, or it has no extension. -/
theorem splitName_cases (name : List Char) : splitName name = (name, none)
    ∨ ∃ stem ext, splitName name = (stem, some ext) ∧ name = stem ++ '.' :: ext ∧ stem ≠ []
      ∧ '.' ∉ ext := by
  by_cases hdot : '.' ∈ name
  · obtain ⟨as, bs, hname, has⟩ := List.eq_append_cons_of_mem (List.mem_reverse.2 hdot)
    obtain rfl : name = bs.reverse ++ '.' :: as.reverse := by
      have := congrArg List.reverse hname
      simpa using this
    have hext : '.' ∉ as.reverse := has ∘ List.mem_reverse.1
    rw [splitName_append hext]
    split_ifs with hstem
    · exact .inl (by rw [hstem, List.nil_append])
    · exact .inr ⟨_, _, rfl, rfl, hstem, hext⟩
  · refine .inl ?_
    have hnone : name.reverse.dropWhile (· ≠ '.') = [] := by
      rw [List.dropWhile_eq_nil_iff]
      intro c hc
      rw [decide_eq_true_eq]
      rintro rfl
      exact hdot (List.mem_reverse.1 hc)
    simp only [splitName, hnone]
    rfl

theorem EndsWith.extension?_eq {p : Path} {front tail : List (List Char)} {last : List Char}
    (h : p.EndsWith front last tail) (hname : last ≠ ['.', '.']) :
    p.extension? = (splitName last).2.map String.ofList := by
  rw [extension?, h.fileName?_eq, if_neg hname, Option.bind_some, String.toList_ofList]

end Names

section Cutting

variable {p : Path} {front tail : List (List Char)} {last : List Char}

theorem joined_concat (front : List (List Char)) (x : List Char) :
    joined (front ++ [x]) = joined (front ++ [[]]) ++ x := by
  rcases front with _ | ⟨y, front⟩
  · rw [List.nil_append, List.nil_append, joined_singleton, joined_singleton, List.nil_append]
  · rw [joined_append (by simp) (by simp), joined_append (by simp) (by simp), joined_singleton,
      joined_singleton]
    simp

/-- Segments behind others, with their separators. -/
def trailing (tail : List (List Char)) : List Char :=
  tail.flatMap ('/' :: ·)

theorem joined_append_trailing (front : List (List Char)) (x : List Char)
    (tail : List (List Char)) :
    joined (front ++ x :: tail) = joined (front ++ [[]]) ++ x ++ trailing tail := by
  induction tail generalizing front x with
  | nil => rw [joined_concat, trailing, List.flatMap_nil, List.append_nil]
  | cons y tail ih =>
    rw [List.append_cons, ih, joined_append (by simp) (by simp), joined_singleton, joined_concat]
    simp [trailing]

/-- A text that is cut short within segments that count for nothing ends with such segments. -/
theorem exists_trailing_of_prefix {text : List Char} (h : text <+: trailing tail)
    (hidle : ∀ x ∈ tail, x = [] ∨ x = ['.']) :
    ∃ tail', text = trailing tail' ∧ ∀ x ∈ tail', x = [] ∨ x = ['.'] := by
  induction tail generalizing text with
  | nil => exact ⟨[], List.prefix_nil.1 h, by simp⟩
  | cons x tail ih =>
    obtain ⟨hx, htail⟩ := List.forall_mem_cons.1 hidle
    rw [trailing, List.flatMap_cons, ← trailing, List.cons_append, List.prefix_cons_iff] at h
    obtain rfl | ⟨text, rfl, htext⟩ := h
    · exact ⟨[], rfl, by simp⟩
    rcases List.prefix_or_prefix_of_prefix htext (List.prefix_append x _) with hshort | ⟨more, rfl⟩
    · refine ⟨[text], by simp [trailing], ?_⟩
      rcases hx with rfl | rfl
      · simpa using .inl (List.prefix_nil.1 hshort)
      · simpa [List.prefix_cons_iff] using hshort
    · obtain ⟨tail', rfl, htail'⟩ := ih ((List.prefix_append_right_inj x).1 htext) htail
      exact ⟨x :: tail', by simp [trailing], List.forall_mem_cons.2 ⟨hx, htail'⟩⟩

theorem EndsWith.toList_text (h : p.EndsWith front last tail) :
    p.text.toList = joined (front ++ [[]]) ++ last ++ trailing tail := by
  rw [← joined_segments, h.segments, joined_append_trailing]

theorem EndsWith.separator_not_mem (h : p.EndsWith front last tail) : '/' ∉ last := by
  refine Path.separator_not_mem (p := p) ?_
  rw [h.segments]
  simp

/-- A path that is the text of the same segments in front, and of others behind them. -/
theorem EndsWith.of_text {q : Path} {last' : List Char} {tail' : List (List Char)}
    (h : p.EndsWith front last tail)
    (htext : q.text.toList = joined (front ++ [[]]) ++ last' ++ trailing tail')
    (hcounts : last' ≠ [] ∧ last' ≠ ['.']) (hsep : '/' ∉ last')
    (hidle : ∀ x ∈ tail', x = [] ∨ x = ['.']) : q.EndsWith front last' tail' := by
  refine ⟨?_, hcounts, hidle⟩
  rw [← joined_append_trailing] at htext
  refine segments_of_joined htext (by simp) ?_
  intro x hx
  rw [List.mem_append, List.mem_cons] at hx
  rcases hx with hx | rfl | hx
  · refine Path.separator_not_mem (p := p) ?_
    rw [h.segments]
    exact List.mem_append_left _ hx
  · exact hsep
  · rcases hidle x hx with rfl | rfl <;> decide

theorem stem_isPrefix (name : List Char) : (splitName name).1 <+: name := by
  rcases splitName_cases name with h | ⟨stem, ext, h, hname, -⟩
  · rw [h]
  · rw [h]
    exact ⟨'.' :: ext, hname.symm⟩

theorem stem_ne_nil {name : List Char} (h : name ≠ []) : (splitName name).1 ≠ [] := by
  rcases splitName_cases name with hsplit | ⟨stem, ext, hsplit, -, hstem, -⟩
  · rwa [hsplit]
  · rwa [hsplit]

theorem counts_append {stem : List Char} (h : stem ≠ []) (ext : List Char) :
    stem ++ '.' :: ext ≠ [] ∧ stem ++ '.' :: ext ≠ ['.'] := by
  rcases stem with _ | ⟨c, stem⟩
  · exact absurd rfl h
  · simp

/-- An extension is put behind the stem of the file name, and what stood there is cut off. -/
theorem EndsWith.setExtension (h : p.EndsWith front last tail) (hname : last ≠ ['.', '.'])
    {extension : String} (hsep : '/' ∉ extension.toList) :
    (p.setExtension extension).EndsWith front
      ((splitName last).1 ++ '.' :: extension.toList) [] := by
  obtain ⟨more, hmore⟩ := stem_isPrefix last
  have hcut : (p.take ((joined (front ++ [last])).length - last.length
      + (splitName last).1.length)).text.toList
        = joined (front ++ [[]]) ++ (splitName last).1 := by
    have hlength : (joined (front ++ [last])).length - last.length + (splitName last).1.length
        = (joined (front ++ [[]]) ++ (splitName last).1).length := by
      rw [joined_concat, List.length_append, List.length_append, Nat.add_sub_cancel]
    have htext : p.text.toList
        = joined (front ++ [[]]) ++ (splitName last).1 ++ (more ++ trailing tail) := by
      rw [h.toList_text]
      nth_rewrite 1 [← hmore]
      simp only [List.append_assoc]
    rw [take, String.toList_ofList, hlength, htext, List.take_left]
  refine h.of_text ?_ (counts_append (stem_ne_nil h.counts.1) _) ?_ (by simp)
  · rw [Path.setExtension, h.getLast?_pieces, componentOf, if_neg hname]
    simp only [String.toList_ofList, String.length_ofList, String.toList_append, hcut]
    simp [trailing]
  · have hstem : '/' ∉ (splitName last).1 := fun hmem =>
      h.separator_not_mem ((stem_isPrefix last).subset hmem)
    simp [hstem, hsep]

theorem trailing_eq_nil : trailing tail = [] ↔ tail = [] := by
  cases tail <;> simp [trailing]

/-- What is left of a path when as many characters are cut off as its extension has. -/
theorem EndsWith.cut {stem ext : List Char} (h : p.EndsWith front (stem ++ '.' :: ext) tail)
    (hstem : stem ≠ []) : ∃ tail', (p.take (p.text.length - ext.length)).EndsWith front
      (stem ++ '.' :: ext.take (trailing tail).length) tail' ∧ (tail = [] → tail' = []) := by
  obtain ⟨tail', htail', hidle⟩ := exists_trailing_of_prefix
    (List.take_prefix ((trailing tail).length - ext.length) (trailing tail)) h.idle
  have hcut : (p.take (p.text.length - ext.length)).text.toList
      = joined (front ++ [[]]) ++ (stem ++ '.' :: ext.take (trailing tail).length)
        ++ trailing tail' := by
    have htext : p.text.toList
        = (joined (front ++ [[]]) ++ stem ++ ['.']) ++ (ext ++ trailing tail) := by
      simp [h.toList_text]
    have hlength : p.text.length - ext.length
        = (joined (front ++ [[]]) ++ stem ++ ['.']).length + (trailing tail).length := by
      rw [← String.length_toList, htext]
      simp only [List.length_append]
      omega
    rw [take, String.toList_ofList, hlength, htext, List.take_length_add_append, List.take_append,
      htail']
    simp
  refine ⟨tail', h.of_text hcut (counts_append hstem _) ?_ hidle, ?_⟩
  · have hsep := h.separator_not_mem
    simp only [List.mem_append, List.mem_cons, not_or] at hsep ⊢
    exact ⟨hsep.1, hsep.2.1, fun hmem => hsep.2.2 (List.mem_of_mem_take hmem)⟩
  · intro htail
    rw [← trailing_eq_nil, ← htail', trailing_eq_nil.2 htail, List.take_nil]

/-- The path with another extension has the same segments up to its file name, which is the stem
with the extension. Only a name that starts with two dots and has no other, and ends the text, loses
what stands behind the dots. -/
theorem EndsWith.withExtension (h : p.EndsWith front last tail) (hname : last ≠ ['.', '.'])
    {extension : String} (hsep : '/' ∉ extension.toList) :
    (p.withExtension extension).EndsWith front
      (if (splitName last).1 = ['.'] ∧ tail = [] then ['.', '.']
        else (splitName last).1 ++ '.' :: extension.toList) [] := by
  have hextension := h.extension?_eq hname
  rcases splitName_cases last with hsplit | ⟨stem, ext, hsplit, rfl, hstem, hdot⟩
  · have hwhole : p.withExtension extension = p.setExtension extension := by
      rw [hsplit] at hextension
      have htake : p.take p.text.length = p := by
        simp [take, ← String.length_toList]
      rw [Path.withExtension, hextension]
      simp [htake]
    have hcounts := h.counts.2
    rw [hwhole, if_neg (by simp [hsplit, hcounts])]
    exact h.setExtension hname hsep
  · obtain ⟨tail', hcut, htail'⟩ := h.cut hstem
    have hwith : p.withExtension extension
        = (p.take (p.text.length - ext.length)).setExtension extension := by
      rw [Path.withExtension, hextension, hsplit]
      simp
    rw [hwith, hsplit]
    split_ifs with hdots
    · obtain ⟨rfl, rfl⟩ := hdots
      obtain rfl := htail' rfl
      have hparent : (p.take (p.text.length - ext.length)).EndsWith front ['.', '.'] [] := hcut
      have hstays : (p.take (p.text.length - ext.length)).setExtension extension
          = p.take (p.text.length - ext.length) := by
        rw [Path.setExtension, hparent.getLast?_pieces, componentOf, if_pos rfl]
      rwa [hstays]
    · have hname' : stem ++ '.' :: ext.take (trailing tail).length ≠ ['.', '.'] := by
        intro hparent
        obtain ⟨rfl, hext⟩ : stem = ['.'] ∧ ext.take (trailing tail).length = [] := by
          rcases stem with _ | ⟨c, _ | ⟨d, stem⟩⟩ <;> simp_all
        rcases List.take_eq_nil_iff.1 hext with hlength | rfl
        · exact hdots ⟨rfl, trailing_eq_nil.1 (List.length_eq_zero_iff.1 hlength)⟩
        · exact hname rfl
      have hdot' : '.' ∉ ext.take (trailing tail).length := fun hmem =>
        hdot (List.mem_of_mem_take hmem)
      have hset := hcut.setExtension hname' hsep
      rwa [splitName_append hdot', if_neg hstem] at hset

end Cutting

end HexPatterns.Path
