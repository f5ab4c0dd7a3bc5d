import Mathlib
import HexPatterns.Proofs.Contents
import HexPatterns.Proofs.Grammar
import HexPatterns.Proofs.Growth

/-!
# Bodies of definitions

A definition gives a name to the tokens of its body (`Token.Defines`), which is read again for them.
Here is what can go wrong then.

In the content of a definition as many brackets are closed as opened, and up to no place in it more
are closed than opened. The body is what is left of the content when its front is cut off: the name,
with the brackets that it may hold, and the blanks behind it. Now no end of a balanced text opens
more than it closes (`Balanced.count_le_of_suffix`). So wherever a body opens a definition, the `>`
that closes it follows, whichever brackets the reader has passed over before, and all that can be
wrong with a body is a marker with nothing behind it. A definition found in a body has a balanced
content again, which carries the argument from each body to the bodies in it.
-/

namespace HexPatterns

open Text

namespace Definition

theorem exists_quoted {rest : List Char} (h : '"' ∈ rest) :
    ∃ after, rest = rest.takeWhile (· ≠ '"') ++ '"' :: after
      ∧ (rest.dropWhile (· ≠ '"')).drop 1 = after := by
  rcases hdrop : rest.dropWhile (· ≠ '"') with _ | ⟨c, after⟩
  · simpa using List.dropWhile_eq_nil_iff.1 hdrop '"' h
  · have hc := List.head?_dropWhile_not (· ≠ '"') rest
    rw [hdrop] at hc
    obtain rfl : c = '"' := by simpa using hc
    refine ⟨after, ?_, rfl⟩
    rw [← hdrop, List.takeWhile_append_dropWhile]

/-- A content that can be taken apart is a quoted name, blanks, and a body that starts with none. -/
theorem exists_of_ofContent {content : List Char} {d : Definition} (h : ofContent content = .ok d) :
    ∃ gap, content = '"' :: (d.name.toList ++ '"' :: (gap ++ d.body))
      ∧ allBlank gap = true ∧ gap.count '\n' = d.skipped := by
  unfold ofContent at h
  split at h
  · cases h
  rename_i hcount
  split at h
  · rename_i rest
    cases h
    rw [List.count_cons_self] at hcount
    have hmem : '"' ∈ rest := List.count_pos_iff.1 (by omega)
    obtain ⟨after, hrest, hafter⟩ := exists_quoted hmem
    refine ⟨after.takeWhile isBlank, ?_, List.all_takeWhile, by rw [hafter]⟩
    rw [hafter, String.toList_ofList, trimStart, List.takeWhile_append_dropWhile, ← hrest]
  · cases h

theorem body_suffix {content : List Char} {d : Definition} (h : ofContent content = .ok d) :
    d.body <:+ content := by
  obtain ⟨gap, hcontent, -⟩ := exists_of_ofContent h
  rw [hcontent]
  exact ⟨'"' :: (d.name.toList ++ '"' :: gap), by simp⟩

theorem ofContent_quoted {name gap body : List Char} (hname : '"' ∉ name)
    (hgap : allBlank gap = true) (hbody : ∀ c ∈ body.head?, isBlank c = false) :
    ofContent ('"' :: (name ++ '"' :: (gap ++ body)))
      = .ok ⟨String.ofList name, body, gap.count '\n'⟩ := by
  have hcount : ¬ ('"' :: (name ++ '"' :: (gap ++ body))).count '"' < 2 := by
    simp only [List.count_cons_self, List.count_append]
    omega
  have hplain : ∀ c ∈ name, decide (c ≠ '"') = true := fun c hc =>
    decide_eq_true fun h => hname (h ▸ hc)
  have hstart : body.takeWhile isBlank = [] ∧ body.dropWhile isBlank = body := by
    rcases body with _ | ⟨c, body⟩
    · exact ⟨rfl, rfl⟩
    · simp [hbody c rfl]
  have hgap : ∀ c ∈ gap, isBlank c = true := List.all_eq_true.1 hgap
  rw [ofContent, if_neg hcount]
  simp only [List.dropWhile_append_of_pos hplain, List.takeWhile_append_of_pos hplain, trimStart]
  simp [List.dropWhile_append_of_pos hgap, List.takeWhile_append_of_pos hgap, hstart]

end Definition

namespace Token

/-! ## Names and bodies -/

/-- The token is a definition that gives the name to the body. -/
def Defines (t : Token) (d : Definition) (name : String) (body : List Token) : Prop :=
  t.kind = .definition ∧ Definition.ofContent t.content.toList = .ok d ∧ d.name = name
    ∧ scan t.origin (t.position.line + d.skipped) d.body = .ok body

/-- A name that the definition pass brings in was given by one of the definitions. -/
theorem exists_defines_of_registerDefinitions {catalog : Catalog} {name : String}
    {body : List Token} : ∀ {ts : List Token} {r : Registry}, r.lookup name = none →
      (registerDefinitions catalog r ts).1.lookup name = some body →
        ∃ t ∈ ts, ∃ d, t.Defines d name body
  | [], r, hnew, h => by
    cases hnew.symm.trans h
  | t :: ts, r, hnew, h => by
    unfold registerDefinitions at h
    split at h
    · rename_i hkind
      split at h
      · rename_i r' hdef
        obtain ⟨d, own, hd, hown, hregister⟩ := define_eq_ok_iff.1 hdef
        have hlookup := Registry.lookup_of_register hregister name
        by_cases hname : d.name = name
        · rw [if_pos hname] at hlookup
          cases (Registry.below_registerDefinitions catalog ts r' name own hlookup).symm.trans h
          exact ⟨t, List.mem_cons_self, d, hkind, hd, hname, hown⟩
        · rw [if_neg hname, hnew] at hlookup
          obtain ⟨u, hu, hdefines⟩ := exists_defines_of_registerDefinitions hlookup h
          exact ⟨u, List.mem_cons_of_mem t hu, hdefines⟩
      · cases hnew.symm.trans h
    · obtain ⟨u, hu, hdefines⟩ := exists_defines_of_registerDefinitions hnew h
      exact ⟨u, List.mem_cons_of_mem t hu, hdefines⟩

theorem registerDefinitions_of_defines (catalog : Catalog) {r : Registry} {t : Token}
    {d : Definition} {name : String} {body : List Token} (h : t.Defines d name body)
    (hnew : r.lookup name = none) :
    ∃ r', registerDefinitions catalog r [t] = (r', .ok [])
      ∧ ∀ other, r'.lookup other = if name = other then some body else r.lookup other := by
  obtain ⟨hkind, hd, rfl, hbody⟩ := h
  obtain ⟨r', hregister, hlookup⟩ := Registry.register_of_lookup body hnew
  have hdef : define catalog r t = .ok r' :=
    define_eq_ok_iff.2 ⟨d, body, hd, hbody, hregister⟩
  refine ⟨r', ?_, hlookup⟩
  rw [registerDefinitions, if_pos hkind, hdef]
  rfl

/-! ## Brackets -/

/-- As many brackets are closed as opened, and up to no place more are closed than opened. -/
def Balanced (cs : List Char) : Prop :=
  cs.count '<' = cs.count '>' ∧ ∀ p, p <+: cs → p.count '>' ≤ p.count '<'

instance (cs : List Char) : Decidable (Balanced cs) :=
  decidable_of_iff
    (cs.count '<' = cs.count '>' ∧ ∀ p ∈ cs.inits, p.count '>' ≤ p.count '<')
    (by simp only [Balanced, List.mem_inits])

theorem neverCloses_iff {cs : List Char} :
    NeverCloses cs ↔ ∀ p, p <+: cs → p.count '>' ≤ p.count '<' := by
  constructor
  · intro h p
    induction p using List.reverseRecOn with
    | nil => simp
    | append_singleton p c ih =>
      intro hp
      have hle := ih ((List.prefix_append p [c]).trans hp)
      by_cases hc : c = '>'
      · subst hc
        have hne : p.count '<' ≠ p.count '>' := fun heq => h p hp (settled_concat.2 heq)
        simp only [List.count_append, List.count_singleton_self]
        have hzero : List.count '<' ['>'] = 0 := by decide
        omega
      · have hzero : List.count '>' [c] = 0 := by simp [hc]
        simp only [List.count_append]
        omega
  · intro h p hp hsettled
    have hle := h _ hp
    have heq := settled_concat.1 hsettled
    simp only [List.count_append, List.count_singleton_self] at hle
    have hzero : List.count '<' ['>'] = 0 := by decide
    omega

theorem closes_iff_balanced {cs : List Char} : Closes cs ↔ Balanced cs := by
  rw [Closes, settled_concat, neverCloses_iff, Balanced]

/-- Behind any place of a balanced text, what was opened before is closed. -/
theorem Balanced.count_le_of_suffix {cs ds : List Char} (h : Balanced cs) (hds : ds <:+ cs) :
    ds.count '<' ≤ ds.count '>' := by
  obtain ⟨front, rfl⟩ := hds
  have htotal := h.1
  have hfront := h.2 front (List.prefix_append _ _)
  simp only [List.count_append] at htotal
  omega

/-- The brackets of a text, in order. -/
def brackets (cs : List Char) : List Char :=
  cs.filter fun c => c = '<' ∨ c = '>'

theorem brackets_append (a b : List Char) : brackets (a ++ b) = brackets a ++ brackets b :=
  List.filter_append ..

theorem count_brackets {c : Char} (hc : c = '<' ∨ c = '>') (cs : List Char) :
    (brackets cs).count c = cs.count c := by
  rw [brackets, List.count_filter]
  exact decide_eq_true hc

/-- A text is balanced or not by its brackets alone. -/
theorem balanced_brackets {cs : List Char} : Balanced (brackets cs) ↔ Balanced cs := by
  unfold Balanced
  rw [count_brackets (.inl rfl), count_brackets (.inr rfl)]
  refine and_congr_right fun _ => ⟨fun h p hp => ?_, fun h p hp => ?_⟩
  · have hle := h (brackets p) (hp.filter _)
    rwa [count_brackets (.inl rfl), count_brackets (.inr rfl)] at hle
  · obtain ⟨q, hq, rfl⟩ := List.prefix_filter_iff.1 hp
    have hle := h q hq
    rwa [← brackets, count_brackets (.inl rfl), count_brackets (.inr rfl)]

theorem brackets_of_allBlank {l : List Char} (h : allBlank l = true) : brackets l = [] := by
  refine List.filter_eq_nil_iff.2 fun c hc hbracket => ?_
  have hblank := List.all_eq_true.1 h c hc
  rcases of_decide_eq_true hbracket with rfl | rfl <;> cases hblank

theorem prefix_emptiedIfBlank (l : List Char) : emptiedIfBlank l <+: l := by
  unfold emptiedIfBlank
  split
  · exact List.nil_prefix
  · exact List.prefix_rfl

theorem brackets_emptiedIfBlank (l : List Char) : brackets (emptiedIfBlank l) = brackets l := by
  unfold emptiedIfBlank
  split
  · rename_i h
    rw [brackets_of_allBlank h]
    rfl
  · rfl

theorem brackets_intercalate : ∀ ls : List (List Char),
    brackets (['\n'].intercalate ls) = brackets ls.flatten
  | [] => rfl
  | [l] => by simp
  | l :: next :: ls => by
    rw [List.intercalate_cons_cons, brackets_append, brackets_append, brackets_intercalate,
      List.flatten_cons, brackets_append]
    simp [brackets]

theorem brackets_flatten_emptied (ls : List (List Char)) :
    brackets (ls.map emptiedIfBlank).flatten = brackets ls.flatten := by
  induction ls with
  | nil => rfl
  | cons l ls ih =>
    rw [List.map_cons, List.flatten_cons, List.flatten_cons, brackets_append, brackets_append, ih,
      brackets_emptiedIfBlank]

theorem Entry.brackets_emptied (before : List (List Char)) :
    brackets (emptied before).flatten = brackets before.flatten := by
  cases before with
  | nil => rfl
  | cons first more =>
    rw [emptied, List.flatten_cons, List.flatten_cons, brackets_append, brackets_append,
      brackets_flatten_emptied]

variable {origin : String} {n : Nat} {text : List Char} {ts : List Token} {t : Token}

theorem balanced_of_scan (h : scan origin n text = .ok ts) (ht : t ∈ ts)
    (hkind : t.kind = .definition) : Balanced t.content.toList := by
  rw [scan_eq_scanLines] at h
  obtain ⟨_, _, before, last, dropped, _, -, hcloses, rfl⟩ :=
    exists_definition_of_scanLines h ht hkind
  rw [closes_iff_balanced, ← balanced_brackets, brackets_append] at hcloses
  rw [Entry.token, String.toList_ofList, ← balanced_brackets, brackets_intercalate,
    List.flatten_append, brackets_append, Entry.brackets_emptied, List.flatten_singleton]
  exact hcloses

/-! ## Reading a body -/

theorem map_dropComment_lineTexts (h : Uncommented text) :
    (lineTexts text).map dropComment = lineTexts text := by
  conv_rhs => rw [← List.map_id (lineTexts text)]
  refine List.map_congr_left fun l hl => ?_
  have hl : Uncommented l := h.infix (isInfix_of_mem_lineTexts hl)
  exact hl.dropComment_eq

theorem plain_body_of_scan (h : scan origin n text = .ok ts) (ht : t ∈ ts) {d : Definition}
    (hd : Definition.ofContent t.content.toList = .ok d) : '\r' ∉ d.body ∧ Uncommented d.body := by
  have hclean := clean_of_scan h t ht
  have hsuffix := Definition.body_suffix hd
  exact ⟨fun hmem => hclean.no_return (hsuffix.mem hmem), hclean.uncommented.suffix hsuffix⟩

/-- A text no end of which opens more than it closes leaves no definition open. -/
theorem exists_marker_of_scan_eq_error (hreturn : '\r' ∉ text) (hplain : Uncommented text)
    (hends : ∀ cs, cs <:+ text → cs.count '<' ≤ cs.count '>') {e : LexError}
    (h : scan origin n text = .error e) : ∃ (m : Marker) (p : Position),
      e = .emptyDirective m.char p := by
  rw [scan_eq_scanLines, map_dropComment_lineTexts hplain] at h
  rcases exists_of_scanLines_eq_error h with ⟨_, _, _, m, -, rfl⟩ | ⟨front, u, hlines, -⟩
  · exact ⟨m, _, rfl⟩
  obtain ⟨first, more, hinside, hopened⟩ := u.exists_lines
  rw [hopened] at hlines
  have htext := eq_of_lineTexts hreturn hlines
  have hle := hends (['\n'].intercalate (('<' :: first) :: more))
    ⟨_, htext.symm⟩
  have hnever := neverCloses_iff.1 u.neverCloses _ List.prefix_rfl
  rw [hinside, List.flatten_cons] at hnever
  rw [← count_brackets (.inl rfl), ← count_brackets (.inr rfl), brackets_intercalate,
    count_brackets (.inl rfl), count_brackets (.inr rfl), List.flatten_cons, List.cons_append,
    List.count_cons_self, List.count_cons_of_ne (by decide)] at hle
  omega

/-- The tokens that reading brings up: some first ones, and then those of each body. -/
inductive Unfolds (ts : List Token) : Token → Prop
  | given {t : Token} : t ∈ ts → Unfolds ts t
  | body {t u : Token} {d : Definition} {origin : String} {n : Nat} {us : List Token} :
      Unfolds ts t → t.kind = .definition → Definition.ofContent t.content.toList = .ok d →
      scan origin n d.body = .ok us → u ∈ us → Unfolds ts u

theorem Unfolds.exists_scan (h : scan origin n text = .ok ts) (ht : Unfolds ts t) :
    ∃ origin n text ts, scan origin n text = .ok ts ∧ t ∈ ts := by
  cases ht with
  | given hmem => exact ⟨_, _, _, _, h, hmem⟩
  | body _ _ _ hscan hmem => exact ⟨_, _, _, _, hscan, hmem⟩

/-- Whichever definition a text that can be read leads to, at any depth, reading its body comes to
the end of each definition in it. If it fails, then for a marker with nothing behind it. -/
theorem exists_emptyDirective_of_scan_body (h : scan origin n text = .ok ts) (ht : Unfolds ts t)
    (hkind : t.kind = .definition) {d : Definition}
    (hd : Definition.ofContent t.content.toList = .ok d) (origin' : String) (n' : Nat)
    {e : LexError} (he : scan origin' n' d.body = .error e) :
    ∃ (m : Marker) (p : Position), e = .emptyDirective m.char p := by
  obtain ⟨_, _, _, _, hscan, hmem⟩ := ht.exists_scan h
  have hbalanced := balanced_of_scan hscan hmem hkind
  obtain ⟨hreturn, hplain⟩ := plain_body_of_scan hscan hmem hd
  have hends : ∀ cs, cs <:+ d.body → cs.count '<' ≤ cs.count '>' := fun cs hcs =>
    hbalanced.count_le_of_suffix (hcs.trans (Definition.body_suffix hd))
  exact exists_marker_of_scan_eq_error hreturn hplain hends he

/-- The name of the outer definition opens a bracket that its body closes. In the third body a
marker is all there is. -/
theorem exists_emptyDirective_of_scan_body_third :
    let outer : Token := ⟨.definition, ⟨0, 0⟩, "\"<\" >  \n<\"b\"\n<\"c\"\n!>>", ""⟩
    let third : Token := ⟨.definition, ⟨2, 0⟩, "\"c\"\n!", ""⟩
    scan "" 0 "<\"<\" >  \n<\"b\"\n<\"c\"\n!>>>".toList = .ok [outer]
      ∧ Unfolds [outer] third
      ∧ Definition.ofContent third.content.toList = .ok ⟨"c", ['!'], 1⟩
      ∧ ∃ e, scan "" 3 ['!'] = .error e ∧ ∃ (m : Marker) (p : Position),
        e = .emptyDirective m.char p := by
  intro outer third
  let second : Token := ⟨.definition, ⟨1, 0⟩, "\"b\"\n<\"c\"\n!>", ""⟩
  have hscan : scan "" 0 "<\"<\" >  \n<\"b\"\n<\"c\"\n!>>>".toList = .ok [outer] := by cbv
  have houter : Definition.ofContent outer.content.toList
      = .ok ⟨"<", ">  \n<\"b\"\n<\"c\"\n!>>".toList, 0⟩ := by cbv
  have hbody : scan "" 0 ">  \n<\"b\"\n<\"c\"\n!>>".toList
      = .ok [⟨.call, ⟨0, 0⟩, ">  ", ""⟩, second] := by cbv
  have hsecond : Definition.ofContent second.content.toList
      = .ok ⟨"b", "<\"c\"\n!>".toList, 1⟩ := by cbv
  have hinner : scan "" 2 "<\"c\"\n!>".toList = .ok [third] := by cbv
  have hthird : Definition.ofContent third.content.toList = .ok ⟨"c", ['!'], 1⟩ := by cbv
  have hmarker : scan "" 3 ['!'] = .error (.emptyDirective '!' ⟨3, 0⟩) := by cbv
  have hunfolds : Unfolds [outer] second :=
    .body (.given List.mem_cons_self) rfl houter hbody (by simp)
  have hunfolds : Unfolds [outer] third := .body hunfolds rfl hsecond hinner List.mem_cons_self
  exact ⟨hscan, hunfolds, hthird, _, hmarker,
    exists_emptyDirective_of_scan_body hscan hunfolds rfl hthird "" 3 hmarker⟩

end Token

end HexPatterns
