import Mathlib
import HexPatterns.Proofs.Bodies
import HexPatterns.Proofs.Spans

/-!
# Where the tokens of a body stand

The content of a definition has a line for each line of the source that the definition extends over,
the first of them from behind the `<` on. So a place in the content is a place in the source
(`Token.place`), and what stands in the content stands there in the source
(`reads_of_content`). A body is read apart from the source, at the line of its definition plus
the line ends that were passed between the name and the body. Line ends within the name are not
counted. By so many lines the tokens of the body stand further down than they say.
-/

namespace HexPatterns

open Text

/-- Where one gets to from a position by reading a text. -/
def Position.past : Position → List Char → Position
  | p, [] => p
  | p, '\n' :: cs => past ⟨p.line + 1, 0⟩ cs
  | p, _ :: cs => past ⟨p.line, p.column + 1⟩ cs

namespace Position

theorem past_append (p : Position) (a b : List Char) : p.past (a ++ b) = (p.past a).past b := by
  fun_induction past p a with
  | case1 p => rfl
  | case2 p a ih => exact ih
  | case3 p c a hc ih =>
    rw [List.cons_append, past, ih]
    exact hc

theorem line_past (p : Position) (cs : List Char) :
    (p.past cs).line = p.line + cs.count '\n' := by
  fun_induction past p cs with
  | case1 p => rfl
  | case2 p cs ih =>
    rw [ih, List.count_cons_self]
    show p.line + 1 + cs.count '\n' = _
    omega
  | case3 p c cs hc ih =>
    have hne : c ≠ '\n' := fun h => hc h
    rw [ih, List.count_cons_of_ne hne]

theorem past_of_notMem {cs : List Char} (h : '\n' ∉ cs) (p : Position) :
    p.past cs = ⟨p.line, p.column + cs.length⟩ := by
  fun_induction past p cs with
  | case1 p => rfl
  | case2 p cs => exact absurd List.mem_cons_self h
  | case3 p c cs hc ih =>
    rw [ih (List.not_mem_of_not_mem_cons h), List.length_cons]
    simp only [mk.injEq, true_and]
    omega

/-- Behind whole lines and an indent. -/
theorem past_lines {front : List (List Char)} (hfront : ∀ l ∈ front, '\n' ∉ l) {indent : List Char}
    (hindent : '\n' ∉ indent) (n : Nat) :
    (mk n 0).past (front.flatMap (· ++ ['\n']) ++ indent) = ⟨n + front.length, indent.length⟩ := by
  induction front generalizing n with
  | nil => simp [past_of_notMem hindent]
  | cons l front ih =>
    obtain ⟨hl, hfront⟩ := List.forall_mem_cons.1 hfront
    have hnext : (mk n 0).past (l ++ ['\n']) = ⟨n + 1, 0⟩ := by
      rw [past_append, past_of_notMem hl]
      rfl
    rw [List.flatMap_cons, List.append_assoc, past_append, hnext, ih hfront, List.length_cons]
    simp only [mk.injEq, and_true]
    omega

end Position

/-- At the position the line of the text goes on with `shown`. -/
def Text.Reads (text : List Char) (p : Position) (shown : List Char) : Prop :=
  ∃ l, (lines text)[p.line]? = some l ∧ shown <+: l.chars.drop p.column

namespace Token

/-- The position in the source at which the content of a definition goes on behind `front`: its
lines are lines of the source, the first one from behind the `<`. -/
def place (t : Token) (front : List Char) : Position :=
  (Position.mk t.position.line (t.position.column + 1)).past front

/-- A text that is cut off in its first line, or behind it. -/
theorem front_cases {w rest front shown back : List Char} (hshown : '\n' ∉ shown)
    (h : w ++ '\n' :: rest = front ++ (shown ++ back)) :
    front ++ shown <+: w
      ∨ ∃ front', front = w ++ '\n' :: front' ∧ rest = front' ++ (shown ++ back) := by
  rcases List.append_eq_append_iff.1 h with ⟨more, rfl, hmore⟩ | ⟨more, rfl, hmore⟩
  · rcases more with _ | ⟨c, more⟩
    · rcases shown with _ | ⟨c, shown⟩
      · exact .inl (by simp)
      · obtain ⟨rfl, -⟩ := List.cons.inj hmore
        exact absurd List.mem_cons_self hshown
    · obtain ⟨rfl, hrest⟩ := List.cons.inj hmore
      exact .inr ⟨more, rfl, hrest⟩
  · refine .inl ((List.prefix_append_right_inj front).2 ?_)
    have hpre : shown <+: more ++ '\n' :: rest := ⟨back, hmore⟩
    rcases List.prefix_or_prefix_of_prefix hpre (List.prefix_append more _) with hle | ⟨x, rfl⟩
    · exact hle
    · rw [List.prefix_append_right_inj] at hpre
      rcases x with _ | ⟨c, x⟩
      · simp
      · obtain ⟨rfl, -⟩ := List.cons_prefix_cons.1 hpre
        exact absurd (by simp) hshown

theorem intercalate_cases {w front shown back : List Char} {ws : List (List Char)}
    (hshown : '\n' ∉ shown) (h : ['\n'].intercalate (w :: ws) = front ++ (shown ++ back)) :
    front ++ shown <+: w ∨ ws ≠ [] ∧ ∃ front', front = w ++ '\n' :: front'
      ∧ ['\n'].intercalate ws = front' ++ (shown ++ back) := by
  rcases ws with _ | ⟨next, ws⟩
  · refine .inl ⟨back, ?_⟩
    rw [List.append_assoc, ← h, List.intercalate_singleton]
  · rw [List.intercalate_cons_cons, List.append_assoc, List.singleton_append] at h
    rcases front_cases hshown h with hpre | hmore
    · exact .inl hpre
    · exact .inr ⟨by simp, hmore⟩

/-- Let `ws` be the fronts of lines, the first of which is moved by an indent. Then what stands on a
line of the text made of `ws` stands in the same place on one of those lines. -/
theorem exists_line_of_intercalate {shown : List Char} (hshown : '\n' ∉ shown) :
    ∀ {ws ss : List (List Char)}, List.Forall₂ (· <+: ·) ws ss → ws ≠ [] →
      ∀ (n : Nat) (indent : List Char) {front back : List Char},
      (∀ l ∈ ss.modifyHead (indent ++ ·), '\n' ∉ l) →
      ['\n'].intercalate ws = front ++ (shown ++ back) → ∃ k l,
        ((Position.mk n indent.length).past front).line = n + k
          ∧ (ss.modifyHead (indent ++ ·))[k]? = some l
          ∧ shown <+: l.drop ((Position.mk n indent.length).past front).column
  | _, _, .nil, hne, _, _, _, _, _, _ => absurd rfl hne
  | w :: ws, s :: ss, .cons hw hws, _, n, indent, front, back, hno, h => by
    obtain ⟨hline, hno⟩ := List.forall_mem_cons.1 hno
    have hnow : '\n' ∉ w := fun hmem => hline (List.mem_append_right _ (hw.mem hmem))
    rcases intercalate_cases hshown h with hpre | ⟨hne, front', rfl, hrest⟩
    · have hfront : '\n' ∉ front := fun hmem => hnow (hpre.mem (by simp [hmem]))
      obtain ⟨more, rfl⟩ := hpre.trans hw
      refine ⟨0, _, by simp [Position.past_of_notMem hfront], rfl, ?_⟩
      rw [Position.past_of_notMem hfront, ← List.drop_drop, List.drop_left, List.append_assoc,
        List.drop_left]
      exact List.prefix_append _ _
    · obtain ⟨k, l, hline, hl, hpre⟩ := exists_line_of_intercalate hshown hws hne
        (n + 1) [] (by rwa [modifyHead_nil_append]) hrest
      have hpast : (Position.mk n indent.length).past (w ++ '\n' :: front')
          = (Position.mk (n + 1) 0).past front' := by
        rw [Position.past_append, Position.past_of_notMem hnow]
        rfl
      rw [hpast]
      refine ⟨k + 1, l, ?_, ?_, hpre⟩
      · rw [← Nat.add_assoc, Nat.add_right_comm]
        exact hline
      · rw [modifyHead_nil_append] at hl
        exact hl

/-- The lines of a content are the fronts of the lines that the definition is read from. -/
theorem Entry.forall₂_prefix_lines (before : List (List Char)) (last dropped : List Char) :
    List.Forall₂ (· <+: ·) (emptied before ++ [last]) (before ++ [last ++ '>' :: dropped]) := by
  refine List.rel_append ?_ (.cons (List.prefix_append _ _) .nil)
  cases before with
  | nil => exact .nil
  | cons first more =>
    refine .cons List.prefix_rfl (List.forall₂_map_left_iff.2 ?_)
    exact List.forall₂_same.2 fun l _ => prefix_emptiedIfBlank l

variable {origin : String} {text : List Char} {ts : List Token} {t : Token}

/-- What stands on a line of the content of a definition stands in its place in the source. -/
theorem reads_of_content (h : scan origin 0 text = .ok ts) (ht : t ∈ ts)
    (hkind : t.kind = .definition) {front shown back : List Char}
    (hcontent : t.content.toList = front ++ (shown ++ back)) (hshown : '\n' ∉ shown) :
    Reads text (t.place front) shown := by
  rw [scan_eq_scanLines] at h
  obtain ⟨above, indent, before, last, dropped, below, hlines, -, rfl⟩ :=
    exists_definition_of_scanLines h ht hkind
  have hentry : (Item.entry indent (.definition before last dropped)).lines
      = (before ++ [last ++ '>' :: dropped]).modifyHead ((indent ++ ['<']) ++ ·) := by
    simp [Item.lines, Entry.lines, List.modifyHead_modifyHead, Function.comp_def]
  rw [hentry] at hlines
  have hno : ∀ l ∈ (before ++ [last ++ '>' :: dropped]).modifyHead ((indent ++ ['<']) ++ ·),
      '\n' ∉ l := by
    intro l hl hmem
    have hl : l ∈ (lineTexts text).map dropComment := by
      rw [hlines]
      exact List.mem_append_right _ (List.mem_append_left _ hl)
    exact not_isBreak_of_mem_dropComment hl _ hmem (.inr rfl)
  rw [Entry.token, String.toList_ofList] at hcontent
  obtain ⟨k, l, hline, hl, hpre⟩ := exists_line_of_intercalate hshown
    (Entry.forall₂_prefix_lines before last dropped) (by simp) (0 + above.length) (indent ++ ['<'])
    hno hcontent
  rw [List.length_append, List.length_singleton] at hline hpre
  have hget : ((lineTexts text).map dropComment)[above.length + k]? = some l := by
    rw [hlines, List.getElem?_append_right (Nat.le_add_right _ _), Nat.add_sub_cancel_left,
      List.getElem?_append_left (List.getElem?_eq_some_iff.1 hl).1, hl]
  obtain ⟨whole, comment, hwhole, hchars, -⟩ := exists_line_of_dropComment hget
  refine ⟨whole, ?_, ?_⟩
  · show (lines text)[((Position.mk (0 + above.length) (indent.length + 1)).past front).line]?
      = some whole
    rw [hline, Nat.zero_add, hwhole]
  · rw [hchars]
    exact hpre.trans ((List.prefix_append l comment).drop _)

/-- In the content of the definition `t` the token `u` of its body starts behind `front`: behind
what stands in front of the body, and then where its position says, which counts from the body's own
line. -/
def StartsBehind (u t : Token) (d : Definition) (front : List Char) : Prop :=
  ∃ before inside back, front = before ++ inside ∧ t.content.toList = before ++ (inside ++ back)
    ∧ d.body = inside ++ back ∧ u.lead <+: back
    ∧ u.position = (Position.mk (t.position.line + d.skipped) 0).past inside

theorem exists_inside_of_scan {n : Nat} (hreturn : '\r' ∉ text) (hplain : Uncommented text)
    (h : scan origin n text = .ok ts) {u : Token} (hu : u ∈ ts) :
    ∃ inside back, text = inside ++ back ∧ u.position = (Position.mk n 0).past inside
      ∧ u.lead <+: back ∧ '\n' ∉ u.lead := by
  rw [scan_eq_scanLines, map_dropComment_lineTexts hplain] at h
  obtain ⟨front, indent, rest, back, hlines, hposition, hlead, -⟩ := exists_lead_of_scanLines h hu
  have hno : ∀ l ∈ front ++ (indent ++ rest) :: back, '\n' ∉ l := fun l hl hmem =>
    not_isBreak_of_mem_lineTexts (hlines ▸ hl) _ hmem (.inr rfl)
  obtain ⟨hfront, hmore⟩ := List.forall_mem_append.1 hno
  have hline := (List.forall_mem_cons.1 hmore).1
  rw [List.mem_append, not_or] at hline
  refine ⟨front.flatMap (· ++ ['\n']) ++ indent, ['\n'].intercalate (rest :: back), ?_, ?_, ?_, ?_⟩
  · exact eq_of_lineTexts hreturn hlines
  · rw [hposition, Position.past_lines hfront hline.1]
  · have hrest := intercalate_append_head rest [] back
    rw [List.append_nil] at hrest
    exact hlead.trans ⟨_, hrest.symm⟩
  · exact fun hmem => hline.2 (hlead.mem hmem)

end Token

/-- A name that the definitions of a source bring into a registry is given by one of them. Every
token of its body starts at a place of the content, and so of the source, where it can be read. This
is on the line that the token tells plus as many lines as there are line ends within the name. -/
theorem registerDefinitions_lines {origin : String} {text : List Char} {ts : List Token}
    (hscan : Token.scan origin 0 text = .ok ts) (catalog : Catalog) {r : Registry} {name : String}
    {body : List Token} (hnew : r.lookup name = none)
    (hbody : (registerDefinitions catalog r ts).1.lookup name = some body) :
    ∃ t ∈ ts, ∃ d, t.Defines d name body ∧ ∀ u ∈ body, ∃ front, u.StartsBehind t d front
      ∧ Reads text (t.place front) u.lead
      ∧ (t.place front).line = u.position.line + name.toList.count '\n' := by
  obtain ⟨t, ht, d, hkind, hd, hname, hown⟩ :=
    Token.exists_defines_of_registerDefinitions hnew hbody
  refine ⟨t, ht, d, ⟨hkind, hd, hname, hown⟩, fun u hu => ?_⟩
  obtain ⟨hreturn, hplain⟩ := Token.plain_body_of_scan hscan ht hd
  obtain ⟨gap, hcontent, -, hgap⟩ := Definition.exists_of_ofContent hd
  have hsplit : t.content.toList = '"' :: (d.name.toList ++ '"' :: gap) ++ d.body := by
    rw [hcontent]
    simp
  obtain ⟨inside, back, hinside, hposition, hlead, hnewline⟩ :=
    Token.exists_inside_of_scan hreturn hplain hown hu
  rw [hinside] at hsplit
  refine ⟨_, ⟨_, inside, back, rfl, hsplit, hinside, hlead, hposition⟩, ?_, ?_⟩
  · obtain ⟨more, rfl⟩ := hlead
    rw [← List.append_assoc] at hsplit
    exact Token.reads_of_content hscan ht hkind hsplit hnewline
  · rw [Token.place, Position.line_past, hposition, Position.line_past, ← hname, ← hgap]
    have hquote : ('"' :: (d.name.toList ++ '"' :: gap) ++ inside).count '\n'
        = d.name.toList.count '\n' + gap.count '\n' + inside.count '\n' := by
      simp [Nat.add_assoc]
    rw [hquote]
    dsimp only
    omega

/-- A name with a line end in it, blank lines and a comment in front of the body, and line ends of
each sort. The tokens of the body tell lines 3 and 5. -/
theorem registerDefinitions_lines_brokenName :
    let text := "<\"a\nb\"\r\r\n // c\n\t!x\n\n m>"
    let t : Token := ⟨.definition, ⟨0, 0⟩, "\"a\nb\"\n\n\n\t!x\n\n m", ""⟩
    let body : List Token := [⟨.literal, ⟨3, 0⟩, "x", ""⟩, ⟨.call, ⟨5, 1⟩, "m", ""⟩]
    Token.scan "" 0 text.toList = .ok [t] ∧ Registry.empty.lookup "a\nb" = none
      ∧ (registerDefinitions .empty .empty [t]).1.lookup "a\nb" = some body
      ∧ ∃ d, t.Defines d "a\nb" body ∧ ∀ u ∈ body, ∃ front, u.StartsBehind t d front
        ∧ Reads text.toList (t.place front) u.lead
        ∧ (t.place front).line = u.position.line + 1 := by
  intro text t body
  have hscan : Token.scan "" 0 text.toList = .ok [t] := by cbv
  have hdefines : t.Defines ⟨"a\nb", "!x\n\n m".toList, 3⟩ "a\nb" body :=
    ⟨rfl, by cbv, rfl, by cbv⟩
  have hnew := Registry.lookup_empty "a\nb"
  obtain ⟨r', hregister, hlookup⟩ := Token.registerDefinitions_of_defines .empty hdefines hnew
  have hbody : (registerDefinitions .empty .empty [t]).1.lookup "a\nb" = some body := by
    rw [hregister, hlookup, if_pos rfl]
  obtain ⟨t', ht', d, hd, hlines⟩ := registerDefinitions_lines hscan .empty hnew hbody
  obtain rfl := List.mem_singleton.1 ht'
  exact ⟨hscan, hnew, hbody, d, hd, hlines⟩

/-- The token of the body tells line 0, on which only the front of the name stands. -/
theorem brokenName_misplaces :
    let text := "<\"a\nb\" !x>"
    let t : Token := ⟨.definition, ⟨0, 0⟩, "\"a\nb\" !x", ""⟩
    let u : Token := ⟨.literal, ⟨0, 0⟩, "x", ""⟩
    Token.scan "" 0 text.toList = .ok [t]
      ∧ (registerDefinitions .empty .empty [t]).1.lookup "a\nb" = some [u]
      ∧ ∀ l, (lines text.toList)[u.position.line]? = some l → ∀ c ∈ u.lead.head?, c ∉ l.chars := by
  intro text t u
  have hdefines : t.Defines ⟨"a\nb", "!x".toList, 0⟩ "a\nb" [u] := ⟨rfl, by cbv, rfl, by cbv⟩
  have hnew := Registry.lookup_empty "a\nb"
  obtain ⟨r', hregister, hlookup⟩ := Token.registerDefinitions_of_defines .empty hdefines hnew
  refine ⟨by cbv, by rw [hregister, hlookup, if_pos rfl], ?_⟩
  intro l hl
  have hfirst : (lines text.toList)[u.position.line]? = some ⟨0, ['<', '"', 'a']⟩ := by cbv
  have hlead : u.lead.head? = some '!' := rfl
  cases hfirst.symm.trans hl
  simp [hlead]

end HexPatterns
