import Mathlib
import HexPatterns.Token.Lexer

/-!
# Where tokens come from

Every token of a scan carries the origin of the scan, and the content of a directive ends its line,
so that it is not longer than the text.
-/

namespace HexPatterns

namespace Text

theorem length_le_of_mem_splitFrom {cs : List Char} {offset : Nat} {read : List Char} {l : Line}
    (h : l ∈ Line.splitFrom offset read cs) : l.chars.length ≤ read.length + cs.length := by
  fun_induction Line.splitFrom offset read cs with
  | case1 offset read =>
    rw [List.mem_singleton.1 h]
    simp
  | case2 offset read cs ih =>
    rcases List.mem_cons.1 h with rfl | h
    · simp
    · have := ih h
      simp only [List.length_cons, List.length_nil] at this ⊢
      omega
  | case3 offset read c cs _ hc ih =>
    rcases List.mem_cons.1 h with rfl | h
    · simp
    · have := ih h
      simp only [List.length_cons, List.length_nil] at this ⊢
      omega
  | case4 offset read c cs _ hc ih =>
    have := ih h
    simp only [List.length_cons] at this ⊢
    omega

/-- What stands between separators is part of the text and holds no separator. -/
theorem of_mem_splitOnP {α : Type} {f : α → Bool} :
    ∀ {l x : List α}, x ∈ l.splitOnP f → x.Sublist l ∧ ∀ c ∈ x, f c = false
  | [], x, hx => by
    rw [List.splitOnP_nil, List.mem_singleton] at hx
    simp [hx]
  | d :: l, x, hx => by
    rw [List.splitOnP_cons_eq_if_modifyHead] at hx
    split at hx
    · rcases List.mem_cons.1 hx with rfl | hx
      · simp
      · exact ⟨(of_mem_splitOnP hx).1.cons d, (of_mem_splitOnP hx).2⟩
    · rename_i hd
      rcases hs : l.splitOnP f with _ | ⟨y, ys⟩
      · exact absurd hs (List.splitOnP_ne_nil _ _)
      · rw [hs, List.modifyHead_cons, List.mem_cons] at hx
        have hrest : ∀ z ∈ y :: ys, z.Sublist l ∧ ∀ c ∈ z, f c = false :=
          fun z hz => of_mem_splitOnP (hs ▸ hz)
        rcases hx with rfl | hx
        · obtain ⟨hsub, hno⟩ := hrest y List.mem_cons_self
          exact ⟨hsub.cons_cons d, List.forall_mem_cons.2 ⟨by simpa using hd, hno⟩⟩
        · obtain ⟨hsub, hno⟩ := hrest x (List.mem_cons_of_mem _ hx)
          exact ⟨hsub.cons d, hno⟩

theorem length_le_of_mem_wordsOf {s w : String} (h : w ∈ wordsOf s) : w.length ≤ s.length := by
  obtain ⟨x, hx, rfl⟩ := List.mem_map.1 h
  have hsub := (of_mem_splitOnP (List.mem_filter.1 hx).1).1
  rw [String.length_ofList, ← String.length_toList]
  exact hsub.length_le

theorem dropComment_prefix (cs : List Char) : dropComment cs <+: cs := by
  fun_induction dropComment cs with
  | case1 => exact List.prefix_rfl
  | case2 => exact List.nil_prefix
  | case3 c cs _ ih => exact (List.prefix_cons_inj c).2 ih

end Text

namespace Token

variable {origin : String} {n column : Nat} {cs : List Char} {t : Token} {o : Option Opening}

theorem origin_of_scanInside {o : Opening} {o' : Option Opening}
    (h : scanInside origin o cs = (some t, o')) : t.origin = origin ∧ t.kind = .definition := by
  unfold scanInside at h
  split at h
  · simp at h
  · cases h
    exact ⟨rfl, rfl⟩

theorem of_scanMarked {kind : Kind} {marker : Char} {p : Position}
    (h : scanMarked origin kind marker p cs = .ok (some t, o)) :
    t.origin = origin ∧ t.content.toList = cs := by
  unfold scanMarked at h
  split at h
  · cases h
  · cases h
    exact ⟨rfl, String.toList_ofList⟩

theorem of_scanOutside (h : scanOutside origin n column cs = .ok (some t, o)) :
    t.origin = origin ∧ (t.kind = .directive → t.content.toList <:+ cs) := by
  fun_induction scanOutside origin n column cs with
  | case1 => cases h
  | case2 column cs ih => exact ⟨(ih h).1, fun hk => ((ih h).2 hk).trans (List.suffix_cons _ _)⟩
  | case3 column cs ih => exact ⟨(ih h).1, fun hk => ((ih h).2 hk).trans (List.suffix_cons _ _)⟩
  | case4 column cs =>
    obtain ⟨horigin, hcontent⟩ := of_scanMarked h
    exact ⟨horigin, fun _ => hcontent ▸ List.suffix_cons _ _⟩
  | case5 column cs =>
    obtain ⟨horigin, hcontent⟩ := of_scanMarked h
    exact ⟨horigin, fun _ => hcontent ▸ List.suffix_cons _ _⟩
  | case6 column cs =>
    obtain ⟨horigin, hkind⟩ := origin_of_scanInside (Except.ok.inj h)
    exact ⟨horigin, fun hk => by rw [hkind] at hk; cases hk⟩
  | case7 column cs _ _ _ _ _ _ =>
    cases h
    exact ⟨rfl, fun hk => by cases hk⟩

theorem of_scanLine {o? : Option Opening} (h : scanLine origin n o? cs = .ok (some t, o)) :
    t.origin = origin ∧ (t.kind = .directive → t.content.toList <:+ cs) := by
  unfold scanLine at h
  split at h
  · split at h
    · cases h
    · obtain ⟨horigin, hkind⟩ := origin_of_scanInside (Except.ok.inj h)
      exact ⟨horigin, fun hk => by rw [hkind] at hk; cases hk⟩
  · split at h
    · cases h
    · exact of_scanOutside h

theorem scanLines_cons_eq_ok_iff {o? : Option Opening} {rest : List (List Char)}
    {ts : List Token} :
    scanLines origin n o? (cs :: rest) = .ok ts ↔
      ∃ t? o us, scanLine origin n o? cs = .ok (t?, o)
        ∧ scanLines origin (n + 1) o rest = .ok us ∧ ts = t?.toList ++ us := by
  rw [scanLines]
  rcases scanLine origin n o? cs with e | ⟨t?, o⟩
  · simp [bind, Except.bind]
  · rcases hrest : scanLines origin (n + 1) o rest with e | us
    · simp [bind, Except.bind, hrest]
    · simp [bind, Except.bind, pure, Except.pure, hrest, eq_comm]

theorem of_mem_scanLines : ∀ {lines : List (List Char)} {n : Nat} {o? : Option Opening}
    {ts : List Token}, scanLines origin n o? lines = .ok ts → ∀ t ∈ ts,
      t.origin = origin ∧ (t.kind = .directive → ∃ cs ∈ lines, t.content.toList <:+ cs)
  | [], n, none, ts, h, t, ht => by
    cases h
    simp at ht
  | [], n, some o, ts, h, t, ht => by cases h
  | cs :: rest, n, o?, ts, h, t, ht => by
    obtain ⟨t?, o, us, hline, hrest, rfl⟩ := scanLines_cons_eq_ok_iff.1 h
    rw [List.mem_append, Option.mem_toList] at ht
    rcases ht with rfl | ht
    · obtain ⟨horigin, hcontent⟩ := of_scanLine hline
      exact ⟨horigin, fun hk => ⟨cs, List.mem_cons_self, hcontent hk⟩⟩
    · obtain ⟨horigin, hcontent⟩ := of_mem_scanLines hrest t ht
      refine ⟨horigin, fun hk => ?_⟩
      obtain ⟨line, hmem, hsuffix⟩ := hcontent hk
      exact ⟨line, List.mem_cons_of_mem _ hmem, hsuffix⟩

/-- The tokens of a text carry its origin, and a directive among them is not longer than the
text. -/
theorem of_mem_scan {text : List Char} {ts : List Token} (h : scan origin n text = .ok ts)
    (ht : t ∈ ts) :
    t.origin = origin ∧ (t.kind = .directive → t.content.length ≤ text.length) := by
  obtain ⟨horigin, hcontent⟩ := of_mem_scanLines h t ht
  refine ⟨horigin, fun hk => ?_⟩
  obtain ⟨cs, hcs, hsuffix⟩ := hcontent hk
  obtain ⟨l, hl, rfl⟩ := List.mem_map.1 hcs
  calc t.content.length = t.content.toList.length := String.length_toList.symm
    _ ≤ (Text.dropComment l.chars).length := hsuffix.length_le
    _ ≤ l.chars.length := (Text.dropComment_prefix _).length_le
    _ ≤ text.length := by simpa using Text.length_le_of_mem_splitFrom hl

end Token

end HexPatterns
