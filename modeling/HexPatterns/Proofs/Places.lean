import Mathlib
import HexPatterns.Definition
import HexPatterns.Proofs.Lines
import HexPatterns.Proofs.Scan

/-!
# Where tokens stand

A scan gives each token the number of a line that the text has, and lays an error to such a line. Of
a definition more is true: its content has as many line ends as lines were read for it, so that it
ends on a line of the text too. This is what the numbers in its body rest on, since the body is read
out of the content and not out of the text.
-/

namespace HexPatterns.Token

open Text

/-- The token stands in front of line `n`, and if it is a definition, all of it does. -/
structure Before (t : Token) (n : Nat) : Prop where
  line_lt : t.position.line < n
  definition : t.kind = .definition →
    '\r' ∉ t.content.toList ∧ t.position.line + t.content.toList.count '\n' < n

namespace Opening

variable {o o' : Opening} {cs content : List Char}

theorem of_readLine_eq_inl (h : o.readLine cs = .inl o') :
    o'.position = o.position ∧ o'.read = cs.reverse ++ o.read := by
  fun_induction readLine o cs with
  | case1 o =>
    cases h
    exact ⟨rfl, rfl⟩
  | case2 o cs ih => simpa [push] using ih h
  | case3 o cs => cases h
  | case4 o cs n hn ih => simpa [push] using ih h
  | case5 o c cs _ _ ih => simpa [push] using ih h

theorem of_readLine_eq_inr (h : o.readLine cs = .inr content) :
    ∃ read, read <+: cs ∧ content = o.read.reverse ++ read := by
  fun_induction readLine o cs with
  | case1 o => cases h
  | case2 o cs ih =>
    obtain ⟨read, hread, rfl⟩ := ih h
    exact ⟨'<' :: read, (List.prefix_cons_inj _).2 hread, by simp [push]⟩
  | case3 o cs =>
    cases h
    exact ⟨[], List.nil_prefix, by simp⟩
  | case4 o cs n hn ih =>
    obtain ⟨read, hread, rfl⟩ := ih h
    exact ⟨'>' :: read, (List.prefix_cons_inj _).2 hread, by simp [push]⟩
  | case5 o c cs _ _ ih =>
    obtain ⟨read, hread, rfl⟩ := ih h
    exact ⟨c :: read, (List.prefix_cons_inj _).2 hread, by simp [push]⟩

/-- What was read of the definition so far fits in the lines up to line `n`. -/
structure UpTo (o : Opening) (n : Nat) : Prop where
  not_mem : '\r' ∉ o.read
  count_le : o.position.line + o.read.count '\n' ≤ n

theorem UpTo.push (h : o.UpTo n) : (o.push '\n').UpTo (n + 1) := by
  obtain ⟨hno, hle⟩ := h
  refine ⟨by simpa [Opening.push] using hno, ?_⟩
  simp only [Opening.push, List.count_cons_self]
  omega

end Opening

section Scan

variable {origin : String} {n column : Nat} {cs : List Char} {o? : Option Opening}

/-- What a line leaves behind is in its place. -/
def Yield.Placed (y : Yield) (n : Nat) : Prop :=
  (∀ t ∈ y.1, t.Before (n + 1)) ∧ ∀ o ∈ y.2, o.UpTo (n + 1) ∧ o.position.line < n + 1

theorem scanInside_placed {o : Opening} (ho : o.UpTo n) (hcs : ∀ c ∈ cs, ¬ IsBreak c) :
    Yield.Placed (scanInside origin o cs) n := by
  have hcount : ∀ {l : List Char}, (∀ c ∈ l, ¬ IsBreak c) → '\r' ∉ l ∧ l.count '\n' = 0 :=
    fun h => ⟨fun hmem => h _ hmem (.inl rfl), List.count_eq_zero.2 fun hmem => h _ hmem (.inr rfl)⟩
  have hline : o.position.line < n + 1 :=
    Nat.lt_succ_of_le ((Nat.le_add_right _ _).trans ho.count_le)
  unfold scanInside
  split
  · rename_i o' hread
    obtain ⟨hposition, hread⟩ := Opening.of_readLine_eq_inl hread
    have hcs := hcount hcs
    have ho' : o'.UpTo n := by
      refine ⟨by simp [hread, ho.not_mem, hcs.1], ?_⟩
      rw [hposition, hread, List.count_append, List.count_reverse, hcs.2, Nat.zero_add]
      exact ho.count_le
    refine ⟨by simp, ?_⟩
    simp only [Option.mem_some_iff, forall_eq']
    exact ⟨ho'.push, hposition ▸ hline⟩
  · rename_i content hread
    obtain ⟨read, hpre, rfl⟩ := Opening.of_readLine_eq_inr hread
    have hread := hcount fun c hc => hcs c (hpre.mem hc)
    refine ⟨?_, by simp⟩
    simp only [Option.mem_some_iff, forall_eq']
    refine ⟨hline, fun _ => ?_⟩
    rw [String.toList_ofList]
    refine ⟨by simp [ho.not_mem, hread.1], ?_⟩
    rw [List.count_append, List.count_reverse, hread.2, Nat.add_zero]
    exact Nat.lt_succ_of_le ho.count_le

/-- A token that is no definition is in its place on its own line. -/
theorem placed_of_ne_definition {t : Token} (hline : t.position.line = n)
    (hkind : t.kind ≠ .definition) : Yield.Placed (some t, none) n := by
  refine ⟨?_, by simp⟩
  simp only [Option.mem_some_iff, forall_eq']
  exact ⟨hline ▸ Nat.lt_succ_self _, fun h => absurd h hkind⟩

theorem scanMarked_placed {kind : Kind} {marker : Char} (hkind : kind ≠ .definition) :
    (∀ y, scanMarked origin kind marker ⟨n, column⟩ cs = .ok y → y.Placed n)
      ∧ ∀ e, scanMarked origin kind marker ⟨n, column⟩ cs = .error e → e.position.line = n := by
  unfold scanMarked
  split
  · simp [LexError.position]
  · refine ⟨?_, by simp⟩
    rintro _ ⟨⟩
    exact placed_of_ne_definition rfl hkind

theorem scanOutside_placed (hcs : ∀ c ∈ cs, ¬ IsBreak c) :
    (∀ y, scanOutside origin n column cs = .ok y → y.Placed n)
      ∧ ∀ e, scanOutside origin n column cs = .error e → e.position.line = n := by
  fun_induction scanOutside origin n column cs with
  | case1 column => simp [Yield.Placed]
  | case2 column cs ih => exact ih (List.forall_mem_cons.1 hcs).2
  | case3 column cs ih => exact ih (List.forall_mem_cons.1 hcs).2
  | case4 column cs => exact scanMarked_placed (by decide)
  | case5 column cs => exact scanMarked_placed (by decide)
  | case6 column cs =>
    refine ⟨?_, by simp⟩
    rintro _ ⟨⟩
    exact scanInside_placed ⟨by simp, by simp⟩ (List.forall_mem_cons.1 hcs).2
  | case7 column cs _ _ _ _ _ _ =>
    refine ⟨?_, by simp⟩
    rintro _ ⟨⟩
    exact placed_of_ne_definition rfl (by simp)

theorem scanLine_placed (ho : ∀ o ∈ o?, o.UpTo n) (hcs : ∀ c ∈ cs, ¬ IsBreak c) :
    (∀ y, scanLine origin n o? cs = .ok y → y.Placed n)
      ∧ ∀ e, scanLine origin n o? cs = .error e → e.position.line = n := by
  unfold scanLine
  split
  · rename_i o
    have ho : o.UpTo n := ho o rfl
    refine ⟨?_, by simp⟩
    rintro _ ⟨⟩
    split
    · refine ⟨by simp, ?_⟩
      simp only [Option.mem_some_iff, forall_eq']
      exact ⟨ho.push, Nat.lt_succ_of_le ((Nat.le_add_right _ _).trans ho.count_le)⟩
    · exact scanInside_placed ho hcs
  · split
    · simp [Yield.Placed]
    · exact scanOutside_placed hcs

theorem Before.mono {t : Token} {m : Nat} (h : t.Before n) (hle : n ≤ m) : t.Before m :=
  ⟨h.line_lt.trans_le hle, fun hk => ⟨(h.definition hk).1, (h.definition hk).2.trans_le hle⟩⟩

theorem scanLines_before : ∀ {lines : List (List Char)} {n : Nat} {o? : Option Opening},
    (∀ cs ∈ lines, ∀ c ∈ cs, ¬ IsBreak c) → (∀ o ∈ o?, o.UpTo n ∧ o.position.line < n) →
      (∀ ts, scanLines origin n o? lines = .ok ts → ∀ t ∈ ts, t.Before (n + lines.length))
        ∧ ∀ e, scanLines origin n o? lines = .error e → e.position.line < n + lines.length
  | [], n, none, _, _ => by simp [scanLines]
  | [], n, some o, _, ho => by simpa [scanLines, LexError.position] using (ho o rfl).2
  | cs :: rest, n, o?, hlines, ho => by
    obtain ⟨hcs, hrest⟩ := List.forall_mem_cons.1 hlines
    obtain ⟨hok, herror⟩ := scanLine_placed (fun o h => (ho o h).1) hcs
    rw [scanLines, List.length_cons]
    rcases hline : scanLine origin n o? cs with e | ⟨t?, o'⟩
    · refine ⟨by simp [bind, Except.bind], ?_⟩
      rintro _ ⟨⟩
      rw [herror e hline]
      omega
    · obtain ⟨ht, ho'⟩ := hok _ hline
      obtain ⟨hts, he⟩ := scanLines_before hrest ho'
      have hle : n + 1 + rest.length = n + (rest.length + 1) := by omega
      rw [hle] at hts he
      rcases hlater : scanLines origin (n + 1) o' rest with e | us
      · refine ⟨by simp [bind, Except.bind, hlater], ?_⟩
        intro e' h
        exact he e' (by simpa [bind, Except.bind, hlater] using h)
      · refine ⟨?_, by simp [bind, Except.bind, pure, Except.pure, hlater]⟩
        intro ts h
        obtain rfl : t?.toList ++ us = ts := by
          simpa [bind, Except.bind, pure, Except.pure, hlater] using h
        intro t hmem
        rcases List.mem_append.1 hmem with hmem | hmem
        · exact (ht t (Option.mem_toList.1 hmem)).mono (by omega)
        · exact hts us hlater t hmem

/-- The tokens of a text stand on its lines, and an error is laid to one of them. -/
theorem scan_before (origin : String) (n : Nat) (text : List Char) :
    (∀ ts, scan origin n text = .ok ts → ∀ t ∈ ts, t.Before (n + (lines text).length))
      ∧ ∀ e, scan origin n text = .error e → e.position.line < n + (lines text).length := by
  rw [scan_eq_scanLines, length_lines, ← List.length_map dropComment]
  exact scanLines_before (fun cs hcs => not_isBreak_of_mem_dropComment hcs) (by simp)

end Scan

/-- The body of a definition is read at lines that the definition has. -/
theorem Before.body {t : Token} {n : Nat} (h : t.Before n) (hkind : t.kind = .definition)
    {d : Definition} (hd : Definition.ofContent t.content.toList = .ok d) :
    t.position.line + d.skipped + (lines d.body).length ≤ n := by
  obtain ⟨hno, hlt⟩ := h.definition hkind
  unfold Definition.ofContent at hd
  split at hd
  · cases hd
  split at hd
  · rename_i rest hcontent
    cases hd
    simp only
    rw [hcontent] at hno hlt
    set after := (rest.dropWhile (· ≠ '"')).drop 1
    have hsuffix : after <:+ '"' :: rest :=
      ((List.drop_suffix _ _).trans (List.dropWhile_suffix _)).trans (List.suffix_cons _ _)
    have hbody : trimStart after <:+ after := List.dropWhile_suffix _
    have hlength : (lines (trimStart after)).length = (trimStart after).count '\n' + 1 := by
      rw [length_lines, length_lineTexts]
      exact fun hmem => hno (hsuffix.mem (hbody.mem hmem))
    have hsplit : after.count '\n'
        = (after.takeWhile isBlank).count '\n' + (trimStart after).count '\n' := by
      rw [trimStart, ← List.count_append, List.takeWhile_append_dropWhile]
    have hle := hsuffix.sublist.count_le '\n'
    omega
  · cases hd

end HexPatterns.Token
