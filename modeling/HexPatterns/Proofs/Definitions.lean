import Mathlib
import HexPatterns.Proofs.Alike
import HexPatterns.Proofs.Leftovers
import HexPatterns.Proofs.Located

/-!
# What the definition pass registers

The pass looks at one definition after the other, with a registry that grows under way. What it
comes to can be said of all definitions at once: they can be registered if each is quoted, each body
can be read, and no name is given twice or given away already (`Registrable`), and then the registry
is extended by just these names and bodies (`Registry.ExtendedBy`). Neither depends on the order.

Otherwise there is a first definition that cannot be registered after those before it, for one of
three reasons, and there the pass ends with what these have given (`Registrable.rejected`).
-/

namespace HexPatterns

open Text

namespace Token

/-- The content starts with a quotation mark and holds a second one. -/
def Quoted (t : Token) : Prop :=
  ∃ rest, t.content.toList = '"' :: rest ∧ '"' ∈ rest

/-- What stands between the first two quotation marks of a quoted content. -/
def givenName (t : Token) : String :=
  String.ofList ((t.content.toList.drop 1).takeWhile (· ≠ '"'))

/-- What stands behind the second quotation mark. -/
def behindName (t : Token) : List Char :=
  ((t.content.toList.drop 1).dropWhile (· ≠ '"')).drop 1

/-- The tokens of the body, read from its first character that is not blank at the line of that. -/
def givenBody (t : Token) : Except LexError (List Token) :=
  scan t.origin (t.position.line + (t.behindName.takeWhile isBlank).count '\n')
    (t.behindName.dropWhile isBlank)

/-- What is said of a content that is not quoted. -/
def misquotation (t : Token) : String :=
  if t.content.toList.count '"' < 2 then "expected a quoted macro name"
  else "expected first \" but got " ++ String.ofList (t.content.toList.take 1)

end Token

/-- The tokens that are definitions. -/
def definitions (ts : List Token) : List Token :=
  ts.filter fun t => t.kind = .definition

/-- A name is given away, in the registry or by one of the definitions. -/
def Taken (r : Registry) (ds : List Token) (name : String) : Prop :=
  r.lookup name ≠ none ∨ ∃ t ∈ ds, t.givenName = name

/-- The definitions can be registered, all of them. -/
structure Registrable (r : Registry) (ds : List Token) : Prop where
  quoted : ∀ t ∈ ds, t.Quoted
  readable : ∀ t ∈ ds, ∃ body, t.givenBody = .ok body
  distinct : (ds.map Token.givenName).Nodup
  new : ∀ t ∈ ds, r.lookup t.givenName = none

/-- The registry `r'` is `r` with the names and bodies of the definitions, and nothing else. -/
structure Registry.ExtendedBy (r : Registry) (ds : List Token) (r' : Registry) : Prop where
  given : ∀ t ∈ ds, ∃ body, t.givenBody = .ok body ∧ r'.lookup t.givenName = some body
  kept : ∀ name, (∀ t ∈ ds, t.givenName ≠ name) → r'.lookup name = r.lookup name

/-- Why a definition cannot be registered after others. A content that is not quoted comes before a
body that cannot be read, and that before a name that is given away. -/
inductive Rejected (catalog : Catalog) (r : Registry) (ds : List Token) (t : Token) :
    Diagnostic → Prop
  | malformed : ¬ t.Quoted → Rejected catalog r ds t
      ((catalog.find t.origin).reportToken (.malformedDefinition t.misquotation) t)
  | unreadable {e : Token.LexError} : t.Quoted → t.givenBody = .error e → Rejected catalog r ds t
      ((catalog.find t.origin).report e.fault e.position)
  | duplicate {body : List Token} : t.Quoted → t.givenBody = .ok body → Taken r ds t.givenName →
      Rejected catalog r ds t
        ((catalog.find t.origin).reportToken (.duplicateMacro t.givenName) t)

section One

variable {catalog : Catalog} {r r' : Registry} {t : Token}

theorem Token.Quoted.ofContent_eq (h : t.Quoted) : Definition.ofContent t.content.toList
    = .ok ⟨t.givenName, t.behindName.dropWhile isBlank,
      (t.behindName.takeWhile isBlank).count '\n'⟩ := by
  obtain ⟨rest, hcontent, hmem⟩ := h
  have hcount : ¬ ('"' :: rest).count '"' < 2 := by
    have hpos := List.count_pos_iff.2 hmem
    rw [List.count_cons_self]
    omega
  rw [givenName, behindName, hcontent, Definition.ofContent, if_neg hcount]
  rfl

theorem Token.ofContent_eq_error (h : ¬ t.Quoted) : Definition.ofContent t.content.toList
    = .error (.malformedDefinition t.misquotation) := by
  unfold Definition.ofContent misquotation
  by_cases hcount : t.content.toList.count '"' < 2
  · rw [if_pos hcount, if_pos hcount]
  · rw [if_neg hcount, if_neg hcount]
    split
    · rename_i rest hcontent
      rw [hcontent, List.count_cons_self] at hcount
      exact absurd ⟨rest, hcontent, List.count_pos_iff.1 (by omega)⟩ h
    · rfl

/-- A definition that is read is registered, unless its name is given away. -/
theorem define_of_read {body : List Token} (hquoted : t.Quoted) (hbody : t.givenBody = .ok body) :
    define catalog r t = (r.register t.givenName body).mapError
      ((catalog.find t.origin).reportToken · t) := by
  have hscan : (catalog.find t.origin).scan t.origin _ _ = .ok body :=
    SourceText.scan_eq_ok_iff.2 hbody
  simp only [define, readDefinition, hquoted.ofContent_eq, Except.mapError, bind, Except.bind,
    hscan]
  rfl

theorem define_of_malformed (h : ¬ t.Quoted) : define catalog r t
    = .error ((catalog.find t.origin).reportToken (.malformedDefinition t.misquotation) t) := by
  simp only [define, readDefinition, Token.ofContent_eq_error h, Except.mapError, bind, Except.bind]

theorem define_of_unreadable {e : Token.LexError} (hquoted : t.Quoted)
    (hbody : t.givenBody = .error e) :
    define catalog r t = .error ((catalog.find t.origin).report e.fault e.position) := by
  have hscan : (catalog.find t.origin).scan t.origin _ _ = .error _ :=
    SourceText.scan_eq_error_iff.2 ⟨e, hbody, rfl⟩
  simp only [define, readDefinition, hquoted.ofContent_eq, Except.mapError, bind, Except.bind,
    hscan]

end One

section Extended

variable {r r' r'' : Registry} {ds ds' : List Token} {t : Token} {body : List Token}

theorem Registry.ExtendedBy.lookup_ne_none_iff (h : r.ExtendedBy ds r') (name : String) :
    r'.lookup name ≠ none ↔ Taken r ds name := by
  by_cases hgiven : ∃ t ∈ ds, t.givenName = name
  · obtain ⟨t, ht, rfl⟩ := hgiven
    obtain ⟨body, -, hbody⟩ := h.given t ht
    exact iff_of_true (by simp [hbody]) (.inr ⟨t, ht, rfl⟩)
  · rw [h.kept name fun t ht hname => hgiven ⟨t, ht, hname⟩]
    exact ⟨.inl, fun htaken => htaken.resolve_right hgiven⟩

theorem Registry.ExtendedBy.concat (h : r.ExtendedBy ds r') (hbody : t.givenBody = .ok body)
    (hnew : ¬ Taken r ds t.givenName)
    (hr : ∀ other, r''.lookup other = if t.givenName = other then some body else r'.lookup other) :
    r.ExtendedBy (ds ++ [t]) r'' where
  given u hu := by
    rcases List.mem_append.1 hu with hu | hu
    · obtain ⟨own, hown, hlookup⟩ := h.given u hu
      refine ⟨own, hown, ?_⟩
      rw [hr, if_neg fun hname => hnew (.inr ⟨u, hu, hname.symm⟩), hlookup]
    · obtain rfl := List.mem_singleton.1 hu
      exact ⟨body, hbody, by rw [hr, if_pos rfl]⟩
  kept name hname := by
    rw [hr, if_neg (hname t (by simp))]
    exact h.kept name fun u hu => hname u (List.mem_append_left _ hu)

/-- Which definitions there are says what is found, not in which order they come. -/
theorem Registry.ExtendedBy.lookup_eq (h : r.ExtendedBy ds r') (h' : r.ExtendedBy ds' r'')
    (hperm : ds.Perm ds') (name : String) : r'.lookup name = r''.lookup name := by
  by_cases hgiven : ∃ t ∈ ds, t.givenName = name
  · obtain ⟨t, ht, rfl⟩ := hgiven
    obtain ⟨body, hbody, hlookup⟩ := h.given t ht
    obtain ⟨body', hbody', hlookup'⟩ := h'.given t (hperm.mem_iff.1 ht)
    cases hbody.symm.trans hbody'
    rw [hlookup, hlookup']
  · rw [h.kept name fun t ht hname => hgiven ⟨t, ht, hname⟩,
      h'.kept name fun t ht hname => hgiven ⟨t, hperm.mem_iff.2 ht, hname⟩]

theorem Registry.names_eq (h : ∀ name, r.lookup name = r'.lookup name) : r.names = r'.names :=
  (Std.TreeMap.Equiv.of_forall_constGet?_eq h).keys_eq

theorem registrable_concat : Registrable r (ds ++ [t]) ↔ Registrable r ds ∧ t.Quoted
    ∧ (∃ body, t.givenBody = .ok body) ∧ ¬ Taken r ds t.givenName := by
  constructor
  · intro h
    have hnodup := h.distinct
    rw [List.map_append, List.map_singleton, ← List.concat_eq_append, List.nodup_concat] at hnodup
    have hmem : t ∈ ds ++ [t] := by simp
    refine ⟨⟨fun u hu => h.quoted u (by simp [hu]), fun u hu => h.readable u (by simp [hu]),
      hnodup.2, fun u hu => h.new u (by simp [hu])⟩, h.quoted t hmem, h.readable t hmem, ?_⟩
    rintro (htaken | ⟨u, hu, hname⟩)
    · exact htaken (h.new t hmem)
    · exact hnodup.1 (List.mem_map.2 ⟨u, hu, hname⟩)
  · rintro ⟨h, hquoted, hreadable, hnew⟩
    have hlast : ∀ {P : Token → Prop}, (∀ u ∈ ds, P u) → P t → ∀ u ∈ ds ++ [t], P u := by
      intro P hds ht u hu
      rcases List.mem_append.1 hu with hu | hu
      · exact hds u hu
      · rwa [List.mem_singleton.1 hu]
    refine ⟨hlast h.quoted hquoted, hlast h.readable hreadable, ?_,
      hlast h.new (by_contra fun hne => hnew (.inl hne))⟩
    rw [List.map_append, List.map_singleton, ← List.concat_eq_append, List.nodup_concat]
    refine ⟨fun hmem => ?_, h.distinct⟩
    obtain ⟨u, hu, hname⟩ := List.mem_map.1 hmem
    exact hnew (.inr ⟨u, hu, hname⟩)

theorem Registrable.perm (h : Registrable r ds) (hperm : ds.Perm ds') : Registrable r ds' where
  quoted t ht := h.quoted t (hperm.mem_iff.2 ht)
  readable t ht := h.readable t (hperm.mem_iff.2 ht)
  distinct := (hperm.map _).nodup_iff.1 h.distinct
  new t ht := h.new t (hperm.mem_iff.2 ht)

end Extended

section Pass

variable {catalog : Catalog} {r r' : Registry} {ts us out : List Token} {t : Token} {d : Diagnostic}

/-- The pass over two stretches of tokens is the pass over the one and then over the other. -/
theorem registerDefinitions_append (us : List Token) : ∀ (ts : List Token) (r : Registry),
    registerDefinitions catalog r (ts ++ us) =
      match registerDefinitions catalog r ts with
      | (r', .error d) => (r', .error d)
      | (r', .ok out) => ((registerDefinitions catalog r' us).1,
          (registerDefinitions catalog r' us).2.map (out ++ ·))
  | [], r => by
    rcases hus : registerDefinitions catalog r us with ⟨r', d | out⟩ <;>
      simp [registerDefinitions, hus, Except.map]
  | t :: ts, r => by
    rw [List.cons_append, registerDefinitions, registerDefinitions]
    split
    · rcases define catalog r t with d | r₁
      · rfl
      · exact registerDefinitions_append us ts r₁
    · rw [registerDefinitions_append us ts r]
      rcases registerDefinitions catalog r ts with ⟨r', d | out⟩
      · rfl
      · rcases hus : (registerDefinitions catalog r' us).2 with d | rest <;> simp [Except.map, hus]

theorem definitions_append (ts us : List Token) :
    definitions (ts ++ us) = definitions ts ++ definitions us :=
  List.filter_append ..

theorem withoutDefinitions_append (ts us : List Token) :
    withoutDefinitions (ts ++ us) = withoutDefinitions ts ++ withoutDefinitions us :=
  List.filter_append ..

theorem definitions_singleton (ht : t.kind = .definition) : definitions [t] = [t] := by
  simp [definitions, ht]

theorem definitions_of_ne (ht : t.kind ≠ .definition) : definitions [t] = [] := by
  simp [definitions, ht]

theorem registerDefinitions_cons_of_error (ht : t.kind = .definition)
    (h : define catalog r t = .error d) (us : List Token) :
    registerDefinitions catalog r (t :: us) = (r, .error d) := by
  rw [registerDefinitions, if_pos ht, h]

/-- Definitions that can be registered are, and nothing else is. -/
theorem Registrable.registerDefinitions_eq (h : Registrable r (definitions ts))
    (catalog : Catalog) :
    ∃ r', registerDefinitions catalog r ts = (r', .ok (withoutDefinitions ts))
      ∧ r.ExtendedBy (definitions ts) r' := by
  induction ts using List.reverseRecOn with
  | nil => exact ⟨r, rfl, by simp [definitions], fun _ _ => rfl⟩
  | append_singleton ts t ih =>
    rw [definitions_append] at h ⊢
    rw [registerDefinitions_append, withoutDefinitions_append]
    by_cases ht : t.kind = .definition
    · rw [definitions_singleton ht] at h ⊢
      obtain ⟨hts, hquoted, ⟨body, hbody⟩, hnew⟩ := registrable_concat.1 h
      obtain ⟨r', hpass, hextended⟩ := ih hts
      have hlookup : r'.lookup t.givenName = none :=
        not_not.1 (mt (hextended.lookup_ne_none_iff _).1 hnew)
      obtain ⟨r'', hregister, hr⟩ := Registry.register_of_lookup body hlookup
      have hdefine : define catalog r' t = .ok r'' := by
        rw [define_of_read hquoted hbody, hregister]
        rfl
      refine ⟨r'', ?_, hextended.concat hbody hnew hr⟩
      simp [hpass, registerDefinitions, ht, hdefine, withoutDefinitions, Except.map]
    · rw [definitions_of_ne ht, List.append_nil] at h ⊢
      obtain ⟨r', hpass, hextended⟩ := ih h
      refine ⟨r', ?_, hextended⟩
      simp [hpass, registerDefinitions, ht, withoutDefinitions, Except.map]

/-- A definition that is rejected after those before it is not registered after them. -/
theorem Rejected.define_eq (h : Rejected catalog r (definitions ts) t d)
    (hextended : r.ExtendedBy (definitions ts) r') : define catalog r' t = .error d := by
  cases h with
  | malformed hquoted => exact define_of_malformed hquoted
  | unreadable hquoted hbody => exact define_of_unreadable hquoted hbody
  | duplicate hquoted hbody htaken =>
    have hlookup := (hextended.lookup_ne_none_iff _).2 htaken
    rw [define_of_read hquoted hbody, Registry.register_of_lookup_ne _ hlookup]
    rfl

theorem Registrable.rejected (h : Registrable r (definitions ts)) (ht : t.kind = .definition)
    (hd : Rejected catalog r (definitions ts) t d) (us : List Token) :
    ∃ r', registerDefinitions catalog r (ts ++ t :: us) = (r', .error d)
      ∧ r.ExtendedBy (definitions ts) r' := by
  obtain ⟨r', hpass, hextended⟩ := h.registerDefinitions_eq catalog
  refine ⟨r', ?_, hextended⟩
  rw [registerDefinitions_append, hpass]
  simp only [registerDefinitions_cons_of_error ht (hd.define_eq hextended)]
  rfl

/-- If not all definitions can be registered there is a first one that cannot. -/
theorem exists_rejected (catalog : Catalog) (h : ¬ Registrable r (definitions ts)) :
    ∃ before t after d, ts = before ++ t :: after ∧ t.kind = .definition
      ∧ Registrable r (definitions before) ∧ Rejected catalog r (definitions before) t d := by
  induction ts using List.reverseRecOn with
  | nil =>
    exact absurd ⟨by simp [definitions], by simp [definitions], by simp [definitions],
      by simp [definitions]⟩ h
  | append_singleton ts t ih =>
    by_cases hts : Registrable r (definitions ts)
    · have hkind : t.kind = .definition := by
        by_contra hne
        rw [definitions_append, definitions_of_ne hne, List.append_nil] at h
        exact h hts
      rw [definitions_append, definitions_singleton hkind, registrable_concat] at h
      have hrejected : ∃ d, Rejected catalog r (definitions ts) t d := by
        by_cases hquoted : t.Quoted
        · rcases hbody : t.givenBody with e | body
          · exact ⟨_, .unreadable hquoted hbody⟩
          · refine ⟨_, .duplicate hquoted hbody (by_contra fun hnew => ?_)⟩
            exact h ⟨hts, hquoted, ⟨body, hbody⟩, hnew⟩
        · exact ⟨_, .malformed hquoted⟩
      obtain ⟨d, hd⟩ := hrejected
      exact ⟨ts, t, [], d, rfl, hkind, hts, hd⟩
    · obtain ⟨before, u, after, d, rfl, hu⟩ := ih hts
      exact ⟨before, u, after ++ [t], d, by simp, hu⟩

/-- The definition pass registers just the definitions among the tokens, in any order, or what comes
before the first one that cannot be registered. -/
theorem registerDefinitions_exact (catalog : Catalog) (r : Registry) (ts : List Token) :
    ((∃ out, (registerDefinitions catalog r ts).2 = .ok out) ↔ Registrable r (definitions ts))
      ∧ (∀ out, (registerDefinitions catalog r ts).2 = .ok out →
        out = withoutDefinitions ts
          ∧ r.ExtendedBy (definitions ts) (registerDefinitions catalog r ts).1
          ∧ ∀ us, withoutDefinitions us = withoutDefinitions ts →
            (definitions us).Perm (definitions ts) →
              (registerDefinitions catalog r us).2 = .ok out
                ∧ (∀ name, (registerDefinitions catalog r us).1.lookup name
                  = (registerDefinitions catalog r ts).1.lookup name)
                ∧ (registerDefinitions catalog r us).1.names
                  = (registerDefinitions catalog r ts).1.names)
      ∧ ∀ d, (registerDefinitions catalog r ts).2 = .error d ↔
        ∃ before t after, ts = before ++ t :: after ∧ t.kind = .definition
          ∧ Registrable r (definitions before) ∧ Rejected catalog r (definitions before) t d
          ∧ r.ExtendedBy (definitions before) (registerDefinitions catalog r ts).1 := by
  have hreg : ∀ {out}, (registerDefinitions catalog r ts).2 = .ok out →
      Registrable r (definitions ts) := by
    intro out hout
    by_contra hno
    obtain ⟨before, t, after, d, rfl, ht, hbefore, hd⟩ := exists_rejected catalog hno
    obtain ⟨r', hpass, -⟩ := hbefore.rejected ht hd after
    rw [hpass] at hout
    cases hout
  refine ⟨⟨fun ⟨out, hout⟩ => hreg hout, fun h => ?_⟩, fun out hout => ?_,
    fun d => ⟨fun hout => ?_, ?_⟩⟩
  · obtain ⟨r', hpass, -⟩ := h.registerDefinitions_eq catalog
    exact ⟨_, by rw [hpass]⟩
  · obtain ⟨r', hpass, hextended⟩ := (hreg hout).registerDefinitions_eq catalog
    rw [hpass] at hout ⊢
    cases hout
    refine ⟨rfl, hextended, fun us hothers hperm => ?_⟩
    obtain ⟨r'', hpass', hextended'⟩ :=
      ((hreg (by rw [hpass])).perm hperm.symm).registerDefinitions_eq catalog
    have hlookup := hextended'.lookup_eq hextended hperm
    rw [hpass', hothers]
    exact ⟨rfl, hlookup, Registry.names_eq hlookup⟩
  · have hno : ¬ Registrable r (definitions ts) := by
      intro h
      obtain ⟨r', hpass, -⟩ := h.registerDefinitions_eq catalog
      rw [hpass] at hout
      cases hout
    obtain ⟨before, t, after, d', rfl, ht, hbefore, hd⟩ := exists_rejected catalog hno
    obtain ⟨r', hpass, hextended⟩ := hbefore.rejected ht hd after
    rw [hpass] at hout ⊢
    cases hout
    exact ⟨before, t, after, rfl, ht, hbefore, hd, hextended⟩
  · rintro ⟨before, t, after, rfl, ht, hbefore, hd, -⟩
    obtain ⟨r', hpass, -⟩ := hbefore.rejected ht hd after
    rw [hpass]

end Pass

end HexPatterns
