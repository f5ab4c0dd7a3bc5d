import Mathlib
import HexPatterns.Compilation.Include
import HexPatterns.Proofs.Work

/-!
# Includes are spliced in

What becomes of a file's tokens when its includes are resolved is a tree, a `Splice`: a token is
kept, or it is an include and is dropped, or it is an include and another file's splice is pasted in
its place. A splice `Follows` the names seen so far if it pastes the files of new names and drops
the others. Following the files, a compilation makes such a splice, as long as the depth to which it
may go is larger than the number of names that can still come up (`contribution_contributes`). What
a splice is made of is then a matter of lists.
-/

namespace HexPatterns

/-- The tokens of a file, and what becomes of them. -/
inductive Splice where
  | nil
  /-- The token stays. -/
  | keep (t : Token) (rest : Splice)
  /-- The token is an include, and the file has nothing to contribute. -/
  | drop (t : Token) (path : Path) (rest : Splice)
  /-- The token is an include and gives way to the tokens of the file. -/
  | paste (t : Token) (path : Path) (inside rest : Splice)

namespace Splice

/-- The tokens of the file as it is written. -/
def written : Splice → List Token
  | nil => []
  | keep t rest => t :: rest.written
  | drop t _ rest => t :: rest.written
  | paste t _ _ rest => t :: rest.written

/-- The tokens that come of it. -/
def tokens : Splice → List Token
  | nil => []
  | keep t rest => t :: rest.tokens
  | drop _ _ rest => rest.tokens
  | paste _ _ inside rest => inside.tokens ++ rest.tokens

/-- The files that are pasted, each with its tokens as it is written, in the order in which they are
come across. -/
def files : Splice → List (Path × List Token)
  | nil => []
  | keep _ rest => rest.files
  | drop _ _ rest => rest.files
  | paste _ path inside rest => (path, inside.written) :: (inside.files ++ rest.files)

def names (s : Splice) : List String :=
  s.files.map fun f => f.1.baseName

@[simp] theorem names_nil : nil.names = [] := rfl

@[simp] theorem names_keep (t : Token) (rest : Splice) : (keep t rest).names = rest.names := rfl

@[simp] theorem names_drop (t : Token) (path : Path) (rest : Splice) :
    (drop t path rest).names = rest.names := rfl

@[simp] theorem names_paste (t : Token) (path : Path) (inside rest : Splice) :
    (paste t path inside rest).names = path.baseName :: (inside.names ++ rest.names) := by
  simp [names, files]

theorem insert_union_mem (seen : Set String) (name : String) (names : List String) :
    insert name seen ∪ {n | n ∈ names} = seen ∪ {n | n ∈ name :: names} := by
  ext other
  simp only [Set.mem_union, Set.mem_insert_iff, Set.mem_ofPred_eq, List.mem_cons]
  tauto

theorem union_names_paste (seen : Set String) (t : Token) (path : Path) (inside rest : Splice) :
    seen ∪ {n | n ∈ (paste t path inside rest).names}
      = insert path.baseName seen ∪ {n | n ∈ inside.names} ∪ {n | n ∈ rest.names} := by
  rw [names_paste, ← insert_union_mem, Set.union_assoc]
  congr 1
  ext name
  simp only [Set.mem_union, Set.mem_ofPred_eq, List.mem_append]

end Splice

/-- The tokens of a file that are not includes. -/
def ownTokens (ts : List Token) : List Token :=
  ts.filter fun t => !t.isInclude

section Files

variable {σ : Type} [FileStore σ]

/-- The path that is asked for: as written if that is a file, or else as seen from the file that
asks. -/
def askedPath (s : σ) (includer : String) (requested : Path) : Path :=
  if FileStore.isFile s requested then requested
  else ((Path.parent? ⟨includer⟩).map (·.join requested)).getD requested

/-- An include asks for this file, and the file is there. -/
def Reaches (s : σ) (t : Token) (p : Path) : Prop :=
  ∃ word requested, Text.wordsOf t.content = [word, requested]
    ∧ p = askedPath s t.origin ⟨requested⟩ ∧ FileStore.isFile s p = true

theorem Reaches.isFile {s : σ} {t : Token} {p : Path} (h : Reaches s t p) :
    FileStore.isFile s p = true := by
  obtain ⟨_, _, _, _, hfile⟩ := h
  exact hfile

/-- These are the tokens of the file as it is written. -/
def Lexes (s : σ) (p : Path) (ts : List Token) : Prop :=
  ∃ text, FileStore.read s p = .ok text ∧ Token.scan p.text 0 text.toList = .ok ts

/-- The splice is the one to make when the names in `seen` have been included. -/
def Splice.Follows (s : σ) (seen : Set String) : Splice → Prop
  | nil => True
  | keep t rest => t.isInclude = false ∧ rest.Follows s seen
  | drop t path rest =>
    t.isInclude = true ∧ Reaches s t path ∧ path.baseName ∈ seen ∧ rest.Follows s seen
  | paste t path inside rest =>
    t.isInclude = true ∧ Reaches s t path ∧ path.baseName ∉ seen ∧ Lexes s path inside.written
      ∧ inside.Follows s (insert path.baseName seen)
      ∧ rest.Follows s (insert path.baseName seen ∪ {n | n ∈ inside.names})

namespace Splice.Follows

variable {s : σ}

/-- No name is pasted twice, and none that has been seen. -/
theorem nodup_names : ∀ {x : Splice} {seen : Set String}, x.Follows s seen →
    x.names.Nodup ∧ ∀ n ∈ x.names, n ∉ seen
  | nil, _, _ => by simp
  | keep _ _, _, h => by
    rw [names_keep]
    exact nodup_names h.2
  | drop _ _ _, _, h => by
    rw [names_drop]
    exact nodup_names h.2.2.2
  | paste t path inside rest, seen, h => by
    obtain ⟨-, -, hnew, -, hin, hrest⟩ := h
    obtain ⟨hin, hin'⟩ := nodup_names hin
    obtain ⟨hrest, hrest'⟩ := nodup_names hrest
    simp only [Set.mem_insert_iff, not_or, Set.mem_union, Set.mem_ofPred_eq] at hin' hrest'
    simp only [names_paste, List.nodup_cons, List.nodup_append, List.mem_cons, List.mem_append]
    refine ⟨⟨?_, hin, hrest, ?_⟩, ?_⟩
    · rintro (h | h)
      · exact (hin' _ h).1 rfl
      · exact (hrest' _ h).1.1 rfl
    · rintro n hn _ hn' rfl
      exact (hrest' n hn').2 hn
    · rintro n (rfl | h | h)
      · exact hnew
      · exact (hin' n h).2
      · exact (hrest' n h).1.2

theorem isInclude_of_mem_tokens : ∀ {x : Splice} {seen : Set String}, x.Follows s seen →
    ∀ t ∈ x.tokens, t.isInclude = false
  | nil, _, _ => by simp [tokens]
  | keep u rest, _, h => by
    simp only [tokens, List.mem_cons]
    rintro t (rfl | ht)
    · exact h.1
    · exact isInclude_of_mem_tokens h.2 t ht
  | drop _ _ _, _, h => by
    rw [tokens]
    exact isInclude_of_mem_tokens h.2.2.2
  | paste _ _ _ _, _, h => by
    obtain ⟨-, -, -, -, hin, hrest⟩ := h
    simp only [tokens, List.mem_append]
    rintro t (ht | ht)
    · exact isInclude_of_mem_tokens hin t ht
    · exact isInclude_of_mem_tokens hrest t ht

theorem lexes_of_mem_files : ∀ {x : Splice} {seen : Set String}, x.Follows s seen →
    ∀ f ∈ x.files, Lexes s f.1 f.2
  | nil, _, _ => by simp [files]
  | keep _ _, _, h => by
    rw [files]
    exact lexes_of_mem_files h.2
  | drop _ _ _, _, h => by
    rw [files]
    exact lexes_of_mem_files h.2.2.2
  | paste _ _ _ _, _, h => by
    obtain ⟨-, -, -, hlex, hin, hrest⟩ := h
    simp only [files, List.mem_cons, List.mem_append]
    rintro f (rfl | hf | hf)
    · exact hlex
    · exact lexes_of_mem_files hin f hf
    · exact lexes_of_mem_files hrest f hf

/-- What comes of a splice are the own tokens of its files, each as often as they are there. -/
theorem tokens_perm : ∀ {x : Splice} {seen : Set String}, x.Follows s seen →
    x.tokens.Perm (ownTokens x.written ++ x.files.flatMap fun f => ownTokens f.2)
  | nil, _, _ => .refl _
  | keep t rest, _, h => by
    rw [tokens, written, ownTokens, List.filter_cons_of_pos (by simp [h.1])]
    exact (tokens_perm h.2).cons t
  | drop t _ rest, _, h => by
    rw [tokens, written, ownTokens, List.filter_cons_of_neg (by simp [h.1])]
    exact tokens_perm h.2.2.2
  | paste t path inside rest, _, h => by
    obtain ⟨ht, -, -, -, hin, hrest⟩ := h
    rw [tokens, written, ownTokens, List.filter_cons_of_neg (by simp [ht]), files,
      List.flatMap_cons, List.flatMap_append, ← List.append_assoc (ownTokens inside.written)]
    refine ((tokens_perm hin).append (tokens_perm hrest)).trans ?_
    rw [← List.append_assoc, ← List.append_assoc]
    exact (List.perm_append_comm).append_right _

/-- The own tokens of the files keep their order. -/
theorem ownTokens_sublist : ∀ {x : Splice} {seen : Set String}, x.Follows s seen →
    (ownTokens x.written).Sublist x.tokens ∧ ∀ f ∈ x.files, (ownTokens f.2).Sublist x.tokens
  | nil, _, _ => ⟨.refl _, by simp [files]⟩
  | keep t rest, _, h => by
    obtain ⟨hown, hfiles⟩ := ownTokens_sublist h.2
    rw [tokens, written, ownTokens, List.filter_cons_of_pos (by simp [h.1])]
    exact ⟨hown.cons_cons t, fun f hf => (hfiles f hf).cons t⟩
  | drop t _ rest, _, h => by
    rw [tokens, written, ownTokens, List.filter_cons_of_neg (by simp [h.1])]
    exact ownTokens_sublist h.2.2.2
  | paste t path inside rest, _, h => by
    obtain ⟨ht, -, -, -, hin, hrest⟩ := h
    obtain ⟨hin, hin'⟩ := ownTokens_sublist hin
    obtain ⟨hrest, hrest'⟩ := ownTokens_sublist hrest
    rw [tokens, written, ownTokens, List.filter_cons_of_neg (by simp [ht])]
    refine ⟨hrest.trans (List.sublist_append_right _ _), ?_⟩
    simp only [files, List.mem_cons, List.mem_append]
    rintro f (rfl | hf | hf)
    · exact hin.trans (List.sublist_append_left _ _)
    · exact (hin' f hf).trans (List.sublist_append_left _ _)
    · exact (hrest' f hf).trans (List.sublist_append_right _ _)

end Splice.Follows

end Files

namespace Compilation

variable {σ : Type}

/-- The base names of the files included so far. -/
def seen (c : Compilation σ) : Set String :=
  {n | c.isIncluded n = true}

/-- The names of the files that were taken apart into tokens, in that order. -/
def lexed (c : Compilation σ) : List String :=
  c.log.toList.filterMap fun
    | .stageDone .tokenization name => some name
    | _ => none

@[simp] theorem seen_noting (c : Compilation σ) (e : Event) : (c.noting e).seen = c.seen := rfl

@[simp] theorem seen_new (settings : Settings) (clock : Nat → Nat → Nat) (home : Path)
    (store : σ) : (new settings clock home store).seen = ∅ := by
  ext name
  simp [seen, isIncluded, new]

/-- The compilation, once it has taken apart a file of a new name into tokens. -/
def entered (c : Compilation σ) (name : String) (catalog : Catalog) (ts : List Token) :
    Compilation σ :=
  (noting { c with catalog, included := c.included.insert name }
    (.stageDone .tokenization name)).noting (.ofTokens name ts)

theorem seen_entered (c : Compilation σ) (name : String) (catalog : Catalog) (ts : List Token) :
    (c.entered name catalog ts).seen = insert name c.seen := by
  rw [entered, seen_noting, seen_noting]
  ext other
  simp only [seen, isIncluded, Set.mem_insert_iff, Set.mem_ofPred_eq, Std.HashSet.contains_insert,
    Bool.or_eq_true, beq_iff_eq]
  exact or_congr_left eq_comm

end Compilation

theorem SourceText.scan_eq_ok_iff {source : SourceText} {origin : String} {n : Nat}
    {text : List Char} {ts : List Token} :
    source.scan origin n text = .ok ts ↔ Token.scan origin n text = .ok ts := by
  rw [SourceText.scan]
  cases Token.scan origin n text <;> simp [Except.mapError]

namespace CompileM

variable {σ : Type} [FileStore σ] {c c' : Compilation σ}

theorem gives_includePath {includer : String} {requested p : Path} :
    Gives (includePath includer requested) c p c' ↔
      p = askedPath c.store includer requested ∧ c' = c := by
  simp only [includePath, gives_bind, gives_get, gives_ite, gives_pure, exists_and_left, and_assoc,
    exists_eq_left, askedPath]
  cases Path.parent? ⟨includer⟩ <;> split <;> rfl

theorem gives_includedFile {t : Token} {p : Path} :
    Gives (includedFile t) c p c' ↔ Reaches c.store t p ∧ c' = c := by
  simp only [includedFile, gives_bind, gives_sourceOf, exists_and_left, and_assoc, exists_eq_left]
  unfold Reaches
  split
  · rename_i word requested hwords
    simp only [hwords, gives_bind, gives_includePath, gives_get, gives_ite, gives_pure,
      gives_throw, exists_and_left, and_assoc, exists_eq_left]
    constructor
    · intro h
      split at h
      · rename_i hfile
        obtain ⟨rfl, rfl⟩ := h
        exact ⟨⟨word, requested, rfl, rfl, hfile⟩, rfl⟩
      · exact h.elim
    · rintro ⟨⟨_, _, ⟨⟩, rfl, hfile⟩, rfl⟩
      rw [if_pos hfile]
      exact ⟨rfl, rfl⟩
  · rename_i hno
    simp only [gives_throw, false_iff, not_and]
    rintro ⟨word, requested, hwords, -⟩
    exact absurd hwords (hno word requested)

theorem lexes_of_tokensOf {path : Path} {name : String} {ts : List Token}
    (h : Gives (tokensOf path name) c ts c') (hstd : c.settings.includeStd = false) :
    Lexes c.store path ts ∧ ∃ catalog, c' = { c with catalog } := by
  simp only [tokensOf, gives_bind, gives_get, exists_and_left, and_assoc, exists_eq_left] at h
  split at h
  · simp at h
  · rename_i text htext
    simp only [gives_bind, gives_get, gives_modify, gives_ite, gives_pure, gives_liftM,
      exists_and_left, and_assoc, exists_eq_left, exists_const, hstd, Bool.false_eq_true,
      if_false, SourceText.scan_eq_ok_iff, List.nil_append] at h
    obtain ⟨_, hscan, rfl, rfl⟩ := h
    exact ⟨⟨text, htext, hscan⟩, _, rfl⟩

theorem gives_enter {follow : Path → CompileM σ (List Token)} {path : Path}
    {result : Option (List Token)} :
    Gives (enter follow path) c result c' ↔
      FileStore.isFile c.store path = true
        ∧ if c.isIncluded path.baseName then
            result = none ∧ c' = c.noting (.alreadyIncluded path.baseName)
          else
            ∃ ts d us e,
              Gives (tokensOf path path.baseName)
                { c with included := c.included.insert path.baseName } ts d
              ∧ Gives (resolveIncludesBy follow ts)
                ((d.noting (.stageDone .tokenization path.baseName)).noting
                  (.ofTokens path.baseName ts)) us e
              ∧ result = some us
              ∧ c' = (e.noting (.stageDone .includes path.baseName)).noting
                (.ofTokens path.baseName us) := by
  simp only [enter, gives_bind, gives_get, gives_ite, gives_throw, gives_note, gives_noteStage,
    gives_pure, gives_modify, exists_and_left, and_assoc, exists_eq_left, exists_const, false_and,
    exists_false, if_false_left, Bool.not_eq_true, Bool.not_eq_false']

theorem resolveIncludesBy_append (follow : Path → CompileM σ (List Token)) (ts us : List Token) :
    resolveIncludesBy follow (ts ++ us) = do
      let out ← resolveIncludesBy follow ts
      let rest ← resolveIncludesBy follow us
      return out ++ rest := by
  induction ts with
  | nil => simp [resolveIncludesBy]
  | cons t ts ih =>
    simp only [resolveIncludesBy, List.cons_append, ih]
    split <;> simp only [bind_assoc, pure_bind, List.append_assoc]

theorem gives_resolveIncludesBy_cons {follow : Path → CompileM σ (List Token)} {t : Token}
    {ts out : List Token} :
    Gives (resolveIncludesBy follow (t :: ts)) c out c' ↔
      ∃ here rest d,
        (if t.isInclude then ∃ path, Reaches c.store t path ∧ Gives (follow path) c here d
          else here = [t] ∧ d = c)
        ∧ Gives (resolveIncludesBy follow ts) d rest c' ∧ out = here ++ rest := by
  simp only [resolveIncludesBy, gives_bind, gives_includedFile, gives_ite, gives_pure]
  split
  · constructor
    · rintro ⟨path, _, ⟨hreach, rfl⟩, here, d, hhere, rest, _, hrest, rfl, rfl⟩
      exact ⟨here, rest, d, ⟨path, hreach, hhere⟩, hrest, rfl⟩
    · rintro ⟨here, rest, d, ⟨path, hreach, hhere⟩, hrest, rfl⟩
      exact ⟨path, c, ⟨hreach, rfl⟩, here, d, hhere, rest, c', hrest, rfl, rfl⟩
  · constructor
    · rintro ⟨here, d, hhere, rest, _, hrest, rfl, rfl⟩
      exact ⟨here, rest, d, hhere, hrest, rfl⟩
    · rintro ⟨here, rest, d, hhere, hrest, rfl⟩
      exact ⟨here, d, hhere, rest, c', hrest, rfl, rfl⟩

theorem gives_contribution_succ {n : Nat} {path : Path} {out : List Token} :
    Gives (contribution (n + 1) path) c out c' ↔
      Gives (enter (contribution n) path) c none c' ∧ out = []
        ∨ ∃ d, Gives (enter (contribution n) path) c (some out) d
          ∧ c' = d.noting (.fileDone path.baseName) := by
  simp only [contribution, gives_bind]
  constructor
  · rintro ⟨_ | ts, d, henter, h⟩
    · simp only [gives_pure] at h
      obtain ⟨rfl, rfl⟩ := h
      exact .inl ⟨henter, rfl⟩
    · simp only [gives_bind, gives_note, gives_pure] at h
      obtain ⟨_, _, rfl, rfl, rfl⟩ := h
      exact .inr ⟨d, henter, rfl⟩
  · rintro (⟨henter, rfl⟩ | ⟨d, henter, rfl⟩)
    · exact ⟨none, c', henter, by simp⟩
    · exact ⟨some out, d, henter, by simp⟩

end CompileM

/-- What the work on includes leaves as it is. -/
structure Compilation.Kept {σ : Type} (c c' : Compilation σ) : Prop where
  settings : c'.settings = c.settings
  registry : c'.registry = c.registry
  solver : c'.solver = c.solver
  store : c'.store = c.store

theorem Compilation.Kept.trans {σ : Type} {c d c' : Compilation σ} (h : c.Kept d)
    (h' : d.Kept c') : c.Kept c' :=
  ⟨h'.settings.trans h.settings, h'.registry.trans h.registry, h'.solver.trans h.solver,
    h'.store.trans h.store⟩

namespace CompileM

variable {σ : Type} [FileStore σ] {c c' : Compilation σ}

theorem kept_libraryFiles {files : List Path} (h : Gives libraryFiles c files c') :
    c.Kept c' := by
  simp only [libraryFiles, gives_bind, gives_get, exists_and_left, and_assoc, exists_eq_left] at h
  split at h
  · simp only [gives_pure] at h
    rw [h.2]
    exact ⟨rfl, rfl, rfl, rfl⟩
  · simp only [gives_bind, gives_ite, gives_note, gives_modify, gives_pure, exists_and_left,
      exists_eq_left, exists_const] at h
    split at h
    all_goals
      rw [h.2]
      exact ⟨rfl, rfl, rfl, rfl⟩

theorem kept_tokensOf {path : Path} {name : String} {ts : List Token}
    (h : Gives (tokensOf path name) c ts c') : c.Kept c' := by
  simp only [tokensOf, gives_bind, gives_get, exists_and_left, and_assoc, exists_eq_left] at h
  split at h
  · simp at h
  · simp only [gives_bind, gives_get, gives_modify, gives_ite, gives_pure, gives_liftM,
      exists_and_left, and_assoc, exists_eq_left, exists_const] at h
    split at h
    · obtain ⟨files, d, hfiles, _, -, -, rfl⟩ := h
      have hkept := kept_libraryFiles hfiles
      exact ⟨hkept.settings, hkept.registry, hkept.solver, hkept.store⟩
    · obtain ⟨_, -, -, rfl⟩ := h
      exact ⟨rfl, rfl, rfl, rfl⟩

theorem kept_resolveIncludesBy {follow : Path → CompileM σ (List Token)}
    (hfollow : ∀ {p c ts c'}, Gives (follow p) c ts c' → c.Kept c') :
    ∀ {ts out : List Token} {c c' : Compilation σ},
      Gives (resolveIncludesBy follow ts) c out c' → c.Kept c'
  | [], out, c, c', h => by
    simp only [resolveIncludesBy, gives_pure] at h
    rw [h.2]
    exact ⟨rfl, rfl, rfl, rfl⟩
  | t :: ts, out, c, c', h => by
    obtain ⟨here, rest, d, hhere, hrest, rfl⟩ := gives_resolveIncludesBy_cons.1 h
    have hrest := kept_resolveIncludesBy hfollow hrest
    split at hhere
    · obtain ⟨path, -, hhere⟩ := hhere
      exact (hfollow hhere).trans hrest
    · rw [hhere.2] at hrest
      exact hrest

theorem kept_enter {follow : Path → CompileM σ (List Token)}
    (hfollow : ∀ {p c ts c'}, Gives (follow p) c ts c' → c.Kept c') {path : Path}
    {result : Option (List Token)} (h : Gives (enter follow path) c result c') : c.Kept c' := by
  obtain ⟨-, h⟩ := gives_enter.1 h
  split at h
  · rw [h.2]
    exact ⟨rfl, rfl, rfl, rfl⟩
  · obtain ⟨ts, d, us, e, hts, hus, -, rfl⟩ := h
    have hts := kept_tokensOf hts
    have hus := kept_resolveIncludesBy hfollow hus
    exact ⟨hus.settings.trans hts.settings, hus.registry.trans hts.registry,
      hus.solver.trans hts.solver, hus.store.trans hts.store⟩

theorem kept_contribution : ∀ {n : Nat} {path : Path} {out : List Token} {c c' : Compilation σ},
    Gives (contribution n path) c out c' → c.Kept c'
  | 0, path, out, c, c', h => by
    simp only [contribution, gives_pure] at h
    rw [h.2]
    exact ⟨rfl, rfl, rfl, rfl⟩
  | n + 1, path, out, c, c', h => by
    rcases gives_contribution_succ.1 h with ⟨henter, -⟩ | ⟨d, henter, rfl⟩
    · exact kept_enter kept_contribution henter
    · exact (kept_enter kept_contribution henter).trans ⟨rfl, rfl, rfl, rfl⟩

end CompileM

section Unseen

variable {σ : Type} {N : Finset String} {c c' : Compilation σ}

/-- How many of the names have not been seen. -/
def unseen (N : Finset String) (c : Compilation σ) : Nat :=
  (N.filter fun n => c.isIncluded n = false).card

theorem unseen_le (h : c.seen ⊆ c'.seen) : unseen N c' ≤ unseen N c := by
  refine Finset.card_le_card fun name hname => ?_
  simp only [Finset.mem_filter] at hname ⊢
  refine ⟨hname.1, Bool.eq_false_iff.2 fun hc => ?_⟩
  have hc' : c'.isIncluded name = true := h hc
  rw [hname.2] at hc'
  cases hc'

theorem unseen_lt_unseen {name : String} (h : c'.seen = insert name c.seen) (hname : name ∈ N)
    (hnew : name ∉ c.seen) : unseen N c' < unseen N c := by
  refine Finset.card_lt_card ⟨fun other hother => ?_, fun hsub => ?_⟩
  · simp only [Finset.mem_filter] at hother ⊢
    refine ⟨hother.1, Bool.eq_false_iff.2 fun hc => ?_⟩
    have hc' : other ∈ c'.seen := h ▸ Set.mem_insert_of_mem _ hc
    rw [Compilation.seen, Set.mem_ofPred_eq, hother.2] at hc'
    cases hc'
  · have hold : name ∈ N.filter fun n => c.isIncluded n = false :=
      Finset.mem_filter.2 ⟨hname, Bool.eq_false_iff.2 hnew⟩
    have hgone := (Finset.mem_filter.1 (hsub hold)).2
    have hseen : name ∈ c'.seen := h ▸ Set.mem_insert _ _
    rw [Compilation.seen, Set.mem_ofPred_eq, hgone] at hseen
    cases hseen

/-- The compilation is on the store, without the library, and fewer than `n` names are to come. -/
structure Ready (s : σ) (N : Finset String) (n : Nat) (c : Compilation σ) : Prop where
  store : c.store = s
  std : c.settings.includeStd = false
  unseen_lt : unseen N c < n

variable {s : σ} {n : Nat}

theorem Ready.mono (h : Ready s N n c) (hkept : c.Kept c') (hseen : c.seen ⊆ c'.seen) :
    Ready s N n c' :=
  ⟨hkept.store.trans h.store, hkept.settings ▸ h.std, (unseen_le hseen).trans_lt h.unseen_lt⟩

/-- Once a new name is seen, one name less is to come. -/
theorem Ready.entered {name : String} (h : Ready s N (n + 1) c) (hname : name ∈ N)
    (hnew : name ∉ c.seen) (catalog : Catalog) (ts : List Token) :
    Ready s N n (c.entered name catalog ts) := by
  refine ⟨h.store, h.std, ?_⟩
  have hlt := unseen_lt_unseen (c.seen_entered name catalog ts) hname hnew
  exact Nat.lt_of_lt_of_le hlt (Nat.le_of_lt_succ h.unseen_lt)

end Unseen

section Contributions

variable {σ : Type} [FileStore σ]

/-- What a file contributes: nothing if its name has been seen, or else what comes of its splice.
The names of the splice are the ones that are seen from now on, and each of their files has been
taken apart into tokens once. -/
def Contributes (c : Compilation σ) (p : Path) (out : List Token) (c' : Compilation σ) : Prop :=
  p.baseName ∈ c.seen ∧ out = [] ∧ c'.seen = c.seen ∧ c'.lexed = c.lexed
  ∨ p.baseName ∉ c.seen ∧ ∃ inside : Splice,
    Lexes c.store p inside.written
      ∧ inside.Follows c.store (insert p.baseName c.seen)
      ∧ out = inside.tokens
      ∧ c'.seen = insert p.baseName c.seen ∪ {n | n ∈ inside.names}
      ∧ c'.lexed = c.lexed ++ p.baseName :: inside.names

theorem Contributes.seen_subset {c c' : Compilation σ} {p : Path} {out : List Token}
    (h : Contributes c p out c') : c.seen ⊆ c'.seen := by
  rcases h with ⟨-, -, hseen, -⟩ | ⟨-, inside, -, -, -, hseen, -⟩
  · rw [hseen]
  · rw [hseen]
    exact (Set.subset_insert _ _).trans Set.subset_union_left

/-- Includes lead from the paths `P` to none but the paths `P`, and their names are among `N`. -/
structure ClosedUnder (s : σ) (P : Path → Prop) (N : Finset String) : Prop where
  step : ∀ {u v ts t}, P u → Lexes s u ts → t ∈ ts → t.isInclude = true → Reaches s t v → P v
  baseName_mem : ∀ {u}, P u → u.baseName ∈ N

variable {s : σ} {P : Path → Prop} {N : Finset String} {n : Nat} {c c' : Compilation σ}

open CompileM

/-- The tokens of a file become a splice, if each of its includes is followed to a contribution. -/
theorem exists_splice {follow : Path → CompileM σ (List Token)}
    (hkept : ∀ {p c ts c'}, Gives (follow p) c ts c' → c.Kept c')
    (hfollow : ∀ {p c ts c'}, P p → Ready s N n c → Gives (follow p) c ts c' →
      Contributes c p ts c') :
    ∀ {ts out : List Token} {c c' : Compilation σ},
      (∀ t ∈ ts, t.isInclude = true → ∀ p, Reaches s t p → P p) → Ready s N n c →
      Gives (resolveIncludesBy follow ts) c out c' →
        ∃ x : Splice, x.written = ts ∧ x.Follows s c.seen ∧ out = x.tokens
          ∧ c'.seen = c.seen ∪ {n | n ∈ x.names} ∧ c'.lexed = c.lexed ++ x.names
  | [], out, c, c', _, _, h => by
    simp only [resolveIncludesBy, gives_pure] at h
    obtain ⟨rfl, rfl⟩ := h
    exact ⟨.nil, rfl, trivial, rfl, by simp, by simp⟩
  | t :: ts, out, c, c', hP, hready, h => by
    obtain ⟨here, rest, d, hhere, hrest, rfl⟩ := gives_resolveIncludesBy_cons.1 h
    have hP' : ∀ t ∈ ts, t.isInclude = true → ∀ p, Reaches s t p → P p :=
      fun t ht => hP t (List.mem_cons_of_mem _ ht)
    split at hhere
    · rename_i ht
      obtain ⟨path, hreach, hhere⟩ := hhere
      rw [hready.store] at hreach
      have hc := hfollow (hP t List.mem_cons_self ht path hreach) hready hhere
      obtain ⟨x, hwritten, hx, rfl, hseen, hlexed⟩ :=
        exists_splice hkept hfollow hP' (hready.mono (hkept hhere) hc.seen_subset) hrest
      rcases hc with ⟨hold, rfl, hsame, hsame'⟩ | ⟨hnew, inside, hlex, hin, rfl, hgrow, hgrow'⟩
      · rw [hsame] at hx hseen
        rw [hsame'] at hlexed
        exact ⟨.drop t path x, by rw [Splice.written, hwritten], ⟨ht, hreach, hold, hx⟩, rfl,
          hseen, hlexed⟩
      · rw [hgrow] at hx hseen
        rw [hgrow'] at hlexed
        rw [hready.store] at hlex hin
        refine ⟨.paste t path inside x, by rw [Splice.written, hwritten],
          ⟨ht, hreach, hnew, hlex, hin, hx⟩, rfl, ?_, by simp [hlexed]⟩
        rw [hseen, Splice.union_names_paste]
    · rename_i ht
      obtain ⟨rfl, rfl⟩ := hhere
      obtain ⟨x, hwritten, hx, rfl, hseen, hlexed⟩ := exists_splice hkept hfollow hP' hready hrest
      exact ⟨.keep t x, by rw [Splice.written, hwritten], ⟨by simpa using ht, hx⟩, rfl, hseen,
        hlexed⟩

theorem contributes_of_enter {follow : Path → CompileM σ (List Token)}
    (hclosed : ClosedUnder s P N)
    (hkept : ∀ {p c ts c'}, Gives (follow p) c ts c' → c.Kept c')
    (hfollow : ∀ {p c ts c'}, P p → Ready s N n c → Gives (follow p) c ts c' →
      Contributes c p ts c')
    {path : Path} {result : Option (List Token)} (hpath : P path) (hready : Ready s N (n + 1) c)
    (h : Gives (enter follow path) c result c') : Contributes c path (result.getD []) c' := by
  obtain ⟨-, h⟩ := gives_enter.1 h
  split at h
  · rename_i hold
    obtain ⟨rfl, rfl⟩ := h
    exact .inl ⟨hold, rfl, rfl, by simp [Compilation.lexed]⟩
  · rename_i hnew
    obtain ⟨ts, d, us, e, hts, hus, rfl, rfl⟩ := h
    obtain ⟨hlex, catalog, rfl⟩ := lexes_of_tokensOf hts hready.std
    have hlex : Lexes s path ts := hready.store ▸ hlex
    have hnext := hready.entered (hclosed.baseName_mem hpath) hnew catalog ts
    obtain ⟨x, hwritten, hx, rfl, hseen, hlexed⟩ := exists_splice hkept hfollow
      (fun t ht hinc p hreach => hclosed.step hpath hlex ht hinc hreach) hnext hus
    rw [Compilation.seen_entered] at hx hseen
    refine .inr ⟨hnew, x, ?_, ?_, rfl, hseen, ?_⟩
    · rw [hwritten, hready.store]
      exact hlex
    · rw [hready.store]
      exact hx
    · simpa [Compilation.lexed, Compilation.entered, Event.ofTokens] using hlexed

/-- As long as more names may come than are to come, following a path gives what its file
contributes. -/
theorem contribution_contributes (hclosed : ClosedUnder s P N) :
    ∀ {n : Nat} {path : Path} {out : List Token} {c c' : Compilation σ}, P path →
      Ready s N n c → Gives (contribution n path) c out c' → Contributes c path out c'
  | 0, _, _, _, _, _, hready, _ => absurd hready.unseen_lt (Nat.not_lt_zero _)
  | n + 1, path, out, c, c', hpath, hready, h => by
    have hin : ∀ {result d}, Gives (enter (contribution n) path) c result d →
        Contributes c path (result.getD []) d :=
      contributes_of_enter hclosed kept_contribution (contribution_contributes hclosed) hpath hready
    rcases gives_contribution_succ.1 h with ⟨henter, rfl⟩ | ⟨d, henter, rfl⟩
    · exact hin henter
    · have hlexed : (d.noting (.fileDone path.baseName)).lexed = d.lexed := by
        simp [Compilation.lexed]
      rw [Contributes, hlexed]
      exact hin henter

theorem gives_tokensOf_of_read {path : Path} {text : String} {ts : List Token} (name : String)
    (hstd : c.settings.includeStd = false) (htext : FileStore.read c.store path = .ok text)
    (hscan : Token.scan path.text 0 text.toList = .ok ts) :
    Gives (tokensOf path name) c ts
      { c with catalog := c.catalog.insert path.text (.ofText name text) } := by
  simp [tokensOf, htext, hstd, SourceText.scan_eq_ok_iff, hscan]

theorem gives_tokensOf {path : Path} {ts : List Token} (name : String)
    (hstd : c.settings.includeStd = false) (hlex : Lexes c.store path ts) :
    ∃ catalog, Gives (tokensOf path name) c ts { c with catalog } := by
  obtain ⟨text, htext, hscan⟩ := hlex
  exact ⟨_, gives_tokensOf_of_read name hstd htext hscan⟩

/-- A splice that follows is the one that is made, if every file is followed to its splice. -/
theorem gives_resolveIncludesBy_of_follows {follow : Path → CompileM σ (List Token)}
    (hkept : ∀ {p c ts c'}, Gives (follow p) c ts c' → c.Kept c')
    (hold : ∀ {p c}, Ready s N n c → FileStore.isFile s p = true → p.baseName ∈ c.seen →
      ∃ c', Gives (follow p) c [] c' ∧ c'.seen = c.seen)
    (hnew : ∀ {p c} {inside : Splice}, P p → Ready s N n c → FileStore.isFile s p = true →
      p.baseName ∉ c.seen → Lexes s p inside.written →
      inside.Follows s (insert p.baseName c.seen) →
        ∃ c', Gives (follow p) c inside.tokens c'
          ∧ c'.seen = insert p.baseName c.seen ∪ {n | n ∈ inside.names}) :
    ∀ {x : Splice} {c : Compilation σ}, x.Follows s c.seen →
      (∀ t ∈ x.written, t.isInclude = true → ∀ p, Reaches s t p → P p) → Ready s N n c →
        ∃ c', Gives (resolveIncludesBy follow x.written) c x.tokens c'
          ∧ c'.seen = c.seen ∪ {n | n ∈ x.names}
  | .nil, c, _, _, _ => ⟨c, by simp [Splice.written, Splice.tokens, resolveIncludesBy], by simp⟩
  | .keep t rest, c, h, hP, hready => by
    obtain ⟨c', hrest, hseen⟩ := gives_resolveIncludesBy_of_follows hkept hold hnew h.2
      (fun u hu => hP u (List.mem_cons_of_mem _ hu)) hready
    exact ⟨c', gives_resolveIncludesBy_cons.2 ⟨[t], rest.tokens, c, by simp [h.1], hrest, rfl⟩,
      hseen⟩
  | .drop t path rest, c, h, hP, hready => by
    obtain ⟨ht, hreach, hmem, hrest⟩ := h
    obtain ⟨d, hd, hdseen⟩ := hold hready hreach.isFile hmem
    obtain ⟨c', hrest, hseen⟩ := gives_resolveIncludesBy_of_follows hkept hold hnew
      (hdseen ▸ hrest) (fun u hu => hP u (List.mem_cons_of_mem _ hu))
      (hready.mono (hkept hd) hdseen.superset)
    refine ⟨c', gives_resolveIncludesBy_cons.2 ⟨[], rest.tokens, d, ?_, hrest, rfl⟩, ?_⟩
    · rw [if_pos ht]
      exact ⟨path, hready.store ▸ hreach, hd⟩
    · rw [hseen, hdseen]
      rfl
  | .paste t path inside rest, c, h, hP, hready => by
    obtain ⟨ht, hreach, hfresh, hlex, hin, hrest⟩ := h
    obtain ⟨d, hd, hdseen⟩ := hnew (hP t List.mem_cons_self ht path hreach) hready hreach.isFile
      hfresh hlex hin
    have hgrow : c.seen ⊆ d.seen := by
      rw [hdseen]
      exact (Set.subset_insert _ _).trans Set.subset_union_left
    obtain ⟨c', hrest, hseen⟩ := gives_resolveIncludesBy_of_follows hkept hold hnew
      (hdseen ▸ hrest) (fun u hu => hP u (List.mem_cons_of_mem _ hu))
      (hready.mono (hkept hd) hgrow)
    refine ⟨c', gives_resolveIncludesBy_cons.2 ⟨inside.tokens, rest.tokens, d, ?_, hrest, rfl⟩, ?_⟩
    · rw [if_pos ht]
      exact ⟨path, hready.store ▸ hreach, hd⟩
    · rw [hseen, hdseen, Splice.union_names_paste]

/-- A file whose name is new contributes what comes of the splice that follows. -/
theorem gives_contribution_of_follows (hclosed : ClosedUnder s P N) :
    ∀ {n : Nat} {path : Path} {c : Compilation σ} {inside : Splice}, P path → Ready s N n c →
      FileStore.isFile s path = true → path.baseName ∉ c.seen → Lexes s path inside.written →
      inside.Follows s (insert path.baseName c.seen) →
        ∃ c', Gives (contribution n path) c inside.tokens c'
          ∧ c'.seen = insert path.baseName c.seen ∪ {n | n ∈ inside.names}
  | 0, _, _, _, _, hready, _, _, _, _ => absurd hready.unseen_lt (Nat.not_lt_zero _)
  | n + 1, path, c, inside, hpath, hready, hfile, hnew, hlex, hin => by
    obtain ⟨catalog, htokens⟩ := gives_tokensOf path.baseName
      (c := { c with included := c.included.insert path.baseName }) hready.std
      (hready.store ▸ hlex)
    have hold : ∀ {p c}, Ready s N n c → FileStore.isFile s p = true → p.baseName ∈ c.seen →
        ∃ c', Gives (contribution n p) c [] c' ∧ c'.seen = c.seen := by
      intro p c hready hfile hmem
      obtain ⟨m, rfl⟩ := Nat.exists_eq_succ_of_ne_zero (Nat.ne_zero_of_lt hready.unseen_lt)
      refine ⟨c.noting (.alreadyIncluded p.baseName), gives_contribution_succ.2 (.inl ⟨?_, rfl⟩),
        rfl⟩
      exact gives_enter.2 ⟨hready.store ▸ hfile, by simp [hmem.out]⟩
    obtain ⟨d, hd, hseen⟩ := gives_resolveIncludesBy_of_follows kept_contribution hold
      (gives_contribution_of_follows hclosed) (c.seen_entered _ catalog inside.written ▸ hin)
      (fun t ht hinc p hreach => hclosed.step hpath hlex ht hinc hreach)
      (hready.entered (hclosed.baseName_mem hpath) hnew catalog inside.written)
    rw [Compilation.seen_entered] at hseen
    refine ⟨_, gives_contribution_succ.2 (.inr
      ⟨(d.noting (.stageDone .includes path.baseName)).noting
        (.ofTokens path.baseName inside.tokens),
      gives_enter.2 ⟨hready.store ▸ hfile, ?_⟩, rfl⟩), hseen⟩
    have hnew : ¬ c.isIncluded path.baseName = true := hnew
    rw [if_neg hnew]
    exact ⟨inside.written, _, inside.tokens, d, htokens, hd, rfl, rfl⟩

end Contributions

end HexPatterns
