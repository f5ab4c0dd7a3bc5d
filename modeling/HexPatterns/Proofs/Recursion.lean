import Mathlib
import HexPatterns.Proofs.Growth
import HexPatterns.Proofs.Nesting
import HexPatterns.Proofs.Pasting

/-!
# Includes come to an end

The work on a file calls for the work on the files that it includes. `Runs` says what that comes to
if nothing bounds the depth of the calls: a run is a finite tree, with a branch for each include,
those of the library among them. It tells how many files are entered inside one another, and the
names of all that are entered. A name is marked before anything is included, so with each file that
is entered one name less is new. So the work on a file has a run (`realizes_parseFile`), and no name
is entered twice in it (`Runs.names_nodup`).
-/

namespace HexPatterns

/-- What is worked on: a file, or tokens whose includes are to be resolved. -/
inductive Task
  | file (mode : Mode) (path : Path)
  | tokens (ts : List Token)

namespace Compilation

variable {σ : Type} (c : Compilation σ)

/-- The compilation, once a name is included. -/
def marked (name : String) : Compilation σ := { c with included := c.included.insert name }

/-- The compilation, once it has noted that a stage is done. -/
def staged (stage : Stage) (name : String) (ts : List Token) : Compilation σ :=
  (c.noting (.stageDone stage name)).noting (.ofTokens name ts)

theorem seen_marked (name : String) : (c.marked name).seen = insert name c.seen :=
  c.seen_entered name c.catalog []

theorem grows_staged (stage : Stage) (name : String) (ts : List Token) :
    c.Grows (c.staged stage name ts) :=
  ((Grows.refl c).noting _).noting _

end Compilation

namespace CompileM

variable {σ : Type}

/-- What is left to do on a file once its includes are resolved. -/
def finish : Mode → String → List Token → CompileM σ (List Token)
  | .full, name, ts => expandFile name ts
  | .includesOnly, name, ts => do
    note (.fileDone name)
    return ts

theorem adds_finish (mode : Mode) (name : String) (ts : List Token) :
    Adds (finish mode name ts : CompileM σ (List Token)) := by
  cases mode with
  | full => exact adds_expandFile name ts
  | includesOnly => exact (adds_note _).bind fun _ => adds_pure _

variable [FileStore σ]

/-- The work on a file, with the files that it includes left to `follow`. -/
def parseBy (follow : Path → CompileM σ (List Token)) (mode : Mode) (path : Path) :
    CompileM σ (List Token) := do
  match ← enter follow path with
  | none => return []
  | some ts => finish mode path.baseName ts

theorem expandedTokens_eq_parseBy (path : Path) :
    (expandedTokens path : CompileM σ (List Token)) = parseBy includeFile .full path := rfl

theorem contribution_succ_eq_parseBy (n : Nat) (path : Path) :
    (contribution (n + 1) path : CompileM σ (List Token))
      = parseBy (contribution n) .includesOnly path := rfl

end CompileM

open CompileM

section Runs

variable {σ : Type} [FileStore σ]

theorem Reaches.unique {s : σ} {t : Token} {p q : Path} (h : Reaches s t p) (h' : Reaches s t q) :
    p = q := by
  obtain ⟨_, _, hwords, rfl, -⟩ := h
  obtain ⟨_, _, hwords', rfl, -⟩ := h'
  rw [hwords] at hwords'
  cases hwords'
  rfl

/-- A run from one compilation to another and its result. The number tells how many files are
entered inside one another at most, and the list the names of the files that are entered, in order.
A file is entered when it is there and its name is new. -/
inductive Runs : Task → Compilation σ → Nat → List String → Except Diagnostic (List Token) →
    Compilation σ → Prop
  | missing {c : Compilation σ} {mode : Mode} {path : Path}
      (hfile : FileStore.isFile c.store path = false) :
      Runs (.file mode path) c 0 [] (.error (.unlocated (.fileNotFound path.text))) c
  | again {c : Compilation σ} {mode : Mode} {path : Path}
      (hfile : FileStore.isFile c.store path = true)
      (hseen : c.isIncluded path.baseName = true) :
      Runs (.file mode path) c 0 [] (.ok []) (c.noting (.alreadyIncluded path.baseName))
  /-- The text of the file cannot be taken apart into tokens. -/
  | unread {c c' : Compilation σ} {mode : Mode} {path : Path} {d : Diagnostic}
      (hfile : FileStore.isFile c.store path = true)
      (hnew : c.isIncluded path.baseName = false)
      (htokens : Fails (tokensOf path path.baseName) (c.marked path.baseName) d c') :
      Runs (.file mode path) c 1 [path.baseName] (.error d) c'
  /-- The includes of the file cannot be resolved. -/
  | broken {c d c' : Compilation σ} {mode : Mode} {path : Path} {ts : List Token} {n : Nat}
      {names : List String} {e : Diagnostic}
      (hfile : FileStore.isFile c.store path = true)
      (hnew : c.isIncluded path.baseName = false)
      (htokens : Gives (tokensOf path path.baseName) (c.marked path.baseName) ts d)
      (hinside :
        Runs (.tokens ts) (d.staged .tokenization path.baseName ts) n names (.error e) c') :
      Runs (.file mode path) c (n + 1) (path.baseName :: names) (.error e) c'
  | whole {c d e c' : Compilation σ} {mode : Mode} {path : Path} {ts us : List Token} {n : Nat}
      {names : List String} {r : Except Diagnostic (List Token)}
      (hfile : FileStore.isFile c.store path = true)
      (hnew : c.isIncluded path.baseName = false)
      (htokens : Gives (tokensOf path path.baseName) (c.marked path.baseName) ts d)
      (hinside : Runs (.tokens ts) (d.staged .tokenization path.baseName ts) n names (.ok us) e)
      (hfinish : (finish mode path.baseName us).run.run (e.staged .includes path.baseName us)
        = (r, c')) :
      Runs (.file mode path) c (n + 1) (path.baseName :: names) r c'
  | nil {c : Compilation σ} : Runs (.tokens []) c 0 [] (.ok []) c
  | keep {c c' : Compilation σ} {t : Token} {ts : List Token} {n : Nat} {names : List String}
      {r : Except Diagnostic (List Token)} (ht : t.isInclude = false)
      (hrest : Runs (.tokens ts) c n names r c') :
      Runs (.tokens (t :: ts)) c n names (r.map ([t] ++ ·)) c'
  /-- The include does not lead to a file. -/
  | lost {c c' : Compilation σ} {t : Token} {ts : List Token} {d : Diagnostic}
      (ht : t.isInclude = true) (hlost : Fails (includedFile t) c d c') :
      Runs (.tokens (t :: ts)) c 0 [] (.error d) c'
  /-- The work on the included file fails. -/
  | stuck {c c' : Compilation σ} {t : Token} {ts : List Token} {path : Path} {n : Nat}
      {names : List String} {d : Diagnostic} (ht : t.isInclude = true)
      (hreach : Reaches c.store t path)
      (hhere : Runs (.file .includesOnly path) c n names (.error d) c') :
      Runs (.tokens (t :: ts)) c n names (.error d) c'
  | paste {c d c' : Compilation σ} {t : Token} {ts here : List Token} {path : Path} {n m : Nat}
      {names names' : List String} {r : Except Diagnostic (List Token)}
      (ht : t.isInclude = true) (hreach : Reaches c.store t path)
      (hhere : Runs (.file .includesOnly path) c n names (.ok here) d)
      (hrest : Runs (.tokens ts) d m names' r c') :
      Runs (.tokens (t :: ts)) c (max n m) (names ++ names') (r.map (here ++ ·)) c'

/-- Where the includes of a file are resolved, its own name is included. -/
theorem grows_of_tokensOf {c d : Compilation σ} {path : Path} {ts : List Token}
    (hnew : c.isIncluded path.baseName = false)
    (h : Gives (tokensOf path path.baseName) (c.marked path.baseName) ts d) :
    c.Grows (d.staged .tokenization path.baseName ts)
      ∧ (d.staged .tokenization path.baseName ts).isIncluded path.baseName = true := by
  obtain ⟨hgrows, hmark⟩ := (ensures_tokensOf_marked hnew).1 _ _ h
  exact ⟨hgrows.trans (d.grows_staged ..), hmark⟩

namespace Runs

variable {task : Task} {c c' : Compilation σ} {n : Nat} {names : List String}
  {r : Except Diagnostic (List Token)}

/-- The names of the files that a run enters are included from then on. -/
theorem grows (h : Runs task c n names r c') :
    c.Grows c' ∧ ∀ name ∈ names, c'.isIncluded name = true := by
  induction h with
  | missing hfile => exact ⟨.refl _, by simp⟩
  | again hfile hseen => exact ⟨(Compilation.Grows.refl _).noting _, by simp⟩
  | unread hfile hnew htokens =>
    obtain ⟨hgrows, hmark⟩ := (ensures_tokensOf_marked hnew).2 _ _ htokens
    exact ⟨hgrows, List.forall_mem_singleton.2 hmark⟩
  | broken hfile hnew htokens _ ih =>
    obtain ⟨hgrows, hmark⟩ := grows_of_tokensOf hnew htokens
    exact ⟨hgrows.trans ih.1, List.forall_mem_cons.2 ⟨ih.1.included _ hmark, ih.2⟩⟩
  | @whole _ _ e _ mode path _ us _ _ _ hfile hnew htokens _ hfinish ih =>
    obtain ⟨hgrows, hmark⟩ := grows_of_tokensOf hnew htokens
    have hend := (e.grows_staged .includes path.baseName us).trans
      ((adds_finish mode _ us).grows_of_run hfinish)
    exact ⟨(hgrows.trans ih.1).trans hend, List.forall_mem_cons.2
      ⟨(ih.1.trans hend).included _ hmark, fun name hname => hend.included name (ih.2 name hname)⟩⟩
  | nil => exact ⟨.refl _, by simp⟩
  | keep ht _ ih => exact ih
  | lost ht hlost => exact ⟨(adds_includedFile _ _).2 _ _ hlost, by simp⟩
  | stuck ht hreach _ ih => exact ih
  | paste ht hreach _ _ ihhere ihrest =>
    refine ⟨ihhere.1.trans ihrest.1, List.forall_mem_append.2 ⟨fun name hname => ?_, ihrest.2⟩⟩
    exact ihrest.1.included name (ihhere.2 name hname)

/-- A file is entered before the files inside of it, so its name is none of theirs. -/
theorem nodup_cons_of_tokensOf {d : Compilation σ} {path : Path} {ts : List Token}
    (hnew : c.isIncluded path.baseName = false)
    (htokens : Gives (tokensOf path path.baseName) (c.marked path.baseName) ts d)
    (h : names.Nodup
      ∧ ∀ name ∈ names, (d.staged .tokenization path.baseName ts).isIncluded name = false) :
    (path.baseName :: names).Nodup
      ∧ ∀ name ∈ path.baseName :: names, c.isIncluded name = false := by
  obtain ⟨hnodup, hfresh⟩ := h
  obtain ⟨hgrows, hmark⟩ := grows_of_tokensOf hnew htokens
  refine ⟨List.nodup_cons.2 ⟨fun hmem => ?_, hnodup⟩, List.forall_mem_cons.2
    ⟨hnew, fun name hname => hgrows.isIncluded_eq_false (hfresh name hname)⟩⟩
  exact Bool.eq_false_iff.1 (hfresh _ hmem) hmark

/-- No name is entered twice, and none that was included before. -/
theorem names_nodup (h : Runs task c n names r c') :
    names.Nodup ∧ ∀ name ∈ names, c.isIncluded name = false := by
  induction h with
  | missing hfile => simp
  | again hfile hseen => simp
  | unread hfile hnew htokens => exact ⟨List.nodup_singleton _, List.forall_mem_singleton.2 hnew⟩
  | broken hfile hnew htokens _ ih => exact nodup_cons_of_tokensOf hnew htokens ih
  | whole hfile hnew htokens _ hfinish ih => exact nodup_cons_of_tokensOf hnew htokens ih
  | nil => simp
  | keep ht _ ih => exact ih
  | lost ht hlost => simp
  | stuck ht hreach _ ih => exact ih
  | paste ht hreach hhere _ ihhere ihrest =>
    obtain ⟨hgrows, hmarks⟩ := hhere.grows
    refine ⟨List.nodup_append.2 ⟨ihhere.1, ihrest.1, ?_⟩, List.forall_mem_append.2
      ⟨ihhere.2, fun name hname => hgrows.isIncluded_eq_false (ihrest.2 name hname)⟩⟩
    rintro name hname _ hname' rfl
    exact Bool.eq_false_iff.1 (ihrest.2 name hname') (hmarks name hname)

/-- The names are those of files. -/
theorem exists_isFile (h : Runs task c n names r c') :
    ∀ name ∈ names, ∃ path : Path, FileStore.isFile c.store path = true ∧ path.baseName = name := by
  induction h with
  | missing hfile => simp
  | again hfile hseen => simp
  | unread hfile hnew htokens => exact List.forall_mem_singleton.2 ⟨_, hfile, rfl⟩
  | broken hfile hnew htokens _ ih =>
    rw [(grows_of_tokensOf hnew htokens).1.store] at ih
    exact List.forall_mem_cons.2 ⟨⟨_, hfile, rfl⟩, ih⟩
  | whole hfile hnew htokens _ hfinish ih =>
    rw [(grows_of_tokensOf hnew htokens).1.store] at ih
    exact List.forall_mem_cons.2 ⟨⟨_, hfile, rfl⟩, ih⟩
  | nil => simp
  | keep ht _ ih => exact ih
  | lost ht hlost => simp
  | stuck ht hreach _ ih => exact ih
  | paste ht hreach hhere _ ihhere ihrest =>
    rw [hhere.grows.1.store] at ihrest
    exact List.forall_mem_append.2 ⟨ihhere, ihrest⟩

/-- Files inside one another have a name each. -/
theorem depth_le (h : Runs task c n names r c') : n ≤ names.length := by
  induction h with
  | missing hfile => exact Nat.zero_le _
  | again hfile hseen => exact Nat.zero_le _
  | unread hfile hnew htokens => exact le_rfl
  | broken hfile hnew htokens _ ih => exact Nat.succ_le_succ ih
  | whole hfile hnew htokens _ hfinish ih => exact Nat.succ_le_succ ih
  | nil => exact le_rfl
  | keep ht _ ih => exact ih
  | lost ht hlost => exact Nat.zero_le _
  | stuck ht hreach _ ih => exact ih
  | paste ht hreach _ _ ihhere ihrest =>
    rw [List.length_append]
    omega

/-- Nothing is left open: the store, the included names and the parts of a run decide its cases. -/
theorem unique (h : Runs task c n names r c') :
    ∀ {m : Nat} {names' : List String} {r' : Except Diagnostic (List Token)}
      {c'' : Compilation σ}, Runs task c m names' r' c'' →
        m = n ∧ names' = names ∧ r' = r ∧ c'' = c' := by
  induction h with
  | missing hfile =>
    intro m names' r' c'' h'
    cases h' <;> simp_all
  | again hfile hseen =>
    intro m names' r' c'' h'
    cases h' <;> simp_all
  | unread hfile hnew htokens =>
    intro m names' r' c'' h'
    cases h' with
    | missing hfile' => simp_all
    | again _ hseen' => simp_all
    | unread _ _ htokens' =>
      cases htokens.symm.trans htokens'
      exact ⟨rfl, rfl, rfl, rfl⟩
    | broken _ _ htokens' => exact absurd htokens htokens'.not_fails
    | whole _ _ htokens' => exact absurd htokens htokens'.not_fails
  | broken hfile hnew htokens _ ih =>
    intro m names' r' c'' h'
    cases h' with
    | missing hfile' => simp_all
    | again _ hseen' => simp_all
    | unread _ _ htokens' => exact absurd htokens' htokens.not_fails
    | broken _ _ htokens' hinside' =>
      obtain ⟨rfl, rfl⟩ := htokens.unique htokens'
      obtain ⟨rfl, rfl, hr, rfl⟩ := ih hinside'
      exact ⟨rfl, rfl, hr, rfl⟩
    | whole _ _ htokens' hinside' =>
      obtain ⟨rfl, rfl⟩ := htokens.unique htokens'
      cases (ih hinside').2.2.1
  | whole hfile hnew htokens _ hfinish ih =>
    intro m names' r' c'' h'
    cases h' with
    | missing hfile' => simp_all
    | again _ hseen' => simp_all
    | unread _ _ htokens' => exact absurd htokens' htokens.not_fails
    | broken _ _ htokens' hinside' =>
      obtain ⟨rfl, rfl⟩ := htokens.unique htokens'
      cases (ih hinside').2.2.1
    | whole _ _ htokens' hinside' hfinish' =>
      obtain ⟨rfl, rfl⟩ := htokens.unique htokens'
      obtain ⟨rfl, rfl, hr, rfl⟩ := ih hinside'
      cases hr
      cases hfinish.symm.trans hfinish'
      exact ⟨rfl, rfl, rfl, rfl⟩
  | nil =>
    intro m names' r' c'' h'
    cases h'
    exact ⟨rfl, rfl, rfl, rfl⟩
  | keep ht _ ih =>
    intro m names' r' c'' h'
    cases h' with
    | keep _ hrest' =>
      obtain ⟨rfl, rfl, rfl, rfl⟩ := ih hrest'
      exact ⟨rfl, rfl, rfl, rfl⟩
    | lost ht' => simp_all
    | stuck ht' => simp_all
    | paste ht' => simp_all
  | lost ht hlost =>
    intro m names' r' c'' h'
    cases h' with
    | keep ht' => simp_all
    | lost _ hlost' =>
      cases hlost.symm.trans hlost'
      exact ⟨rfl, rfl, rfl, rfl⟩
    | stuck _ hreach' => exact absurd hlost (gives_includedFile.2 ⟨hreach', rfl⟩).not_fails
    | paste _ hreach' => exact absurd hlost (gives_includedFile.2 ⟨hreach', rfl⟩).not_fails
  | stuck ht hreach _ ih =>
    intro m names' r' c'' h'
    cases h' with
    | keep ht' => simp_all
    | lost _ hlost' => exact absurd hlost' (gives_includedFile.2 ⟨hreach, rfl⟩).not_fails
    | stuck _ hreach' hhere' =>
      cases hreach.unique hreach'
      obtain ⟨rfl, rfl, hr, rfl⟩ := ih hhere'
      exact ⟨rfl, rfl, hr, rfl⟩
    | paste _ hreach' hhere' =>
      cases hreach.unique hreach'
      cases (ih hhere').2.2.1
  | paste ht hreach _ _ ihhere ihrest =>
    intro m names' r' c'' h'
    cases h' with
    | keep ht' => simp_all
    | lost _ hlost' => exact absurd hlost' (gives_includedFile.2 ⟨hreach, rfl⟩).not_fails
    | stuck _ hreach' hhere' =>
      cases hreach.unique hreach'
      cases (ihhere hhere').2.2.1
    | paste _ hreach' hhere' hrest' =>
      cases hreach.unique hreach'
      obtain ⟨rfl, rfl, hr, rfl⟩ := ihhere hhere'
      cases hr
      obtain ⟨rfl, rfl, rfl, rfl⟩ := ihrest hrest'
      exact ⟨rfl, rfl, rfl, rfl⟩

end Runs

end Runs

namespace CompileM

variable {σ : Type} [FileStore σ] {s : σ} {N : Finset String} {k : Nat}
  {follow : Path → CompileM σ (List Token)} {c : Compilation σ}

/-- However the work ends, there is a run that ends so. -/
def Realizes (x : CompileM σ (List Token)) (task : Task) (c : Compilation σ) : Prop :=
  Ensures x c (fun ts c' => ∃ n names, Runs task c n names (.ok ts) c')
    (fun d c' => ∃ n names, Runs task c n names (.error d) c')

theorem realizes_resolveIncludesBy
    (hfollow : ∀ {p : Path} {c : Compilation σ}, c.store = s → unseen N c < k →
      Realizes (follow p) (.file .includesOnly p) c) :
    ∀ {ts : List Token} {c : Compilation σ}, c.store = s → unseen N c < k →
      Realizes (resolveIncludesBy follow ts) (.tokens ts) c
  | [], c, hc, hk => by
    rw [Realizes, resolveIncludesBy, ensures_pure]
    exact ⟨0, [], .nil⟩
  | t :: ts, c, hc, hk => by
    unfold Realizes
    simp only [resolveIncludesBy, ensures_ite, ensures_bind, ensures_pure]
    split
    · rename_i ht
      refine ⟨fun p d hp => ?_, fun e d hlost => ⟨0, [], .lost ht hlost⟩⟩
      obtain ⟨hreach, rfl⟩ := gives_includedFile.1 hp
      refine (hfollow hc hk).mono ?_ ?_
      · rintro here d ⟨n, names, hhere⟩
        obtain ⟨hgrows, -⟩ := hhere.grows
        refine (realizes_resolveIncludesBy hfollow (hgrows.store.trans hc)
          ((unseen_le hgrows.included).trans_lt hk)).mono ?_ ?_
        · rintro rest c' ⟨m, names', hrest⟩
          exact ⟨_, _, .paste ht hreach hhere hrest⟩
        · rintro e c' ⟨m, names', hrest⟩
          exact ⟨_, _, .paste ht hreach hhere hrest⟩
      · rintro e d ⟨n, names, hhere⟩
        exact ⟨n, names, .stuck ht hreach hhere⟩
    · rename_i ht
      have ht : t.isInclude = false := Bool.eq_false_iff.2 ht
      refine (realizes_resolveIncludesBy hfollow hc hk).mono ?_ ?_
      · rintro rest c' ⟨n, names, hrest⟩
        exact ⟨n, names, .keep ht hrest⟩
      · rintro e c' ⟨n, names, hrest⟩
        exact ⟨n, names, .keep ht hrest⟩

/-- One more file can be entered than inside of it, as its name is new. -/
theorem realizes_parseBy (hN : ∀ p, FileStore.isFile s p = true → p.baseName ∈ N)
    (hfollow : ∀ {p : Path} {c : Compilation σ}, c.store = s → unseen N c < k →
      Realizes (follow p) (.file .includesOnly p) c)
    (mode : Mode) (path : Path) (hc : c.store = s) (hk : unseen N c < k + 1) :
    Realizes (parseBy follow mode path) (.file mode path) c := by
  unfold Realizes
  simp only [parseBy, enter, ensures_bind, ensures_get, ensures_ite, ensures_throw, ensures_note,
    ensures_pure, ensures_modify, ensures_noteStage]
  split
  · rename_i hfile
    exact ⟨0, [], .missing (by simpa using hfile)⟩
  · rename_i hfile
    have hfile : FileStore.isFile c.store path = true := by simpa using hfile
    split
    · rename_i hseen
      exact ⟨0, [], .again hfile hseen⟩
    · rename_i hnew
      have hnew : c.isIncluded path.baseName = false := Bool.eq_false_iff.2 hnew
      refine ⟨fun ts d htokens => ?_, fun e d htokens => ⟨1, _, .unread hfile hnew htokens⟩⟩
      obtain ⟨hgrows, hmark⟩ := grows_of_tokensOf hnew htokens
      have hless : unseen N (d.staged .tokenization path.baseName ts) < k := by
        have hseen : (c.marked path.baseName).seen
            ⊆ (d.staged .tokenization path.baseName ts).seen := by
          rw [Compilation.seen_marked]
          exact Set.insert_subset hmark hgrows.included
        have hlt : unseen N (c.marked path.baseName) < unseen N c :=
          unseen_lt_unseen (c.seen_marked _) (hN path (hc ▸ hfile)) (Bool.eq_false_iff.1 hnew)
        exact ((unseen_le hseen).trans_lt hlt).trans_le (Nat.le_of_lt_succ hk)
      have hresolve : Realizes (resolveIncludesBy follow ts) (.tokens ts)
          (d.staged .tokenization path.baseName ts) :=
        realizes_resolveIncludesBy hfollow (hgrows.store.trans hc) hless
      refine hresolve.mono ?_ ?_
      · rintro us e ⟨n, names, hinside⟩
        exact ⟨fun out c' h => ⟨n + 1, _, .whole hfile hnew htokens hinside h⟩,
          fun d c' h => ⟨n + 1, _, .whole hfile hnew htokens hinside h⟩⟩
      · rintro e c' ⟨n, names, hinside⟩
        exact ⟨n + 1, _, .broken hfile hnew htokens hinside⟩

theorem realizes_contribution (hN : ∀ p, FileStore.isFile s p = true → p.baseName ∈ N) :
    ∀ {n : Nat} {path : Path} {c : Compilation σ}, c.store = s → unseen N c < n →
      Realizes (contribution n path) (.file .includesOnly path) c
  | 0, _, _, _, hn => absurd hn (Nat.not_lt_zero _)
  | n + 1, path, c, hc, hn => by
    rw [contribution_succ_eq_parseBy]
    exact realizes_parseBy hN (realizes_contribution hN) .includesOnly path hc hn

theorem realizes_parseFile (hN : ∀ p, FileStore.isFile s p = true → p.baseName ∈ N)
    (hnesting : ∀ p, N.card < FileStore.nesting s p) (mode : Mode) (path : Path)
    (hc : c.store = s) : Realizes (parseFile mode path) (.file mode path) c := by
  have hinclude : ∀ {p : Path} {c : Compilation σ}, c.store = s →
      Realizes (includeFile p) (.file .includesOnly p) c := by
    intro p c hc
    unfold Realizes
    rw [includeFile, ensures_bind, ensures_get, hc]
    exact realizes_contribution hN hc ((Finset.card_filter_le _ _).trans_lt (hnesting p))
  cases mode with
  | full =>
    rw [parseFile, expandedTokens_eq_parseBy]
    exact realizes_parseBy hN (fun hc _ => hinclude hc) .full path hc (Nat.lt_succ_self _)
  | includesOnly => exact hinclude hc

end CompileM

namespace FileSet

/-- The base names of the files. -/
def baseNames (s : FileSet) : Finset String :=
  (s.files.map fun f => f.1.baseName).toFinset

/-- A path under which a file is found ends in the same file name. -/
theorem baseName_mem {s : FileSet} (hnamed : ∀ f ∈ s.files, f.1.fileName?.isSome = true) {p : Path}
    (hfile : FileStore.isFile s p = true) : p.baseName ∈ s.baseNames := by
  obtain ⟨f, hf⟩ := Option.isSome_iff_exists.1 (show (s.find? p).isSome = true from hfile)
  rw [find?] at hf
  have hmem : f ∈ s.files := List.mem_of_find?_eq_some hf
  obtain ⟨name, hname⟩ := Option.isSome_iff_exists.1 (hnamed f hmem)
  have hsame := List.find?_some hf
  rw [Path.baseName_eq_of_same hname hsame, baseNames, List.mem_toFinset]
  exact List.mem_map.2 ⟨f, hmem, rfl⟩

theorem card_baseNames_lt_nesting (s : FileSet) (p : Path) :
    s.baseNames.card < FileStore.nesting s p := by
  have hsub : s.baseNames ⊆ shortNames (s.reach p) := by
    intro name hname
    obtain ⟨f, hf, rfl⟩ := List.mem_map.1 (List.mem_toFinset.1 hname)
    have hwidth : f.1.text.length ≤ s.width := (le_max_left _ _).trans
      (le_foldr_max (fun f : Path × String => max f.1.text.length f.2.length) hf)
    have hreach : s.width ≤ s.reach p := by
      have hmax : s.width ≤ max s.width p.text.length + 1 := (le_max_left _ _).trans (Nat.le_succ _)
      exact hmax.trans (Nat.le_mul_of_pos_left _ (Nat.succ_pos _))
    exact mem_shortNames ((Path.length_baseName_le _).trans (hwidth.trans hreach))
  calc s.baseNames.card ≤ (shortNames (s.reach p)).card := Finset.card_le_card hsub
    _ ≤ 2 ^ (21 * s.reach p) := card_shortNames_le _
    _ < 2 ^ (21 * (s.reach p + 1)) := Nat.pow_lt_pow_right (by norm_num) (by omega)

end FileSet

/-- In a file set whose paths have file names, the work on any file comes to an end, whatever the
compilation has been through: it has exactly one run, which is finite. No more files are entered
inside one another than there are base names, and no name is entered twice. -/
theorem parseFile_runs (c : Compilation FileSet)
    (hnamed : ∀ f ∈ c.store.files, f.1.fileName?.isSome = true) (mode : Mode) (path : Path) :
    ∃ depth names result c', (parseFile mode path).run.run c = (result, c')
      ∧ Runs (.file mode path) c depth names result c'
      ∧ (∀ depth' names' result' c'', Runs (.file mode path) c depth' names' result' c'' →
          depth' = depth ∧ names' = names ∧ result' = result ∧ c'' = c')
      ∧ depth ≤ c.store.baseNames.card
      ∧ names.Nodup
      ∧ ∀ name ∈ names, name ∈ c.store.baseNames ∧ c.isIncluded name = false := by
  have hrealizes : Realizes (parseFile mode path) (.file mode path) c :=
    realizes_parseFile (fun _ => FileSet.baseName_mem hnamed) c.store.card_baseNames_lt_nesting mode
      path rfl
  obtain ⟨depth, names, result, c', hrun, hruns⟩ : ∃ depth names result c',
      (parseFile mode path).run.run c = (result, c')
        ∧ Runs (.file mode path) c depth names result c' := by
    rcases gives_or_fails (parseFile mode path) c with ⟨ts, c', h⟩ | ⟨d, c', h⟩
    · obtain ⟨depth, names, hruns⟩ := hrealizes.1 ts c' h
      exact ⟨depth, names, .ok ts, c', h, hruns⟩
    · obtain ⟨depth, names, hruns⟩ := hrealizes.2 d c' h
      exact ⟨depth, names, .error d, c', h, hruns⟩
  obtain ⟨hnodup, hfresh⟩ := hruns.names_nodup
  have hmem : ∀ name ∈ names, name ∈ c.store.baseNames := fun name hname => by
    obtain ⟨p, hfile, rfl⟩ := hruns.exists_isFile name hname
    exact FileSet.baseName_mem hnamed hfile
  have hdepth : depth ≤ c.store.baseNames.card :=
    calc depth ≤ names.length := hruns.depth_le
      _ = names.toFinset.card := (List.toFinset_card_of_nodup hnodup).symm
      _ ≤ c.store.baseNames.card :=
        Finset.card_le_card fun name hname => hmem name (List.mem_toFinset.1 hname)
  exact ⟨depth, names, result, c', hrun, hruns, fun _ _ _ _ h => hruns.unique h, hdepth, hnodup,
    fun name hname => ⟨hmem name hname, hfresh name hname⟩⟩

/-- A file that includes itself, beside a library whose files include each other. -/
def selfIncluding : FileSet :=
  ⟨[(⟨"main.macrohex"⟩, "#include ./main.macrohex\n!m"),
    (⟨"std/a.macrohex"⟩, "#include b.macrohex\n!a"),
    (⟨"std/b.macrohex"⟩, "#include a.macrohex\n!b")]⟩

/-- With the library in front of every file, files are entered at most three deep. -/
theorem parseFile_runs_selfIncluding :
    let c := Compilation.new Settings.default (fun _ _ => 0) ⟨""⟩ selfIncluding
    c.settings.includeStd = true
      ∧ (∀ f ∈ c.store.files, f.1.fileName?.isSome = true)
      ∧ ∃ depth names result c', (parseFile .full ⟨"main.macrohex"⟩).run.run c = (result, c')
        ∧ Runs (.file .full ⟨"main.macrohex"⟩) c depth names result c'
        ∧ depth ≤ 3 ∧ names.Nodup
        ∧ ∀ name ∈ names, name ∈ ["main.macrohex", "a.macrohex", "b.macrohex"] := by
  intro c
  have hnamed : ∀ f ∈ c.store.files, f.1.fileName?.isSome = true := by decide
  have hnames : c.store.baseNames = {"main.macrohex", "a.macrohex", "b.macrohex"} := by decide
  obtain ⟨depth, names, result, c', hrun, hruns, -, hdepth, hnodup, hmem⟩ :=
    parseFile_runs c hnamed .full ⟨"main.macrohex"⟩
  rw [hnames] at hdepth hmem
  refine ⟨rfl, hnamed, depth, names, result, c', hrun, hruns, hdepth, hnodup, fun name hname => ?_⟩
  simpa using (hmem name hname).1

end HexPatterns
