import Mathlib
import HexPatterns.Proofs.Outlook

/-!
# The library in front of a file

With the library on, includes of all its files stand in front of every file, its own files among
them. The first of them that is new is entered, and in front of it are the includes of the others.
So the library is read from its last file to its first (`CompileM.gives_injected`). From there on it
is quiet, and what follows is the file's own (`includeFile_injects`).
-/

namespace HexPatterns

open Compilation

namespace CompileM

section Library

variable {σ : Type} [FileStore σ] {s : σ} {tokens : Path → List Token} {c c' : Compilation σ}
  {follow : Path → CompileM σ (List Token)} {depth : Path → Nat}

/-- On the store, every path is followed to its own depth. -/
def FollowsTo (s : σ) (depth : Path → Nat) (follow : Path → CompileM σ (List Token)) : Prop :=
  ∀ q c, c.store = s → (follow q).run.run c = (contribution (depth q) q).run.run c

theorem followsTo_contribution (n : Nat) : FollowsTo s (fun _ => n) (contribution n) :=
  fun _ _ _ => rfl

theorem followsTo_includeFile : FollowsTo s (FileStore.nesting s) includeFile := by
  intro q c hstore
  rw [includeFile, (gives_get.2 ⟨rfl, rfl⟩).run_bind, hstore]

/-- The includes of files that have been included add nothing. -/
theorem gives_libraryTokens_again (hfollow : FollowsTo s depth follow) (origin : String) :
    ∀ {files : List Path} {c : Compilation σ}, c.store = s →
      (∀ f ∈ files, Includable s f (tokens f)) → (∀ f ∈ files, f.baseName ∈ c.seen) →
        ∃ c', Gives (resolveIncludesBy follow (libraryTokens origin files)) c [] c' ∧ Level c c'
  | [], c, _, _, _ => ⟨c, gives_pure.2 ⟨rfl, rfl⟩, .refl c⟩
  | f :: files, c, hstore, hfiles, hseen => by
    obtain ⟨hf, hfiles⟩ := List.forall_mem_cons.1 hfiles
    obtain ⟨hold, hseen⟩ := List.forall_mem_cons.1 hseen
    obtain ⟨log, hlog, -⟩ := gives_contribution_again (depth f) (hstore ▸ hf.isFile) hold
    have hhere : Gives (follow f) c [] { c with log } := (hfollow f c hstore).trans hlog
    obtain ⟨c', hrest, hlevel⟩ :=
      gives_libraryTokens_again hfollow origin (c := { c with log }) hstore hfiles hseen
    exact ⟨c', gives_libraryTokens_cons (hstore ▸ hf) hhere hrest, hlevel.outlook, hlevel.seen⟩

/-- A file that is new is entered with the includes of the library in front of its tokens. -/
theorem run_enter (follow : Path → CompileM σ (List Token)) {path : Path} {own : List Token}
    (hfile : FileStore.isFile c.store path = true) (hnew : path.baseName ∉ c.seen)
    (hlex : Lexes c.store path own) :
    ∃ d, Level (c.marked path.baseName) d ∧ (enter follow path).run.run c = (do
      let out ← resolveIncludesBy follow (c.injected path ++ own)
      noteStage .includes path.baseName out
      return some out : CompileM σ _).run.run d := by
  obtain ⟨d, htokens, hlevel⟩ :=
    gives_tokensOf_injected (c := c.marked path.baseName) path.baseName hlex
  have hnew : c.isIncluded path.baseName = false := Bool.eq_false_iff.2 hnew
  refine ⟨_, hlevel.trans (level_staged d .tokenization path.baseName (c.injected path ++ own)),
    ?_⟩
  rw [enter, (gives_get.2 ⟨rfl, rfl⟩).run_bind]
  simp only [hfile, Bool.not_true, Bool.false_eq_true, if_false]
  rw [(gives_get.2 ⟨rfl, rfl⟩).run_bind]
  simp only [hnew, Bool.false_eq_true, if_false]
  have hmark : Gives (modify fun c => { c with included := c.included.insert path.baseName }) c ⟨⟩
      (c.marked path.baseName) := gives_modify.2 rfl
  rw [hmark.run_bind, htokens.run_bind, Gives.run_bind (a := ⟨⟩) (gives_noteStage.2 rfl)]
  rfl

/-- A new file without includes of its own: what the library gives is put in front of it. -/
theorem exists_gives_contribution {n : Nat} {f : Path} {own : List Token}
    (hf : Includable c.store f own) (hnew : f.baseName ∉ c.seen) :
    ∃ d, Level (c.marked f.baseName) d ∧ ∀ out e,
      Gives (resolveIncludesBy (contribution n) (c.injected f)) d out e →
        ∃ c', Gives (contribution (n + 1) f) c (out ++ own) c' ∧ Level e c' := by
  obtain ⟨d, hlevel, hrun⟩ := run_enter (contribution n) hf.isFile hnew hf.lexes
  refine ⟨d, hlevel, fun out e hout => ?_⟩
  have hall :
      Gives (resolveIncludesBy (contribution n) (c.injected f ++ own)) d (out ++ own) e := by
    rw [resolveIncludesBy_append]
    exact gives_bind.2 ⟨out, e, hout, gives_bind.2
      ⟨own, e, gives_resolveIncludesBy_of_own hf.own, gives_pure.2 ⟨rfl, rfl⟩⟩⟩
  have henter : Gives (enter (contribution n) f) c (some (out ++ own))
      (e.staged .includes f.baseName (out ++ own)) := by
    refine hrun.trans (gives_bind.2 ⟨_, e, hall, gives_bind.2 ⟨⟨⟩, _, ?_, gives_pure.2 ⟨rfl, rfl⟩⟩⟩)
    exact gives_noteStage.2 rfl
  exact ⟨_, gives_contribution_succ.2 (.inr ⟨_, henter, rfl⟩),
    (level_staged ..).trans (level_noting ..)⟩

/-- The library while it is read: some of its files are done, the names of the others are new. -/
structure Reading (s : σ) (tokens : Path → List Token) (done todo : List Path)
    (c : Compilation σ) : Prop where
  outlook : c.outlook = (s, true, done ++ todo)
  files : ∀ f ∈ done ++ todo, Includable s f (tokens f)
  seen : ∀ f ∈ done, f.baseName ∈ c.seen
  nodup : (todo.map Path.baseName).Nodup
  unseen : ∀ f ∈ todo, f.baseName ∉ c.seen

theorem Reading.store {done todo : List Path} (h : Reading s tokens done todo c) : c.store = s :=
  congrArg Prod.fst h.outlook

theorem Reading.level {done todo : List Path} (h : Reading s tokens done todo c)
    (hlevel : Level c c') : Reading s tokens done todo c' :=
  ⟨hlevel.outlook.trans h.outlook, h.files, hlevel.seen.symm ▸ h.seen, h.nodup,
    hlevel.seen.symm ▸ h.unseen⟩

theorem Reading.next {done todo : List Path} {f : Path}
    (h : Reading s tokens done (f :: todo) c) :
    Reading s tokens (done ++ [f]) todo (c.marked f.baseName) := by
  have hsplit : (done ++ [f]) ++ todo = done ++ f :: todo := by simp
  obtain ⟨hfirst, hnodup⟩ := List.nodup_cons.1 h.nodup
  refine ⟨hsplit ▸ h.outlook, hsplit ▸ h.files, ?_, hnodup, ?_⟩
  · rw [seen_marked]
    intro g hg
    rcases List.mem_append.1 hg with hg | hg
    · exact .inr (h.seen g hg)
    · exact .inl (by rw [List.mem_singleton.1 hg])
  · rw [seen_marked]
    rintro g hg (heq | hold)
    · exact hfirst (heq ▸ List.mem_map_of_mem hg)
    · exact h.unseen g (List.mem_cons_of_mem _ hg) hold

/-- The library is read from the last of its files to the first. Those that are done add nothing. -/
theorem gives_injected : ∀ {todo done : List Path} {follow : Path → CompileM σ (List Token)}
    {depth : Path → Nat} {c : Compilation σ}, Reading s tokens done todo c →
    FollowsTo s depth follow → (∀ f ∈ todo, todo.length ≤ depth f) → ∀ origin,
      ∃ c', Gives (resolveIncludesBy follow (libraryTokens origin (done ++ todo))) c
          (todo.reverse.flatMap tokens) c'
        ∧ c'.outlook = c.outlook ∧ c'.seen = c.seen ∪ {n | n ∈ todo.map Path.baseName}
  | [], done, follow, depth, c, h, hfollow, _, origin => by
    obtain ⟨c', hgives, hlevel⟩ := gives_libraryTokens_again hfollow origin h.store
      (fun f hf => h.files f (List.mem_append_left _ hf)) h.seen
    rw [List.append_nil]
    exact ⟨c', hgives, hlevel.outlook, by simp [hlevel.seen]⟩
  | f :: todo, done, follow, depth, c, h, hfollow, hdepth, origin => by
    have hf := h.files f (by simp)
    have htodo : ∀ g ∈ todo, Includable s g (tokens g) := fun g hg => h.files g (by simp [hg])
    obtain ⟨hfdepth, -⟩ := List.forall_mem_cons.1 hdepth
    obtain ⟨k, hk⟩ := Nat.exists_eq_add_one.2 (Nat.zero_lt_of_lt hfdepth)
    rw [hk, List.length_cons, Nat.add_le_add_iff_right] at hfdepth
    obtain ⟨c₁, hc₁, hlevel₁⟩ := gives_libraryTokens_again hfollow origin h.store
      (fun g hg => h.files g (List.mem_append_left _ hg)) h.seen
    have h₁ := h.level hlevel₁
    obtain ⟨d, hd, hnext⟩ := exists_gives_contribution (n := k) (h₁.store.symm ▸ hf)
      (h₁.unseen f List.mem_cons_self)
    have hreading := h₁.next.level hd
    obtain ⟨e, he, heo, hes⟩ := gives_injected hreading (followsTo_contribution k)
      (fun _ _ => hfdepth) f.text
    have houtlook₁ : c₁.outlook = (s, true, (done ++ [f]) ++ todo) := h₁.next.outlook
    rw [← injected_eq houtlook₁] at he
    obtain ⟨c₂, hc₂, hlevel₂⟩ := hnext _ e he
    have hhere : Gives (follow f) c₁ (todo.reverse.flatMap tokens ++ tokens f) c₂ := by
      rw [← hk] at hc₂
      exact (hfollow f c₁ h₁.store).trans hc₂
    have hseen₂ : c₂.seen = c.seen ∪ {n | n ∈ (f :: todo).map Path.baseName} := by
      rw [hlevel₂.seen, hes, hd.seen, seen_marked, hlevel₁.seen]
      ext n
      simp [or_assoc, or_left_comm]
    have houtlook₂ : c₂.outlook = c.outlook := by
      rw [hlevel₂.outlook, heo, hd.outlook]
      exact hlevel₁.outlook
    obtain ⟨c', hc', hlevel'⟩ := gives_libraryTokens_again hfollow origin
      ((store_of_outlook houtlook₂).trans h.store) htodo fun g hg => by
        rw [hseen₂]
        exact .inr (List.mem_map_of_mem (List.mem_cons_of_mem f hg))
    refine ⟨c', ?_, hlevel'.outlook.trans houtlook₂, hlevel'.seen.trans hseen₂⟩
    have hrest := gives_libraryTokens_cons (h₁.store.symm ▸ hf) hhere hc'
    rw [libraryTokens, List.map_append, resolveIncludesBy_append]
    refine gives_bind.2 ⟨[], c₁, hc₁, gives_bind.2 ⟨_, c', hrest, gives_pure.2 ⟨?_, rfl⟩⟩⟩
    simp

/-- Once the library is read, it is quiet. -/
theorem quiet_of_seen {files : List Path} (houtlook : c.outlook = (s, true, files))
    (hfiles : ∀ f ∈ files, Includable s f (tokens f)) (hseen : ∀ f ∈ files, f.baseName ∈ c.seen) :
    Quiet c := by
  intro path t ht q hq
  have hstore : c.store = s := congrArg Prod.fst houtlook
  rw [injected_eq houtlook] at ht
  rw [hstore] at hq
  obtain ⟨f, hf, rfl⟩ := List.mem_map.1 ht
  have hreach := reaches_libraryToken (hfiles f hf).isFile (hfiles f hf).text_ne
    (hfiles f hf).unspaced path.text
  rw [hq.unique hreach]
  exact hseen f hf

end Library

section Main

variable {σ : Type} [FileStore σ] {s : σ} {tokens : Path → List Token} {c d : Compilation σ}
  {follow follow' : Path → CompileM σ (List Token)} {depth depth' : Path → Nat}

theorem agree_of_suffices (hfollow : FollowsTo c.store depth follow)
    (hfollow' : FollowsTo c.store depth' follow') (hquiet : Quiet c) {q : Path}
    (hq : ∀ c', Later c c' → Suffices (depth q) c' q ∧ Suffices (depth' q) c' q) :
    Agree follow follow' c q := by
  intro c' d' hlater hlevel
  have hstore := store_of_outlook hlater.outlook
  refine .of_run (hfollow q c' hstore)
    (hfollow' q d' ((store_of_outlook hlevel.outlook).trans hstore)) ?_
  exact inStep_contribution (hquiet.later hlater) (hq c' hlater).1 (hq c' hlater).2 hlevel

/-- A new file in front of which a library is read: what follows is the file's own, as where the
names are known already. -/
theorem inStep_enter_injected {main : Path} {own : List Token} {files : List Path}
    (hfollow : FollowsTo s depth follow) (hfollow' : FollowsTo s depth' follow')
    (hreading : Reading s tokens [] files (c.marked main.baseName))
    (hfile : FileStore.isFile s main = true) (hnew : main.baseName ∉ c.seen)
    (hlex : Lexes s main own) (hdepth : ∀ f ∈ files, files.length ≤ depth f)
    (hsuffices : ∀ t ∈ own, t.isInclude = true → ∀ q, Reaches s t q →
      ∀ c', Later (c.marked main.baseName) c' → Suffices (depth q) c' q ∧ Suffices (depth' q) c' q)
    (houtlook : d.outlook = c.outlook)
    (hseen : d.seen = (c.marked main.baseName).seen ∪ {n | n ∈ files.map Path.baseName}) :
    InStep (fun out c' rest d' => out = some (files.reverse.flatMap tokens ++ rest) ∧ Level c' d')
      (enter follow main) c (resolveIncludesBy follow' own) d := by
  have hstore : c.store = s := hreading.store
  subst hstore
  have hc : c.outlook = (c.store, true, files) := hreading.outlook
  obtain ⟨e, he, hrun⟩ := run_enter follow hfile hnew hlex
  obtain ⟨c₁, hc₁, houtlook₁, hseen₁⟩ := gives_injected (hreading.level he) hfollow hdepth main.text
  have houtlook₁ : c₁.outlook = c.outlook := houtlook₁.trans he.outlook
  have hlater : Later (c.marked main.baseName) c₁ :=
    ⟨houtlook₁, by rw [hseen₁, he.seen]; exact Set.subset_union_left⟩
  have hlevel : Level c₁ d := ⟨houtlook.trans houtlook₁.symm, by rw [hseen, hseen₁, he.seen]⟩
  have hquiet : Quiet c₁ := quiet_of_seen (houtlook₁.trans hc) hreading.files
    fun f hf => by
      rw [hseen₁]
      exact .inr (List.mem_map_of_mem hf)
  have hown : InStep (SameEnd c₁) (resolveIncludesBy follow own) c₁
      (resolveIncludesBy follow' own) d := by
    have hstore₁ := store_of_outlook houtlook₁
    refine inStep_resolveIncludesBy hlevel fun t ht hinclude q hq => ?_
    refine agree_of_suffices (hstore₁ ▸ hfollow) (hstore₁ ▸ hfollow') hquiet fun c' hc' => ?_
    exact hsuffices t ht hinclude q (hstore₁ ▸ hq) c' (hlater.trans hc')
  rw [← bind_pure (resolveIncludesBy follow' own)]
  refine .of_run hrun rfl ?_
  rw [injected_eq hc, resolveIncludesBy_append, bind_assoc]
  refine .of_run hc₁.run_bind rfl ?_
  rw [bind_assoc]
  refine hown.bind ?_
  rintro rest c₂ _ d₂ ⟨rfl, -, hlevel₂⟩
  rw [pure_bind]
  refine .of_run (Gives.run_bind (a := ⟨⟩) (gives_noteStage.2 rfl)) rfl (.of_pure ⟨rfl, ?_⟩)
  exact (level_staged ..).symm.trans hlevel₂

end Main

end CompileM

/-- The compilation, as if the files had been included. -/
def Compilation.knowing {σ : Type} (c : Compilation σ) (paths : List Path) : Compilation σ :=
  paths.foldl (fun c p => c.marked p.baseName) c

namespace Compilation

variable {σ : Type}

theorem seen_knowing : ∀ (paths : List Path) (c : Compilation σ),
    (c.knowing paths).seen = c.seen ∪ {n | n ∈ paths.map Path.baseName}
  | [], c => by simp [knowing]
  | p :: paths, c => by
    have h := seen_knowing paths (c.marked p.baseName)
    rw [seen_marked] at h
    rw [show c.knowing (p :: paths) = (c.marked p.baseName).knowing paths from rfl, h]
    ext n
    simp [or_assoc, or_left_comm]

theorem outlook_knowing [FileStore σ] : ∀ (paths : List Path) (c : Compilation σ),
    (c.knowing paths).outlook = c.outlook
  | [], _ => rfl
  | p :: paths, c => outlook_knowing paths (c.marked p.baseName)

end Compilation

section Sets

open CompileM

variable {store : FileSet} {dir : Path} {files : List Path}

theorem FileSet.sourcesUnder_of_mem (h : (store.sourcesUnder dir).getD [] = files) {f : Path}
    (hf : f ∈ files) : store.sourcesUnder dir = some files := by
  cases hsources : store.sourcesUnder dir with
  | none =>
    rw [hsources] at h
    rw [← h] at hf
    cases hf
  | some found =>
    rw [hsources] at h
    rw [← h]
    rfl

/-- Files of different base names are fewer than includes are followed deep. -/
theorem FileSet.length_lt_nesting (h : (store.sourcesUnder dir).getD [] = files)
    (hnodup : (files.map Path.baseName).Nodup) (p : Path) :
    files.length < FileStore.nesting store p := by
  refine lt_of_le_of_lt ?_ (store.card_baseNames_lt_nesting p)
  rw [← List.length_map Path.baseName, ← List.toFinset_card_of_nodup hnodup]
  refine Finset.card_le_card fun name hname => ?_
  obtain ⟨f, hf, rfl⟩ := List.mem_map.1 (List.mem_toFinset.1 hname)
  obtain ⟨g, hg, rfl⟩ := List.mem_map.1 (mem_of_sourcesUnder (sourcesUnder_of_mem h hf) hf).1
  exact List.mem_toFinset.2 (List.mem_map.2 ⟨g, hg, rfl⟩)

theorem CompileM.suffices_nesting (c : Compilation FileSet) (q : Path) :
    Suffices (FileStore.nesting c.store q) c q :=
  ⟨_, _, c.store.closedUnder_near q, FileSet.near_self, c.store.unseen_lt_nesting q c⟩

theorem FileSet.isFile_of_lexes {p : Path} {ts : List Token} (h : Lexes store p ts) :
    FileStore.isFile store p = true := by
  obtain ⟨text, hread, -⟩ := h
  obtain ⟨f, hf, hcomponents, -⟩ := exists_mem_of_read hread
  exact List.find?_isSome.2 ⟨f, hf, by simp [Path.same, hcomponents]⟩

/-- The library of a new compilation, once the name of a first file is marked. -/
theorem CompileM.reading_new {settings : Settings} {home main : Path} {tokens : Path → List Token}
    (clock : Nat → Nat → Nat) (hstd : settings.includeStd = true)
    (hfiles : (store.sourcesUnder (settings.libraryPath home)).getD [] = files)
    (hnames : (main.baseName :: files.map Path.baseName).Nodup)
    (hunspaced : ∀ f ∈ files, f.Unspaced) (hlex : ∀ f ∈ files, Lexes store f (tokens f))
    (hown : ∀ f ∈ files, ∀ t ∈ tokens f, t.isInclude = false) :
    Reading store tokens [] files
      ((Compilation.new settings clock home store).marked main.baseName) := by
  obtain ⟨hmain, hnodup⟩ := List.nodup_cons.1 hnames
  refine ⟨?_, fun f hf => ?_, by simp, hnodup, fun f hf hseen => ?_⟩
  · rw [← hfiles, ← hstd]
    rfl
  · exact .of_sourcesUnder (FileSet.sourcesUnder_of_mem hfiles hf) hf (hunspaced f hf) (hlex f hf)
      (hown f hf)
  · rw [seen_marked, seen_new] at hseen
    rcases hseen with heq | hold
    · exact hmain (heq ▸ List.mem_map_of_mem hf)
    · exact hold

/-- A first file, and a library whose files have names of their own and include nothing. The tokens
of the library come in front, those of its last file first. What follows are the file's own tokens,
resolved as if it and the library had been included; if that fails, so does the whole. -/
theorem includeFile_injects (store : FileSet) (settings : Settings) (clock : Nat → Nat → Nat)
    (home main : Path) (own : List Token) (files : List Path) (tokens : Path → List Token)
    (hstd : settings.includeStd = true)
    (hfiles : (store.sourcesUnder (settings.libraryPath home)).getD [] = files)
    (hnames : (main.baseName :: files.map Path.baseName).Nodup)
    (hunspaced : ∀ f ∈ files, f.Unspaced) (hlex : ∀ f ∈ files, Lexes store f (tokens f))
    (hown : ∀ f ∈ files, ∀ t ∈ tokens f, t.isInclude = false) (hmain : Lexes store main own) :
    let c := Compilation.new settings clock home store
    let d := c.knowing (main :: files)
    InStep (fun out c' rest d' => out = files.reverse.flatMap tokens ++ rest ∧ c'.seen = d'.seen)
        (includeFile main) c (resolveIncludes own) d
      ∧ InStep (fun out c' rest d' => out = some (files.reverse.flatMap tokens ++ rest)
          ∧ c'.seen = d'.seen) (enter includeFile main) c (resolveIncludes own) d := by
  intro c d
  have hnew : main.baseName ∉ c.seen := by simp [c]
  have hfile := FileSet.isFile_of_lexes hmain
  have hreading := reading_new clock hstd hfiles hnames hunspaced hlex hown
  have houtlook : d.outlook = c.outlook := outlook_knowing (main :: files) c
  have hseen : d.seen = (c.marked main.baseName).seen ∪ {n | n ∈ files.map Path.baseName} :=
    seen_knowing files (c.marked main.baseName)
  have hlength := FileSet.length_lt_nesting hfiles hreading.nodup
  have hsuffices : ∀ c' q, Later (c.marked main.baseName) c' →
      Suffices (FileStore.nesting store q) c' q := fun c' q hlater =>
    have hstore : c'.store = store := store_of_outlook hlater.outlook
    hstore ▸ suffices_nesting c' q
  constructor
  · obtain ⟨k, hk⟩ := Nat.exists_eq_add_one.2 (Nat.zero_lt_of_lt (hlength main))
    have hdepth : files.length ≤ k := by
      have hlt := hlength main
      omega
    have hstart : Suffices (k + 1) c main := hk ▸ suffices_nesting c main
    have hinclude : (includeFile main).run.run c = (contribution (k + 1) main).run.run c :=
      hk ▸ followsTo_includeFile main c rfl
    have henter := inStep_enter_injected (followsTo_contribution k) followsTo_includeFile hreading
      hfile hnew hmain (fun _ _ => hdepth) (fun t ht hinc q hq c' hlater =>
        ⟨hstart.step hnew hmain ht hinc hq hlater, hsuffices c' q hlater⟩) houtlook hseen
    refine .of_run hinclude rfl ?_
    rw [contribution, ← bind_pure (resolveIncludes own)]
    refine henter.bind ?_
    rintro _ c' rest d' ⟨rfl, hlevel⟩
    refine .of_run (Gives.run_bind (a := ⟨⟩) (gives_note.2 rfl)) rfl (.of_pure ⟨rfl, ?_⟩)
    exact hlevel.seen.symm
  · have henter := inStep_enter_injected followsTo_includeFile followsTo_includeFile hreading
      hfile hnew hmain (fun f _ => (hlength f).le) (fun _ _ _ q _ c' hlater =>
        ⟨hsuffices c' q hlater, hsuffices c' q hlater⟩) houtlook hseen
    exact henter.mono fun _ _ _ _ h => ⟨h.1, h.2.seen.symm⟩

/-- A library of two files, one of which is included again. -/
def twoSources : FileSet :=
  ⟨[(⟨"main.macrohex"⟩, "#include std/a.macrohex\n!m"), (⟨"std/a.macrohex"⟩, "!a"),
    (⟨"std/b.macrohex"⟩, "!b")]⟩

theorem includeFile_injects_twoSources :
    ∃ c', Gives (includeFile ⟨"main.macrohex"⟩)
      (Compilation.new Settings.default (fun _ _ => 0) ⟨""⟩ twoSources)
      [⟨.literal, ⟨0, 0⟩, "b", "std/b.macrohex"⟩, ⟨.literal, ⟨0, 0⟩, "a", "std/a.macrohex"⟩,
        ⟨.literal, ⟨1, 0⟩, "m", "main.macrohex"⟩] c' := by
  let request : Token := ⟨.directive, ⟨0, 0⟩, "include std/a.macrohex", "main.macrohex"⟩
  let literal : Token := ⟨.literal, ⟨1, 0⟩, "m", "main.macrohex"⟩
  let files : List Path := [⟨"std/a.macrohex"⟩, ⟨"std/b.macrohex"⟩]
  let tokens : Path → List Token := fun f =>
    [⟨.literal, ⟨0, 0⟩, if f = ⟨"std/a.macrohex"⟩ then "a" else "b", f.text⟩]
  have hfiles : twoSources.sourcesUnder (Settings.default.libraryPath ⟨""⟩) = some files :=
    FileSet.sourcesUnder_of_sorted (by decide) (by simp [files]) (by decide)
  have hlex : ∀ f ∈ files, Lexes twoSources f (tokens f) := by
    simp only [files, List.forall_mem_cons, List.not_mem_nil, false_implies, implies_true, and_true]
    exact ⟨⟨"!a", by cbv, by cbv⟩, ⟨"!b", by cbv, by cbv⟩⟩
  have hinjects := (includeFile_injects twoSources Settings.default (fun _ _ => 0) ⟨""⟩
    ⟨"main.macrohex"⟩ [request, literal] files tokens rfl (by rw [hfiles]; rfl) (by decide)
    (by decide) hlex (by simp [tokens, Token.isInclude]) ⟨_, by cbv, by cbv⟩).1
  obtain ⟨d', hrest⟩ : ∃ d', Gives (resolveIncludes [request, literal])
      ((Compilation.new Settings.default (fun _ _ => 0) ⟨""⟩ twoSources).knowing
        (⟨"main.macrohex"⟩ :: files)) [literal] d' := by
    have hreach : Reaches twoSources request ⟨"std/a.macrohex"⟩ :=
      ⟨"include", "std/a.macrohex", by cbv, rfl, rfl⟩
    have hseen : (Path.mk "std/a.macrohex").baseName ∈
        ((Compilation.new Settings.default (fun _ _ => 0) ⟨""⟩ twoSources).knowing
          (⟨"main.macrohex"⟩ :: files)).seen := by
      rw [seen_knowing]
      exact .inr (by simp [files])
    obtain ⟨log, hlog, -⟩ := gives_contribution_again
      (FileStore.nesting twoSources ⟨"std/a.macrohex"⟩) hreach.isFile hseen
    exact ⟨_, gives_resolveIncludesBy_cons.2 ⟨[], [literal], _,
      (if_pos (by cbv)).mpr ⟨_, hreach, gives_includeFile.2 hlog⟩,
      gives_resolveIncludesBy_of_own (by simp [literal, Token.isInclude]), rfl⟩⟩
  rcases hinjects with ⟨out, c', rest, _, hout, hown, rfl, -⟩ | ⟨_, _, _, _, -, hfails, -⟩
  · obtain ⟨rfl, -⟩ := hown.unique hrest
    exact ⟨c', hout⟩
  · exact absurd hfails hrest.not_fails

end Sets

end HexPatterns
