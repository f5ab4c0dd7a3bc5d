import Mathlib
import HexPatterns.Files.Set
import HexPatterns.Proofs.Inclusion
import HexPatterns.Proofs.Paths

/-!
# Includes are followed to the end

In a file set a path that includes come to is not longer than `FileSet.reach`, because each of its
components was written in some request. So only so many base names can come up, and the depth to
which a file set has its includes followed is larger than their number. Nothing is cut off, and
what a file contributes is a splice (`includeFile_splices`).
-/

namespace HexPatterns

/-- Base names of at most `n` characters, told by their codes. -/
def shortNames (n : Nat) : Finset String :=
  (Finset.range ((2 ^ 21) ^ n)).image fun code =>
    String.ofList ((Nat.digits (2 ^ 21) code).map fun digit => Char.ofNat (digit - 1))

theorem card_shortNames_le (n : Nat) : (shortNames n).card ≤ 2 ^ (21 * n) := by
  rw [pow_mul, ← Finset.card_range ((2 ^ 21) ^ n)]
  exact Finset.card_image_le

/-- A character is coded by a digit that is not zero, so that no leading digit is lost. -/
theorem mem_shortNames {n : Nat} {s : String} (h : s.length ≤ n) : s ∈ shortNames n := by
  have hdigit : ∀ d ∈ s.toList.map fun c => c.toNat + 1, d < 2 ^ 21 := by
    intro d hd
    obtain ⟨c, -, rfl⟩ := List.mem_map.1 hd
    have hvalid : c.toNat < 0xd800 ∨ 0xdfff < c.toNat ∧ c.toNat < 0x110000 := c.valid
    omega
  have hlast : ∀ hne : (s.toList.map fun c => c.toNat + 1) ≠ [],
      (s.toList.map fun c => c.toNat + 1).getLast hne ≠ 0 := by
    intro hne
    obtain ⟨c, -, hc⟩ := List.mem_map.1 (List.getLast_mem hne)
    rw [← hc]
    exact Nat.succ_ne_zero _
  refine Finset.mem_image.2 ⟨Nat.ofDigits (2 ^ 21) (s.toList.map fun c => c.toNat + 1), ?_, ?_⟩
  · rw [Finset.mem_range]
    refine (Nat.ofDigits_lt_base_pow_length (by norm_num) hdigit).trans_le ?_
    rw [List.length_map, String.length_toList]
    exact Nat.pow_le_pow_right (by norm_num) h
  · rw [Nat.digits_ofDigits _ (by norm_num) _ hdigit hlast, List.map_map]
    simp [Function.comp_def, Char.ofNat_toNat]

namespace FileSet

variable {s : FileSet} {p : Path}

theorem le_foldr_max {α : Type} (g : α → Nat) {l : List α} {x : α} (h : x ∈ l) :
    g x ≤ l.foldr (fun y n => max (g y) n) 0 := by
  induction l with
  | nil => cases h
  | cons y l ih =>
    rcases List.mem_cons.1 h with rfl | h
    · exact le_max_left _ _
    · exact (ih h).trans (le_max_right _ _)

theorem length_components_le_depth {f : Path × String} (h : f ∈ s.files) :
    f.1.components.length ≤ s.depth :=
  le_foldr_max (fun f : Path × String => f.1.components.length) h

theorem length_le_width {f : Path × String} (h : f ∈ s.files) : f.2.length ≤ s.width :=
  (le_max_right _ _).trans
    (le_foldr_max (fun f : Path × String => max f.1.text.length f.2.length) h)

/-- A text that is read is the text of a file whose path means the same. -/
theorem exists_mem_of_read {text : String} (h : s.read p = .ok text) :
    ∃ f ∈ s.files, f.1.components = p.components ∧ f.2 = text := by
  unfold read at h
  split at h
  · rename_i f hf
    cases h
    have hsame := List.find?_some hf
    exact ⟨f, List.mem_of_find?_eq_some hf, by simpa [Path.same] using hsame, rfl⟩
  · cases h

/-- More than a request can have of characters. -/
def stride (s : FileSet) (p : Path) : Nat :=
  max s.width p.text.length + 1

/-- The paths that includes come to from a path on. -/
def Near (s : FileSet) (p u : Path) : Prop :=
  u.Fits (s.stride p) ∧ u.text.length ≤ s.reach p

theorem near_of_length_lt {u : Path} (h : u.text.length < s.stride p) : s.Near p u :=
  ⟨Path.fits_of_length_le h.le, h.le.trans (Nat.le_mul_of_pos_left _ (Nat.succ_pos _))⟩

theorem near_self : s.Near p p :=
  near_of_length_lt (Nat.lt_succ_of_le (le_max_right _ _))

/-- Includes do not lead away. -/
theorem Near.reaches {u v : Path} {ts : List Token} {t : Token} (hu : s.Near p u)
    (hlex : Lexes s u ts) (ht : t ∈ ts) (hinc : t.isInclude = true) (hv : Reaches s t v) :
    s.Near p v := by
  obtain ⟨text, hread, hscan⟩ := hlex
  obtain ⟨f, hf, hcomponents, rfl⟩ := exists_mem_of_read hread
  obtain ⟨word, requested, hwords, rfl, -⟩ := hv
  obtain ⟨horigin, hcontent⟩ := Token.of_mem_scan hscan ht
  have hkind : t.kind = .directive := by
    simp only [Token.isInclude, Bool.and_eq_true, decide_eq_true_eq] at hinc
    exact hinc.1
  have hshort : (Path.mk requested).text.length < s.stride p := by
    have hword : requested.length ≤ t.content.length :=
      Text.length_le_of_mem_wordsOf (by rw [hwords]; simp)
    have hwidth := length_le_width hf
    have hline := hcontent hkind
    rw [String.length_toList] at hline
    have hmax : s.width ≤ max s.width p.text.length := le_max_left _ _
    change requested.length < max s.width p.text.length + 1
    omega
  unfold askedPath
  split
  · exact near_of_length_lt hshort
  · rw [horigin]
    rcases hdir : u.parent? with _ | dir
    · exact near_of_length_lt hshort
    · obtain ⟨hfits, hlength⟩ := hu.1.join hdir hshort
      refine ⟨hfits, hlength.trans ?_⟩
      rw [← hcomponents]
      exact Nat.mul_le_mul_right _ ((length_components_le_depth hf).trans (Nat.le_succ _))

theorem closedUnder_near (s : FileSet) (p : Path) :
    ClosedUnder s (s.Near p) (shortNames (s.reach p)) where
  step hu hlex ht hinc hv := hu.reaches hlex ht hinc hv
  baseName_mem hu := mem_shortNames ((Path.length_baseName_le _).trans hu.2)

theorem unseen_lt_nesting {σ : Type} (s : FileSet) (p : Path) (c : Compilation σ) :
    unseen (shortNames (s.reach p)) c < FileStore.nesting s p :=
  calc unseen (shortNames (s.reach p)) c ≤ (shortNames (s.reach p)).card :=
        Finset.card_filter_le _ _
    _ ≤ 2 ^ (21 * s.reach p) := card_shortNames_le _
    _ < 2 ^ (21 * (s.reach p + 1)) := Nat.pow_lt_pow_right (by norm_num) (by omega)

end FileSet

section Splices

open CompileM

theorem gives_includeFile {σ : Type} [FileStore σ] {c c' : Compilation σ} {path : Path}
    {out : List Token} :
    Gives (includeFile path) c out c' ↔
      Gives (contribution (FileStore.nesting c.store path) path) c out c' := by
  simp [includeFile]

theorem ready_nesting {c : Compilation FileSet} (hstd : c.settings.includeStd = false)
    (path : Path) :
    Ready c.store (shortNames (c.store.reach path)) (FileStore.nesting c.store path) c :=
  ⟨rfl, hstd, FileSet.unseen_lt_nesting c.store path c⟩

theorem contributes_of_includeFile {c c' : Compilation FileSet}
    (hstd : c.settings.includeStd = false) {path : Path} {out : List Token}
    (h : Gives (includeFile path) c out c') : Contributes c path out c' :=
  contribution_contributes (FileSet.closedUnder_near c.store path) FileSet.near_self
    (ready_nesting hstd path) (gives_includeFile.1 h)

/-- Without the library, what a file of a file set contributes holds no include. It is nothing if
the name of the file was included before. Or else it comes of a splice of the file's tokens, which
pastes each file at the first include that reaches it and drops all includes of names that were seen
by then. The file and the pasted files have new and different names; these are the names that were
included meanwhile, and those of the files that were taken apart into tokens, each once. The tokens
that come of it are the own tokens of those files, each as often as it is there and in the order of
its file. -/
theorem includeFile_splices (c c' : Compilation FileSet) (hstd : c.settings.includeStd = false)
    (path : Path) (out : List Token) (h : Gives (includeFile path) c out c') :
    (∀ t ∈ out, t.isInclude = false)
    ∧ (path.baseName ∈ c.seen ∧ out = [] ∧ c'.seen = c.seen ∧ c'.lexed = c.lexed
      ∨ path.baseName ∉ c.seen ∧ ∃ inside : Splice,
        Lexes c.store path inside.written
        ∧ inside.Follows c.store (insert path.baseName c.seen)
        ∧ out = inside.tokens
        ∧ let files := (path, inside.written) :: inside.files
          let names := files.map fun f => f.1.baseName
          names.Nodup
          ∧ (∀ n ∈ names, n ∉ c.seen)
          ∧ c'.seen = c.seen ∪ {n | n ∈ names}
          ∧ c'.lexed = c.lexed ++ names
          ∧ (∀ f ∈ files, Lexes c.store f.1 f.2 ∧ (ownTokens f.2).Sublist out)
          ∧ out.Perm (files.flatMap fun f => ownTokens f.2)) := by
  rcases contributes_of_includeFile hstd h with
    ⟨hold, rfl, hseen, hlexed⟩ | ⟨hnew, inside, hlex, hin, rfl, hseen, hlexed⟩
  · exact ⟨by simp, .inl ⟨hold, rfl, hseen, hlexed⟩⟩
  · obtain ⟨hnodup, hfresh⟩ := hin.nodup_names
    obtain ⟨hown, hfiles⟩ := hin.ownTokens_sublist
    refine ⟨hin.isInclude_of_mem_tokens,
      .inr ⟨hnew, inside, hlex, hin, rfl, ?_, ?_, ?_, hlexed, ?_, hin.tokens_perm⟩⟩
    · exact List.nodup_cons.2 ⟨fun hmem => hfresh _ hmem (Set.mem_insert _ _), hnodup⟩
    · refine List.forall_mem_cons.2 ⟨hnew, fun n hn hmem => ?_⟩
      exact hfresh n hn (Set.mem_insert_of_mem _ hmem)
    · rw [hseen, Splice.insert_union_mem]
      rfl
    · exact List.forall_mem_cons.2
        ⟨⟨hlex, hown⟩, fun f hf => ⟨hin.lexes_of_mem_files f hf, hfiles f hf⟩⟩

/-- Two files that include each other, one of them twice. -/
def cyclicFiles : FileSet :=
  ⟨[(⟨"main"⟩, "#include lib\n#include lib\n!m"), (⟨"lib"⟩, "#include main\n!l")]⟩

/-- Their tokens: the second include of `lib` is dropped, and so is the include of `main`. -/
def cyclicSplice : Splice :=
  .paste ⟨.directive, ⟨0, 0⟩, "include lib", "main"⟩ ⟨"lib"⟩
    (.drop ⟨.directive, ⟨0, 0⟩, "include main", "lib"⟩ ⟨"main"⟩
      (.keep ⟨.literal, ⟨1, 0⟩, "l", "lib"⟩ .nil))
    (.drop ⟨.directive, ⟨1, 0⟩, "include lib", "main"⟩ ⟨"lib"⟩
      (.keep ⟨.literal, ⟨2, 0⟩, "m", "main"⟩ .nil))

theorem cyclicSplice_follows : cyclicSplice.Follows cyclicFiles (insert "main" ∅) := by
  have hlex : Lexes cyclicFiles ⟨"lib"⟩ [⟨.directive, ⟨0, 0⟩, "include main", "lib"⟩,
      ⟨.literal, ⟨1, 0⟩, "l", "lib"⟩] := ⟨"#include main\n!l", rfl, rfl⟩
  have hlib : ∀ p, Reaches cyclicFiles ⟨.directive, p, "include lib", "main"⟩ ⟨"lib"⟩ :=
    fun p => ⟨"include", "lib", by cbv, rfl, rfl⟩
  have hmain : Reaches cyclicFiles ⟨.directive, ⟨0, 0⟩, "include main", "lib"⟩ ⟨"main"⟩ :=
    ⟨"include", "main", by cbv, rfl, rfl⟩
  have hbase : ∀ name ∈ ["main", "lib"], (Path.mk name).baseName = name := by decide
  have hlib' := hbase "lib" (by simp)
  have hmain' := hbase "main" (by simp)
  refine ⟨rfl, hlib _, ?_, hlex, ⟨rfl, hmain, ?_, rfl, trivial⟩, rfl, hlib _, ?_, rfl, trivial⟩
  · simp [hlib']
  · simp [hlib', hmain']
  · simp [hlib']

theorem includeFile_splices_cyclicFiles :
    let c := Compilation.new { Settings.default with includeStd := false } (fun _ _ => 0) ⟨""⟩
      cyclicFiles
    let out : List Token := [⟨.literal, ⟨1, 0⟩, "l", "lib"⟩, ⟨.literal, ⟨2, 0⟩, "m", "main"⟩]
    ∃ c', Gives (includeFile ⟨"main"⟩) c out c'
      ∧ ∃ inside : Splice, out = inside.tokens ∧ c'.lexed = "main" :: inside.names
        ∧ ("main" :: inside.names).Nodup := by
  intro c out
  have hbase : (Path.mk "main").baseName = "main" := by decide
  have hseen : c.seen = ∅ := Compilation.seen_new ..
  obtain ⟨c', hc', -⟩ := gives_contribution_of_follows
    (FileSet.closedUnder_near cyclicFiles ⟨"main"⟩) FileSet.near_self
    (ready_nesting (c := c) rfl ⟨"main"⟩) rfl (by simp [hseen])
    ⟨"#include lib\n#include lib\n!m", rfl, rfl⟩
    (by rw [hseen, hbase]; exact cyclicSplice_follows)
  have hgives : Gives (includeFile ⟨"main"⟩) c out c' := gives_includeFile.2 hc'
  obtain ⟨-, h⟩ := includeFile_splices c c' rfl ⟨"main"⟩ out hgives
  rcases h with ⟨hmem, -⟩ | ⟨-, inside, -, -, hout, hnodup, -, -, hlexed, -⟩
  · rw [hseen] at hmem
    exact hmem.elim
  · rw [List.map_cons, hbase] at hnodup hlexed
    exact ⟨c', hgives, inside, hout, hlexed, hnodup⟩

end Splices

end HexPatterns
