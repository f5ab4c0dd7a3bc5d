import Mathlib
import HexPatterns.Command.Run
import HexPatterns.Proofs.Extensions
import HexPatterns.Proofs.Recompile
import HexPatterns.Settings.Document

/-!
# What is written, and what stays

Writing a file changes what is at one place of a tree, which was no directory. A path that leads
somewhere else goes through directories only, so it still leads there and finds what it found
(`FileTree.find_of_write`).

By default, the output of the command has the segments of the source up to the file name, so that
both are in one directory, and they are two files as soon as the names differ. They are one and the
same if the source has the extension of the output already, and then the source is lost
(`Command.execute_keeps_source`).
-/

namespace HexPatterns

namespace FileTree

variable {t t' : FileTree} {place q : Place} {names : List String} {e : Entry} {x : List Char}
  {a b : List (List Char)}

/-- The directory above a place. -/
def Place.above : Place → Place
  | .inside (name :: names) => .inside (name :: names).dropLast
  | _ => .outside

section Following

theorem follow_cons (t : FileTree) (place : Place) (x : List Char) (rest : List (List Char)) :
    t.follow place (x :: rest) = t.follow place [x] >>= fun q => t.follow q rest := by
  rw [follow.eq_def t place (x :: rest), follow.eq_def t place [x]]
  dsimp only
  rcases t.entryAt place with _ | (_ | _)
  · rfl
  · rfl
  · dsimp only
    split
    · rfl
    · rfl
    · rfl
    · rfl
    · split
      · rfl
      · rcases place with _ | _ <;> rfl

theorem follow_append_eq_ok_iff : t.follow place (a ++ b) = .ok q
    ↔ ∃ d, t.follow place a = .ok d ∧ t.follow d b = .ok q := by
  induction a generalizing place with
  | nil =>
    constructor
    · intro h
      exact ⟨place, rfl, h⟩
    · rintro ⟨_, ⟨⟩, h⟩
      exact h
  | cons x a ih =>
    rw [List.cons_append, follow_cons, follow_cons t place x a]
    rcases t.follow place [x] with fault | d
    · constructor
      · rintro ⟨⟩
      · rintro ⟨_, ⟨⟩, _⟩
    · exact ih

theorem follow_cons_eq_ok_iff : t.follow place (x :: b) = .ok q
    ↔ ∃ d, t.follow place [x] = .ok d ∧ t.follow d b = .ok q :=
  follow_append_eq_ok_iff (a := [x])

/-- A segment leads on from a directory: it stays there, leads to the one above, or to a place in
it. -/
theorem follow_singleton_cases (h : t.follow place [x] = .ok q) :
    t.entryAt place = some .directory ∧ ((x = [] ∨ x = ['.']) ∧ q = place
      ∨ x = ['.', '.'] ∧ q = place.above
      ∨ x ≠ [] ∧ x ≠ ['.'] ∧ x ≠ ['.', '.']
        ∧ ∃ names, place = .inside names ∧ q = .inside (names ++ [String.ofList x])) := by
  rw [follow.eq_def] at h
  dsimp only at h
  split at h
  · cases h
  · cases h
  · rename_i hentry
    refine ⟨hentry, ?_⟩
    split at h
    · cases h
      exact .inl ⟨.inl rfl, rfl⟩
    · cases h
      exact .inl ⟨.inr rfl, rfl⟩
    · cases h
      exact .inr (.inl ⟨rfl, rfl⟩)
    · rename_i hnowhere
      cases h
      refine .inr (.inl ⟨rfl, ?_⟩)
      unfold Place.above
      split
      · exact absurd rfl (hnowhere _ _)
      · rfl
    · rename_i hempty hcurrent hparent _
      split at h
      · cases h
      · split at h
        · cases h
          exact .inr (.inr ⟨hempty, hcurrent, hparent, _, rfl, rfl⟩)
        · cases h

/-- Segments that count for nothing lead nowhere. -/
theorem eq_of_follow_idle (h : t.follow place a = .ok q) (ha : ∀ x ∈ a, x = [] ∨ x = ['.']) :
    q = place := by
  induction a generalizing place with
  | nil =>
    cases h
    rfl
  | cons x a ih =>
    obtain ⟨hx, ha⟩ := List.forall_mem_cons.1 ha
    obtain ⟨d, hd, hrest⟩ := follow_cons_eq_ok_iff.1 h
    obtain ⟨-, ⟨-, rfl⟩ | ⟨rfl, -⟩ | ⟨hempty, hcurrent, -⟩⟩ := follow_singleton_cases hd
    · exact ih hrest ha
    · simp at hx
    · exact absurd hx (not_or.2 ⟨hempty, hcurrent⟩)

end Following

/-- Where a path starts. -/
def start (p : Path) : Place :=
  if p.isAbsolute then .outside else .inside []

/-- A path is refused for its text alone, or it is followed. -/
theorem locate_cases (p : Path) : (∃ fault, ∀ t : FileTree, t.locate p = .error fault)
    ∨ ∀ t : FileTree, t.locate p = t.follow (start p) p.segments := by
  by_cases hnul : p.text.toList.contains (Char.ofNat 0) = true
  · exact .inl ⟨_, fun _ => if_pos hnul⟩
  by_cases hempty : p.text.isEmpty = true
  · exact .inl ⟨_, fun _ => (if_neg hnul).trans (if_pos hempty)⟩
  by_cases hlong : pathLimit < p.text.utf8ByteSize
  · exact .inl ⟨_, fun _ => (if_neg hnul).trans ((if_neg hempty).trans (if_pos hlong))⟩
  · exact .inr fun _ => (if_neg hnul).trans ((if_neg hempty).trans (if_neg hlong))

theorem follow_of_locate {p : Path} (h : t.locate p = .ok place) :
    t.follow (start p) p.segments = .ok place := by
  rcases locate_cases p with ⟨fault, hfault⟩ | hfollow
  · rw [hfault] at h
    cases h
  · rwa [hfollow] at h

theorem find_of_locate {p : Path} (h : t.locate p = .ok place) :
    t.find p = match t.entryAt place with
      | some e => .ok e
      | none => .error .notFound := by
  rw [find, h]
  rfl

theorem read_of_find {p : Path} {text : String} (h : t.find p = .ok (.file text.toUTF8)) :
    t.read p = .ok text := by
  have htext : String.fromUTF8? text.toUTF8 = some text := dif_pos text.isValidUTF8
  rw [read, h]
  dsimp only [bind, Except.bind]
  rw [htext]
  rfl

theorem exists_of_isFile {p : Path} (h : t.isFile p = true) :
    ∃ content place, t.find p = .ok (.file content) ∧ t.locate p = .ok place := by
  rw [isFile] at h
  split at h
  · rename_i content hfind
    rcases hplace : t.locate p with fault | place
    · rw [find, hplace] at hfind
      cases hfind
    · exact ⟨content, place, hfind, rfl⟩
  · cases h

section Writing

theorem lookup_put {entries : List (List String × Entry)} {other : List String}
    (h : other ≠ names) :
    (entries.filter (·.1 ≠ names) ++ [(names, e)]).lookup other = entries.lookup other := by
  induction entries with
  | nil =>
    have hother : (other == names) = false := by simp [h]
    rw [List.filter_nil, List.nil_append, List.lookup_cons, hother]
  | cons entry entries ih =>
    by_cases hentry : entry.1 = names
    · have hother : (other == entry.1) = false := by simp [hentry, h]
      rw [List.filter_cons_of_neg (by simp [hentry]), ih, List.lookup_cons, hother]
    · rw [List.filter_cons_of_pos (by simp [hentry]), List.cons_append, List.lookup_cons,
        List.lookup_cons, ih]

theorem entryAt_put_of_ne (h : place ≠ .inside names) :
    entryAt (t.put names e) place = t.entryAt place := by
  rcases place with (_ | ⟨name, rest⟩) | _
  · rfl
  · exact lookup_put fun hother => h (by rw [hother])
  · rfl

theorem entryAt_put_self (hno : t.entryAt (.inside names) ≠ some .directory) :
    entryAt (t.put names e) (.inside names) = some e := by
  rcases names with _ | ⟨name, rest⟩
  · exact absurd rfl hno
  · have hnone : (t.entries.filter (·.1 ≠ name :: rest)).lookup (name :: rest) = none := by
      refine List.lookup_eq_none_iff.2 fun entry hentry => ?_
      have hne := (List.mem_filter.1 hentry).2
      exact bne_iff_ne.2 (Ne.symm (of_decide_eq_true hne))
    change (t.put (name :: rest) e).entries.lookup (name :: rest) = some e
    rw [put, List.lookup_append, hnone, Option.none_or, List.lookup_cons_self]

/-- What is put in a place that is no directory lies on no way. -/
theorem follow_put (hno : t.entryAt (.inside names) ≠ some .directory)
    (h : t.follow place a = .ok q) : (t.put names e).follow place a = .ok q := by
  induction a generalizing place with
  | nil => exact h
  | cons x a ih =>
    obtain ⟨d, hd, hrest⟩ := follow_cons_eq_ok_iff.1 h
    have hentry := (follow_singleton_cases hd).1
    have hsame : entryAt (t.put names e) place = t.entryAt place :=
      entryAt_put_of_ne fun hplace => hno (hplace ▸ hentry)
    have hd' : (t.put names e).follow place [x] = .ok d := by
      rw [← hd, follow.eq_def, follow.eq_def t]
      dsimp only
      rw [hsame]
      rfl
    exact follow_cons_eq_ok_iff.2 ⟨d, hd', ih hrest⟩

theorem locate_put {p : Path} (hno : t.entryAt (.inside names) ≠ some .directory)
    (h : t.locate p = .ok place) : (t.put names e).locate p = .ok place := by
  rcases locate_cases p with ⟨fault, hfault⟩ | hfollow
  · rw [hfault] at h
    cases h
  · rw [hfollow] at h ⊢
    exact follow_put hno h

/-- A file is written where a path leads to no directory, and does not end like that of one. -/
theorem write_eq_ok_iff {p : Path} {text : String} : t.write p text = .ok t'
    ↔ p.endsLikeDirectory = false ∧ ∃ names, t.locate p = .ok (.inside names)
      ∧ t.entryAt (.inside names) ≠ some .directory ∧ t' = t.put names (.file text.toUTF8) := by
  unfold write
  constructor
  · intro h
    split at h
    · rcases hplace : t.locateBy p (p.body.segments.dropLast ++ [['.']]) with _ | _ <;>
        rw [hplace] at h <;> cases h
    · rename_i hend
      refine ⟨eq_false_of_ne_true hend, ?_⟩
      rcases hplace : t.locate p with _ | place
      · rw [hplace] at h
        cases h
      · rw [hplace] at h
        dsimp only [bind, Except.bind] at h
        split at h
        · cases h
        · rename_i names hno
          cases h
          exact ⟨names, rfl, hno, rfl⟩
        · cases h
  · rintro ⟨hend, names, hplace, hno, rfl⟩
    rw [if_neg (ne_true_of_eq_false hend), hplace]
    dsimp only [bind, Except.bind]
    rcases hentry : t.entryAt (.inside names) with _ | (_ | _)
    · rfl
    · rfl
    · exact absurd hentry hno

/-- After writing a file, a path to its place finds it, and a path to another place finds what it
found before. -/
theorem find_of_write {p r : Path} {text : String} (h : t.write p text = .ok t')
    (hp : t.locate p = .ok q) (hr : t.locate r = .ok place) :
    t'.find r = if q = place then .ok (.file text.toUTF8) else t.find r := by
  obtain ⟨-, names, hnames, hno, rfl⟩ := write_eq_ok_iff.1 h
  obtain rfl := Except.ok.inj (hp.symm.trans hnames)
  rw [find_of_locate (locate_put hno hr), find_of_locate hr]
  split_ifs with hplace
  · rw [← hplace, entryAt_put_self hno]
  · rw [entryAt_put_of_ne (Ne.symm hplace)]

end Writing

section Neighbours

variable {p r : Path} {front tail tail' : List (List Char)} {last other : List Char}

theorem isAbsolute_eq (hp : p.EndsWith front last tail) (hr : r.EndsWith front other tail') :
    p.isAbsolute = r.isAbsolute := by
  have hhead : ∀ {p : Path} {last : List Char} {tail : List (List Char)},
      p.EndsWith front last tail →
        (p.isAbsolute = true ↔ (Path.joined (front ++ [[]])).head? = some '/') := by
    intro p last tail h
    rw [Path.isAbsolute, decide_eq_true_eq, h.toList_text]
    rcases Path.joined (front ++ [[]]) with _ | ⟨c, rest⟩
    · obtain ⟨c, rest, rfl⟩ := List.exists_cons_of_ne_nil h.counts.1
      have hc : c ≠ '/' := fun hc => h.separator_not_mem (hc ▸ List.mem_cons_self)
      simp [hc]
    · simp
  rw [Bool.eq_iff_iff, hhead hp, hhead hr]

/-- A path leads to the directory above the one that the segments in front lead to, or to a place in
this. -/
theorem exists_of_locate (hp : p.EndsWith front last tail) (h : t.locate p = .ok place) :
    ∃ d, t.follow (start p) front = .ok d ∧ (last = ['.', '.'] ∧ place = d.above
      ∨ last ≠ ['.', '.'] ∧ ∃ names, d = .inside names
        ∧ place = .inside (names ++ [String.ofList last])) := by
  have hfollow := follow_of_locate h
  rw [hp.segments] at hfollow
  obtain ⟨d, hd, hlast⟩ := follow_append_eq_ok_iff.1 hfollow
  obtain ⟨q, hq, htail⟩ := follow_cons_eq_ok_iff.1 hlast
  obtain rfl := eq_of_follow_idle htail hp.idle
  refine ⟨d, hd, ?_⟩
  obtain ⟨-, ⟨hidle, -⟩ | hparent | ⟨-, -, hname⟩⟩ := follow_singleton_cases hq
  · exact absurd hidle (not_or.2 hp.counts)
  · exact .inl hparent
  · exact .inr hname

/-- Paths with the same segments up to the last one lead to the same place just if this is the same
too, where it is a file name. -/
theorem place_eq_iff (hp : p.EndsWith front last tail) (hr : r.EndsWith front other tail')
    (hname : last ≠ ['.', '.']) (h : t.locate p = .ok place) (h' : t.locate r = .ok q) :
    q = place ↔ other = last := by
  obtain ⟨d, hd, ⟨hparent, -⟩ | ⟨-, names, rfl, rfl⟩⟩ := exists_of_locate hp h
  · exact absurd hparent hname
  obtain ⟨d', hd', hr'⟩ := exists_of_locate hr h'
  have hstart : start r = start p := by rw [start, start, isAbsolute_eq hp hr]
  rw [hstart, hd] at hd'
  obtain rfl := Except.ok.inj hd'
  rcases hr' with ⟨rfl, rfl⟩ | ⟨-, names', hnames, rfl⟩
  · refine iff_of_false (fun habove => ?_) (Ne.symm hname)
    rcases names with _ | ⟨name, names⟩
    · cases habove
    · have hlength := congrArg List.length (Place.inside.inj habove)
      simp only [List.length_append, List.length_dropLast, List.length_cons] at hlength
      omega
  · obtain rfl := Place.inside.inj hnames
    rw [Place.inside.injEq, List.append_cancel_left_eq, List.singleton_inj, String.ofList_inj]

end Neighbours

end FileTree

namespace Arguments

variable {a : Arguments} {front tail : List (List Char)} {name stem ext : List Char}

theorem outputPath_of_default (hdefault : a.output = none) :
    a.outputPath = a.sourcePath.withExtension Path.outputExtension := by
  rw [outputPath, hdefault, Option.getD_none]

theorem extended_ne_parent (name : List Char) :
    name ++ '.' :: Path.sourceExtension.toList ≠ ['.', '.'] := by
  intro h
  have := congrArg List.length h
  simp [Path.sourceExtension] at this

/-- A source without extension is given one, and the output gets another. -/
theorem endsWith_of_bare (hends : a.source.EndsWith front name tail) (hname : name ≠ ['.', '.'])
    (hsplit : Path.splitName name = (name, none)) (hdefault : a.output = none) :
    a.sourcePath.EndsWith front (name ++ '.' :: Path.sourceExtension.toList) []
      ∧ a.outputPath.EndsWith front (name ++ '.' :: Path.outputExtension.toList) [] := by
  have hbare : a.source.extension? = none := by
    rw [hends.extension?_eq hname, hsplit]
    rfl
  have hsource : a.sourcePath = a.source.withExtension Path.sourceExtension := by
    rw [sourcePath, hbare, if_neg (by decide)]
  have hfirst := hends.withExtension hname (show '/' ∉ Path.sourceExtension.toList by decide)
  rw [hsplit, if_neg fun h => hends.counts.2 h.1, ← hsource] at hfirst
  have hsecond := hfirst.withExtension (extended_ne_parent name)
    (show '/' ∉ Path.outputExtension.toList by decide)
  rw [Path.splitName_append (by decide), if_neg hends.counts.1,
    if_neg fun h => hends.counts.2 h.1, ← outputPath_of_default hdefault] at hsecond
  exact ⟨hfirst, hsecond⟩

/-- A source with an extension stays as it is. -/
theorem endsWith_of_extension (hends : a.source.EndsWith front (stem ++ '.' :: ext) tail)
    (hname : stem ++ '.' :: ext ≠ ['.', '.'])
    (hsplit : Path.splitName (stem ++ '.' :: ext) = (stem, some ext)) (hdefault : a.output = none) :
    a.sourcePath = a.source ∧ a.outputPath.EndsWith front (if stem = ['.'] ∧ tail = []
      then ['.', '.'] else stem ++ '.' :: Path.outputExtension.toList) [] := by
  have hsource : a.sourcePath = a.source := by
    rw [sourcePath, hends.extension?_eq hname, hsplit]
    exact if_pos rfl
  have houtput := hends.withExtension hname (show '/' ∉ Path.outputExtension.toList by decide)
  rw [hsplit, ← hsource, ← outputPath_of_default hdefault] at houtput
  exact ⟨hsource, houtput⟩

/-- The name that an extended file gets instead of its own is its own just if it had the extension
already, except for the one that loses it. -/
theorem default_name_eq_iff (hends : a.source.EndsWith front (stem ++ '.' :: ext) tail)
    (hname : stem ++ '.' :: ext ≠ ['.', '.']) :
    (if stem = ['.'] ∧ tail = [] then ['.', '.'] else stem ++ '.' :: Path.outputExtension.toList)
        = stem ++ '.' :: ext
      ↔ ext = Path.outputExtension.toList
        ∧ a.source.segments.getLast? ≠ some "..rawhex".toList := by
  have hlast : a.source.segments.getLast? = some (tail.getLast?.getD (stem ++ '.' :: ext)) := by
    rw [hends.segments, List.getLast?_append, List.getLast?_cons, Option.some_or]
  split_ifs with h
  · obtain ⟨rfl, rfl⟩ := h
    refine iff_of_false hname.symm ?_
    rintro ⟨rfl, hne⟩
    exact hne hlast
  · simp only [List.append_cancel_left_eq, List.cons.injEq, true_and]
    refine ⟨fun hext => ⟨hext.symm, ?_⟩, fun hext => hext.1.symm⟩
    subst hext
    rw [hlast, Ne, Option.some_inj]
    intro hdots
    rcases htail : tail.getLast? with _ | x
    · refine h ⟨?_, List.getLast?_eq_none_iff.1 htail⟩
      rw [htail, Option.getD_none] at hdots
      change stem ++ '.' :: Path.outputExtension.toList
        = ['.'] ++ '.' :: Path.outputExtension.toList at hdots
      exact List.append_cancel_right hdots
    · rw [htail, Option.getD_some] at hdots
      have hidle := hends.idle x (List.mem_of_getLast? htail)
      rw [hdots] at hidle
      revert hidle
      decide

/-- By default, source and output differ in their last segments only. These are equal just if the
source has the extension of the output and its text does not end with the name that loses it. -/
theorem exists_endsWith {name : String} (hname : a.source.fileName? = some name)
    (hdefault : a.output = none) :
    ∃ front last other tail, a.sourcePath.EndsWith front last tail ∧ last ≠ ['.', '.']
      ∧ a.outputPath.EndsWith front other []
      ∧ (other = last ↔ a.source.extension? = some Path.outputExtension
        ∧ a.source.segments.getLast? ≠ some "..rawhex".toList) := by
  obtain ⟨front, tail, hends, hparent⟩ := Path.exists_endsWith hname
  have hextension := hends.extension?_eq hparent
  rcases Path.splitName_cases name.toList with hsplit | ⟨stem, ext, hsplit, hstem, -⟩
  · obtain ⟨hsource, houtput⟩ := endsWith_of_bare hends hparent hsplit hdefault
    refine ⟨front, _, _, [], hsource, ?_, houtput, ?_⟩
    · exact extended_ne_parent name.toList
    · refine iff_of_false ?_ ?_
      · rw [List.append_cancel_left_eq]
        decide
      · rintro ⟨hext, -⟩
        rw [hextension, hsplit] at hext
        cases hext
  · rw [hstem] at hends hparent hsplit
    obtain ⟨hsource, houtput⟩ := endsWith_of_extension hends hparent hsplit hdefault
    refine ⟨front, _, _, tail, hsource ▸ hends, hparent, houtput, ?_⟩
    rw [default_name_eq_iff hends hparent, hextension, hstem, hsplit, Option.map_some,
      Option.some_inj, String.ext_iff, @String.toList_ofList ext]

end Arguments

namespace Command

variable {readSettings : String → Except String Settings}
  {sourcesUnder : FileTree → Path → Option (List Path)} {clock : Nat → Nat → Nat} {home : Path}
  {tree tree' : FileTree} {a : Arguments}

theorem isFile_of_build {σ : Type} [FileStore σ] {store : σ} {text : String}
    (h : (build readSettings clock home store a).result = .ok text) :
    FileStore.isFile store a.sourcePath = true := by
  rw [build] at h
  split at h
  · cases h
  · by_contra hfile
    rw [buildWith, if_neg hfile] at h
    cases h

/-- A run succeeds if the source is compiled and what comes of it is written. -/
theorem execute_eq_ok_iff :
    (execute readSettings sourcesUnder clock home tree a).result = .ok tree'
    ↔ ∃ text, (build readSettings clock home (ListedTree.mk tree sourcesUnder) a).result = .ok text
      ∧ tree.write a.outputPath text = .ok tree' := by
  change ((build readSettings clock home (ListedTree.mk tree sourcesUnder) a).result
    >>= fun text => _) = Except.ok tree' ↔ _
  constructor
  · intro h
    rcases htext : (build readSettings clock home (ListedTree.mk tree sourcesUnder) a).result
      with d | text
    · rw [htext] at h
      cases h
    · rw [htext] at h
      change (tree.write a.outputPath text).mapError _ = Except.ok tree' at h
      rcases hwrite : tree.write a.outputPath text with fault | tree''
      · rw [hwrite] at h
        cases h
      · rw [hwrite] at h
        cases h
        exact ⟨text, rfl, hwrite⟩
  · rintro ⟨text, htext, hwrite⟩
    rw [htext]
    change (tree.write a.outputPath text).mapError _ = Except.ok tree'
    rw [hwrite]
    rfl

/-- A file of literals is compiled to them, without the library. -/
theorem execute_of_literals {text : String} {ts : List Token}
    (hconfig : a.config = none) (hstd : a.noStd = true)
    (hfind : tree.find a.sourcePath = .ok (.file text.toUTF8))
    (hscan : Token.scan a.sourcePath.text 0 text.toList = .ok ts)
    (hkind : ∀ t ∈ ts, t.kind = .literal)
    (hwrite : tree.write a.outputPath (render (a.apply .default).outputFormat ts) = .ok tree') :
    (execute readSettings sourcesUnder clock home tree a).result = .ok tree' := by
  have hsettings : settingsOf readSettings (ListedTree.mk tree sourcesUnder) a
      = .ok (a.apply .default) := by
    rw [settingsOf, hconfig]
    rfl
  have hplain : (a.apply .default).includeStd = false := by simp [Arguments.apply, hstd]
  have hfile : FileStore.isFile (ListedTree.mk tree sourcesUnder) a.sourcePath = true := by
    change tree.isFile a.sourcePath = true
    rw [FileTree.isFile, hfind]
  have hlex : Lexes (ListedTree.mk tree sourcesUnder) a.sourcePath ts := by
    refine ⟨text, ?_, hscan⟩
    change (tree.read a.sourcePath).mapError _ = _
    rw [FileTree.read_of_find hfind]
    rfl
  obtain ⟨c, hc, -⟩ :=
    CompileM.gives_expandedTokens_of_literals clock home hplain hfile hlex hkind
  have hcompile := CompileM.gives_compile.2 ⟨ts, hc, rfl⟩
  refine execute_eq_ok_iff.2 ⟨_, ?_, hwrite⟩
  rw [build, hsettings]
  dsimp only
  rw [buildWith, if_pos hfile]
  dsimp only
  rw [hcompile]
  rfl

/-- Asks for a file to be compiled, without the library. -/
def compileOnly (source : String) : Arguments :=
  ⟨⟨source⟩, none, none, true, false, false⟩

/-- A tree with one file. -/
def oneFile (name text : String) : FileTree :=
  ⟨[([name], .file text.toUTF8)]⟩

theorem find_oneFile {name text : String}
    (h : (oneFile name text).locate ⟨name⟩ = .ok (.inside [name])) :
    (oneFile name text).find ⟨name⟩ = .ok (.file text.toUTF8) := by
  rw [FileTree.find_of_locate h]
  simp [FileTree.entryAt, oneFile]

/-- The file of one literal is compiled to it. -/
theorem execute_oneFile {source name : String} {output : Path}
    (hsource : (compileOnly source).sourcePath = ⟨name⟩)
    (houtput : (compileOnly source).outputPath = output)
    (hplace : (oneFile name "!a").locate ⟨name⟩ = .ok (.inside [name]))
    (hwrite : (oneFile name "!a").write output "a" = .ok tree') :
    (execute readSettings sourcesUnder clock home (oneFile name "!a")
      (compileOnly source)).result = .ok tree' := by
  have hfind : (oneFile name "!a").find (compileOnly source).sourcePath
      = .ok (.file "!a".toUTF8) := by
    rw [hsource, find_oneFile hplace]
  have hscan : Token.scan (compileOnly source).sourcePath.text 0 "!a".toList
      = .ok [⟨.literal, ⟨0, 0⟩, "a", name⟩] := by
    rw [hsource]
    cbv
  have hformat : ((compileOnly source).apply .default).outputFormat = .rawhex := rfl
  have hrender : render .rawhex [⟨.literal, ⟨0, 0⟩, "a", name⟩] = "a" := by cbv
  refine execute_of_literals rfl rfl hfind hscan (by simp) ?_
  rw [hformat, hrender, houtput, hwrite]

end Command

end HexPatterns
