import Mathlib
import HexPatterns.Path
import HexPatterns.Proofs.Scan

/-!
# Where the components of a path end

A path that is joined to a directory keeps the components of the directory in their places, and a
directory has the components of the path it is the directory of, without the last. So along a chain
of joins and directories no component ever ends further out than the requests that wrote it allow:
if requests are shorter than `k`, component number `i` ends before `(i + 1) * k` (`Fits.join`).
-/

namespace HexPatterns.Path

/-- The text that segments make up. -/
def joined (segments : List (List Char)) : List Char :=
  ['/'].intercalate segments

theorem joined_cons {x : List Char} {a : List (List Char)} (ha : a ≠ []) :
    joined (x :: a) = x ++ '/' :: joined a := by
  rw [joined, List.intercalate_cons_of_ne_nil ha, List.append_assoc]
  rfl

theorem joined_singleton (x : List Char) : joined [x] = x :=
  List.intercalate_singleton

theorem joined_append {a b : List (List Char)} (ha : a ≠ []) (hb : b ≠ []) :
    joined (a ++ b) = joined a ++ '/' :: joined b := by
  induction a with
  | nil => exact absurd rfl ha
  | cons x a ih =>
    rcases a with _ | ⟨y, a⟩
    · rw [List.singleton_append, joined_cons hb, joined_singleton]
    · rw [List.cons_append, joined_cons (by simp), ih (by simp), joined_cons (x := x) (by simp),
        List.append_assoc, List.cons_append]

theorem joined_segments (p : Path) : joined p.segments = p.text.toList :=
  List.intercalate_splitOn '/'

theorem segments_ne_nil (p : Path) : p.segments ≠ [] :=
  List.splitOnP_ne_nil _ _

theorem segments_of_joined {p : Path} {a : List (List Char)} (h : p.text.toList = joined a)
    (ha : a ≠ []) (hsep : ∀ x ∈ a, '/' ∉ x) : p.segments = a := by
  rw [segments, h]
  exact List.splitOn_intercalate '/' hsep ha

theorem separator_not_mem {p : Path} {x : List Char} (hx : x ∈ p.segments) : '/' ∉ x := fun h => by
  have := (Text.of_mem_splitOnP hx).2 '/' h
  simp at this

section Pieces

variable {start : Nat} {a b : List (List Char)} {q : Piece}

/-- A segment is one piece, which ends where the segment ends, or none. -/
theorem exists_piecesFrom_cons (start : Nat) (x : List Char) :
    ∃ here : List Piece,
      (here = [] ∨ x ≠ [] ∧ ∃ component, here = [⟨component, start + x.length⟩])
      ∧ ∀ rest, piecesFrom start (x :: rest) = here ++ piecesFrom (start + x.length + 1) rest := by
  simp only [piecesFrom]
  split
  · exact ⟨[], .inl rfl, fun _ => rfl⟩
  · exact ⟨[], .inl rfl, fun _ => rfl⟩
  · exact ⟨_, .inr ⟨by simp, _, rfl⟩, fun _ => rfl⟩
  · rename_i hx _ _
    exact ⟨_, .inr ⟨hx, _, rfl⟩, fun _ => rfl⟩

theorem piecesFrom_append {start : Nat} (ha : a ≠ []) :
    piecesFrom start (a ++ b)
      = piecesFrom start a ++ piecesFrom (start + (joined a).length + 1) b := by
  induction a generalizing start with
  | nil => exact absurd rfl ha
  | cons x a ih =>
    obtain ⟨here, -, hcons⟩ := exists_piecesFrom_cons start x
    rcases a with _ | ⟨y, a⟩
    · rw [List.singleton_append, hcons, hcons, joined_singleton]
      simp [piecesFrom]
    · rw [List.cons_append, hcons, hcons, ih (by simp), joined_cons (x := x) (by simp)]
      simp only [List.append_assoc, List.length_append, List.length_cons]
      congr 3
      omega

theorem stop_le_of_mem_piecesFrom {start : Nat} (h : q ∈ piecesFrom start a) :
    q.stop ≤ start + (joined a).length := by
  induction a generalizing start with
  | nil => simp [piecesFrom] at h
  | cons x a ih =>
    obtain ⟨here, hhere, hcons⟩ := exists_piecesFrom_cons start x
    rw [hcons, List.mem_append] at h
    have hlen : x.length ≤ (joined (x :: a)).length := by
      rcases a with _ | ⟨y, a⟩
      · rw [joined_singleton]
      · rw [joined_cons (by simp)]
        simp
    rcases h with h | h
    · rcases hhere with rfl | ⟨-, component, rfl⟩
      · simp at h
      · rw [List.mem_singleton.1 h]
        simpa using hlen
    · have ha : a ≠ [] := by
        rintro rfl
        simp [piecesFrom] at h
      have := ih h
      rw [joined_cons ha]
      simp only [List.length_append, List.length_cons]
      omega

/-- A piece ends where some segment ends, and the segments up to there have the pieces up to it. -/
theorem piecesFrom_split {start : Nat} {before after : List Piece}
    (h : piecesFrom start a = before ++ q :: after) :
    ∃ a₁ x a₂, a = a₁ ++ x :: a₂ ∧ x ≠ [] ∧ q.stop = start + (joined (a₁ ++ [x])).length
      ∧ piecesFrom start (a₁ ++ [x]) = before ++ [q] := by
  induction a generalizing start before with
  | nil => simp [piecesFrom] at h
  | cons x a ih =>
    obtain ⟨here, hhere, hcons⟩ := exists_piecesFrom_cons start x
    rw [hcons] at h
    have hlater : ∀ before', before = here ++ before' →
        piecesFrom (start + x.length + 1) a = before' ++ q :: after →
        ∃ a₁ y a₂, x :: a = a₁ ++ y :: a₂ ∧ y ≠ []
          ∧ q.stop = start + (joined (a₁ ++ [y])).length
          ∧ piecesFrom start (a₁ ++ [y]) = before ++ [q] := by
      rintro before' rfl h
      obtain ⟨a₁, y, a₂, rfl, hy, hstop, hpieces⟩ := ih h
      refine ⟨x :: a₁, y, a₂, rfl, hy, ?_, ?_⟩
      · rw [hstop, List.cons_append, joined_cons (by simp)]
        simp only [List.length_append, List.length_cons]
        omega
      · rw [List.cons_append, hcons, hpieces, List.append_assoc]
    rcases hhere with rfl | ⟨hx, component, rfl⟩
    · exact hlater before rfl h
    · rcases before with _ | ⟨_, before⟩
      · rw [List.nil_append, List.singleton_append, List.cons.injEq] at h
        refine ⟨[], x, a, rfl, hx, ?_, ?_⟩
        · rw [← h.1, List.nil_append, joined_singleton]
        · rw [List.nil_append, hcons, h.1]
          rfl
      · rw [List.singleton_append, List.cons_append, List.cons.injEq] at h
        exact hlater before (by rw [h.1, List.singleton_append]) h.2

/-- The pieces among the segments of a path. -/
def piecesOf : List (List Char) → List Piece
  | [[]] => []
  | [] :: rest => ⟨.root, 1⟩ :: piecesFrom 1 rest
  | ['.'] :: rest => ⟨.current, 1⟩ :: piecesFrom 2 rest
  | segments => piecesFrom 0 segments

theorem pieces_eq (p : Path) : p.pieces = piecesOf p.segments := rfl

theorem piecesOf_root (ha : a ≠ []) : piecesOf ([] :: a) = ⟨.root, 1⟩ :: piecesFrom 1 a := by
  rcases a with _ | ⟨x, a⟩
  · exact absurd rfl ha
  · rfl

theorem piecesOf_plain {x : List Char} (hx : x ≠ []) (hx' : x ≠ ['.']) :
    piecesOf (x :: a) = piecesFrom 0 (x :: a) := by
  unfold piecesOf
  split
  · rename_i h
    cases h
    exact absurd rfl hx
  · rename_i h
    cases h
    exact absurd rfl hx
  · rename_i h
    cases h
    exact absurd rfl hx'
  · rfl

theorem piecesOf_append (ha : a ≠ []) (ha' : a ≠ [[]]) :
    piecesOf (a ++ b) = piecesOf a ++ piecesFrom ((joined a).length + 1) b := by
  rcases a with _ | ⟨x, a⟩
  · exact absurd rfl ha
  · by_cases hx : x = []
    · subst hx
      have ha : a ≠ [] := fun h => ha' (by rw [h])
      rw [List.cons_append, piecesOf_root (by simp [ha]), piecesOf_root ha, piecesFrom_append ha,
        joined_cons ha, List.cons_append]
      simp only [List.nil_append, List.length_cons]
      congr 3
      omega
    · by_cases hx' : x = ['.']
      · subst hx'
        rcases a with _ | ⟨y, a⟩
        · rfl
        · rw [List.cons_append, joined_cons (x := ['.']) (by simp)]
          change _ :: piecesFrom 2 (y :: a ++ b) = _ :: piecesFrom 2 (y :: a) ++ _
          rw [piecesFrom_append (by simp), List.cons_append]
          simp only [List.length_append, List.length_cons, List.length_nil]
          congr 3
          omega
      · rw [List.cons_append, piecesOf_plain hx hx', piecesOf_plain hx hx', ← List.cons_append,
          piecesFrom_append (by simp), Nat.zero_add]

/-- But for the root, a piece of a path ends where some segment ends, and the segments up to there
have the pieces up to it. -/
theorem piecesOf_split {before after : List Piece} (h : piecesOf a = before ++ q :: after) :
    q = ⟨.root, 1⟩ ∧ before = []
      ∨ ∃ a₁ x a₂, a = a₁ ++ x :: a₂ ∧ x ≠ [] ∧ q.stop = (joined (a₁ ++ [x])).length
        ∧ piecesOf (a₁ ++ [x]) = before ++ [q] := by
  unfold piecesOf at h
  split at h
  · simp at h
  · rename_i rest _
    rcases before with _ | ⟨_, before⟩
    · rw [List.nil_append, List.cons.injEq] at h
      exact .inl ⟨h.1.symm, rfl⟩
    · rw [List.cons_append, List.cons.injEq] at h
      obtain ⟨a₁, x, a₂, rfl, hx, hstop, hpieces⟩ := piecesFrom_split h.2
      refine .inr ⟨[] :: a₁, x, a₂, rfl, hx, ?_, ?_⟩
      · rw [hstop, List.cons_append, joined_cons (by simp)]
        simp only [List.nil_append, List.length_cons]
        omega
      · rw [List.cons_append, piecesOf_root (by simp), hpieces, h.1, List.cons_append]
  · rename_i rest
    rcases before with _ | ⟨_, before⟩
    · rw [List.nil_append, List.cons.injEq] at h
      refine .inr ⟨[], ['.'], rest, rfl, by simp, ?_, ?_⟩
      · rw [← h.1]
        rfl
      · rw [← h.1]
        rfl
    · rw [List.cons_append, List.cons.injEq] at h
      obtain ⟨a₁, x, a₂, rfl, hx, hstop, hpieces⟩ := piecesFrom_split h.2
      refine .inr ⟨['.'] :: a₁, x, a₂, rfl, hx, ?_, ?_⟩
      · rw [hstop, List.cons_append, joined_cons (by simp)]
        simp only [List.length_append, List.length_cons, List.length_nil]
        omega
      · change _ :: piecesFrom 2 (a₁ ++ [x]) = _
        rw [hpieces, h.1, List.cons_append]
  · rename_i hroot hcurrent
    obtain ⟨a₁, x, a₂, rfl, hx, hstop, hpieces⟩ := piecesFrom_split h
    refine .inr ⟨a₁, x, a₂, rfl, hx, by rw [hstop, Nat.zero_add], ?_⟩
    rw [← hpieces]
    rcases a₁ with _ | ⟨y, a₁⟩
    · exact piecesOf_plain hx fun h => hcurrent a₂ (by rw [h]; rfl)
    · exact piecesOf_plain (fun h => hroot _ (by rw [h]; rfl)) fun h => hcurrent _ (by rw [h]; rfl)

end Pieces

theorem stop_le_of_mem_pieces {p : Path} {q : Piece} (h : q ∈ p.pieces) :
    q.stop ≤ p.text.length := by
  rw [← String.length_toList, ← joined_segments]
  rw [pieces_eq] at h
  unfold piecesOf at h
  split at h
  · simp at h
  · rename_i rest hrest hp
    rw [hp, joined_cons (fun h => hrest h)]
    rcases List.mem_cons.1 h with rfl | h
    · simp
    · have := stop_le_of_mem_piecesFrom h
      simp only [List.nil_append, List.length_cons]
      omega
  · rename_i rest hp
    rw [hp]
    rcases List.mem_cons.1 h with rfl | h
    · rcases rest with _ | ⟨x, rest⟩
      · simp [joined_singleton]
      · simp [joined_cons]
    · have hrest : rest ≠ [] := by
        rintro rfl
        simp [piecesFrom] at h
      have := stop_le_of_mem_piecesFrom h
      rw [joined_cons hrest]
      simp only [List.length_append, List.length_cons, List.length_nil]
      omega
  · have := stop_le_of_mem_piecesFrom h
    omega

theorem getLast?_joined (a : List (List Char)) {x : List Char} (hx : x ≠ []) :
    (joined (a ++ [x])).getLast? = x.getLast? := by
  rcases a with _ | ⟨y, a⟩
  · rw [List.nil_append, joined_singleton]
  · rw [joined_append (by simp) (by simp), joined_singleton,
      List.getLast?_append_of_ne_nil _ (by simp)]
    rcases x with _ | ⟨c, x⟩
    · exact absurd rfl hx
    · rw [List.getLast?_cons_cons]

/-- Up to the end of a piece, other than the root, a path has the pieces up to this one. It does not
end like a directory there. -/
theorem take_stop {p : Path} {q : Piece} {before after : List Piece}
    (h : p.pieces = before ++ q :: after) (hq : q ≠ ⟨.root, 1⟩) :
    (p.take q.stop).pieces = before ++ [q] ∧ (p.take q.stop).text.length = q.stop
      ∧ (p.take q.stop).endsLikeDirectory = false ∧ (p.take q.stop).text ≠ "" := by
  rcases piecesOf_split h with ⟨rfl, -⟩ | ⟨a₁, x, a₂, ha, hx, hstop, hpieces⟩
  · exact absurd rfl hq
  · have htext : (p.take q.stop).text.toList = joined (a₁ ++ [x]) := by
      rw [take, String.toList_ofList, ← joined_segments, ha, hstop]
      rcases a₂ with _ | ⟨y, a₂⟩
      · rw [List.take_length]
      · rw [List.append_cons a₁ x (y :: a₂), joined_append (b := y :: a₂) (by simp) (by simp),
          List.take_left]
    have hsep : ∀ y ∈ a₁ ++ [x], '/' ∉ y := by
      intro y hy
      refine separator_not_mem (p := p) ?_
      rw [ha]
      simp only [List.mem_append, List.mem_cons] at hy ⊢
      tauto
    refine ⟨?_, ?_, ?_, ?_⟩
    · rw [pieces_eq, segments_of_joined htext (by simp) hsep, hpieces]
    · rw [← String.length_toList, htext, hstop]
    · rw [endsLikeDirectory, htext, getLast?_joined a₁ hx, decide_eq_false_iff_not]
      intro hlast
      exact hsep x (by simp) (List.mem_of_getLast? hlast)
    · intro hempty
      rw [hempty] at htext
      have := getLast?_joined a₁ hx
      rw [← htext] at this
      exact hx (List.getLast?_eq_none_iff.1 this.symm)

/-- A path joined to a directory that does not end like one. -/
theorem pieces_join {dir p : Path} (hdir : dir.text ≠ "") (hend : dir.endsLikeDirectory = false)
    (hp : p.isAbsolute = false) :
    (dir.join p).pieces = dir.pieces ++ piecesFrom (dir.text.length + 1) p.segments := by
  have hseg : (dir.join p).segments = dir.segments ++ p.segments := by
    have htext : (dir.join p).text.toList = dir.text.toList ++ '/' :: p.text.toList := by
      simp [join, hp, hend, hdir]
    rw [segments, htext, List.splitOnP_append_cons _ _ (by simp)]
    rfl
  have hne : dir.segments ≠ [[]] := by
    intro h
    have := joined_segments dir
    rw [h, joined_singleton] at this
    exact hdir (String.toList_eq_nil_iff.1 this.symm)
  rw [pieces_eq, hseg, piecesOf_append dir.segments_ne_nil hne, ← pieces_eq, joined_segments,
    String.length_toList]

theorem component_ne_root {start : Nat} {a : List (List Char)} {q : Piece}
    (h : q ∈ piecesFrom start a) : q.component ≠ .root := by
  induction a generalizing start with
  | nil => simp [piecesFrom] at h
  | cons x a ih =>
    simp only [piecesFrom] at h
    split at h
    · exact ih h
    · exact ih h
    · rcases List.mem_cons.1 h with rfl | h
      · simp
      · exact ih h
    · rcases List.mem_cons.1 h with rfl | h
      · simp
      · exact ih h

/-- The root comes first, and is the first character. -/
theorem take_root {p : Path} {before after : List Piece}
    (h : p.pieces = before ++ ⟨.root, 1⟩ :: after) : before = [] ∧ (p.take 1).text = "/" := by
  rw [pieces_eq] at h
  unfold piecesOf at h
  split at h
  · simp at h
  · rename_i rest hrest hp
    rcases before with _ | ⟨_, before⟩
    · refine ⟨rfl, ?_⟩
      rw [take, ← joined_segments, hp, joined_cons (fun h => hrest h)]
      rfl
    · rw [List.cons_append, List.cons.injEq] at h
      exact absurd rfl (component_ne_root (q := ⟨.root, 1⟩) (by rw [h.2]; simp))
  · rcases before with _ | ⟨_, before⟩
    · simp at h
    · rw [List.cons_append, List.cons.injEq] at h
      exact absurd rfl (component_ne_root (q := ⟨.root, 1⟩) (by rw [h.2]; simp))
  · exact absurd rfl (component_ne_root (q := ⟨.root, 1⟩) (by rw [h]; simp))

theorem pieces_join_root {p : Path} (hp : p.isAbsolute = false) :
    (Path.join ⟨"/"⟩ p).pieces = [⟨.root, 1⟩] ++ piecesFrom 1 p.segments := by
  have hseg : (Path.join ⟨"/"⟩ p).segments = [] :: p.segments := by
    have htext : (Path.join ⟨"/"⟩ p).text.toList = [] ++ '/' :: p.text.toList := by
      simp [join, hp, endsLikeDirectory]
    rw [segments, htext, List.splitOnP_append_cons _ _ (by simp), List.splitOnP_nil]
    rfl
  rw [pieces_eq, hseg, piecesOf_root p.segments_ne_nil, List.singleton_append]

theorem length_name_le_stop {start : Nat} {a : List (List Char)} {q : Piece} {n : String}
    (h : q ∈ piecesFrom start a) (hn : q.component = .name n) : n.length ≤ q.stop := by
  induction a generalizing start with
  | nil => simp [piecesFrom] at h
  | cons x a ih =>
    simp only [piecesFrom] at h
    split at h
    · exact ih h
    · exact ih h
    · rcases List.mem_cons.1 h with rfl | h
      · cases hn
      · exact ih h
    · rcases List.mem_cons.1 h with rfl | h
      · cases hn
        simp
      · exact ih h

theorem length_baseName_le (p : Path) : p.baseName.length ≤ p.text.length := by
  rw [baseName, fileName?]
  split
  · rename_i n hlast
    obtain ⟨q, hq, hn⟩ := List.mem_map.1 (List.mem_of_getLast? hlast)
    refine le_trans ?_ (stop_le_of_mem_pieces hq)
    rw [pieces_eq] at hq
    unfold piecesOf at hq
    split at hq
    · simp at hq
    · rcases List.mem_cons.1 hq with rfl | hq
      · cases hn
      · exact length_name_le_stop hq hn
    · rcases List.mem_cons.1 hq with rfl | hq
      · cases hn
      · exact length_name_le_stop hq hn
    · exact length_name_le_stop hq hn
  · exact Nat.le_refl _

/-- Component number `i`, counted from zero, ends before `(i + 1) * k`. -/
def Fits (k : Nat) (p : Path) : Prop :=
  ∀ i q, p.pieces[i]? = some q → q.stop ≤ (i + 1) * k

theorem fits_of_length_le {k : Nat} {p : Path} (h : p.text.length ≤ k) : p.Fits k := by
  intro i q hq
  calc q.stop ≤ p.text.length := stop_le_of_mem_pieces (List.mem_of_getElem? hq)
    _ ≤ k := h
    _ ≤ (i + 1) * k := Nat.le_mul_of_pos_left k (Nat.succ_pos i)

theorem fits_of_pieces_eq {k start : Nat} {v r : Path} {ps : List Piece}
    (hv : v.pieces = ps ++ piecesFrom start r.segments)
    (hps : ∀ i q, ps[i]? = some q → q.stop ≤ (i + 1) * k)
    (hstart : start + r.text.length ≤ (ps.length + 1) * k) : v.Fits k := by
  intro i q hq
  rw [hv] at hq
  by_cases hi : i < ps.length
  · rw [List.getElem?_append_left hi] at hq
    exact hps i q hq
  · rw [List.getElem?_append_right (Nat.le_of_not_lt hi)] at hq
    have hstop := stop_le_of_mem_piecesFrom (List.mem_of_getElem? hq)
    rw [joined_segments, String.length_toList] at hstop
    exact (hstop.trans hstart).trans (Nat.mul_le_mul_right k (by omega))

/-- A short path, joined to what a path that fits is up to a component. -/
theorem Fits.join_take {k : Nat} {u r : Path} (hu : u.Fits k) (hr : r.text.length < k)
    (habs : r.isAbsolute = false) {front after : List Piece} {q : Piece}
    (hpieces : u.pieces = front ++ q :: after) :
    ((u.take q.stop).join r).Fits k
      ∧ ((u.take q.stop).join r).text.length ≤ (front.length + 2) * k := by
  have hsep : "/".length = 1 := rfl
  by_cases hroot : q = ⟨.root, 1⟩
  · subst hroot
    obtain ⟨rfl, htext⟩ := take_root hpieces
    have hdir : u.take 1 = ⟨"/"⟩ := congrArg Path.mk htext
    simp only [hdir]
    refine ⟨fits_of_pieces_eq (pieces_join_root habs) ?_ ?_, ?_⟩
    · intro i q hq
      rw [List.mem_singleton.1 (List.mem_of_getElem? hq)]
      exact (Nat.one_le_of_lt hr).trans (Nat.le_mul_of_pos_left k (Nat.succ_pos i))
    · simp only [List.length_singleton]
      omega
    · have hlen : (Path.join ⟨"/"⟩ r).text.length = 1 + r.text.length := by
        simp [Path.join, habs, endsLikeDirectory, String.length_append, hsep]
      simp only [hlen, List.length_nil]
      omega
  · obtain ⟨hps, hlen, hend, hne⟩ := take_stop hpieces hroot
    have hstop : q.stop ≤ (front.length + 1) * k := hu front.length q (by
      rw [hpieces, List.getElem?_append_right (Nat.le_refl _)]
      simp)
    have hsum : q.stop + 1 + r.text.length ≤ (front.length + 1 + 1) * k := by
      rw [Nat.succ_mul (front.length + 1)]
      omega
    have hjoin := pieces_join hne hend habs
    rw [hps, hlen] at hjoin
    refine ⟨fits_of_pieces_eq hjoin (fun i p hp => hu i p ?_) (by simpa using hsum), ?_⟩
    · rw [hpieces, List.append_cons, List.getElem?_append_left (List.getElem?_eq_some_iff.1 hp).1]
      exact hp
    · have htext : ((u.take q.stop).join r).text.length = q.stop + 1 + r.text.length := by
        simp [Path.join, habs, hend, hne, String.length_append, hlen, hsep]
      rw [htext]
      exact hsum

/-- A short path, joined to the directory of a path that fits, fits as well, and is no longer than
the components of that path allow. -/
theorem Fits.join {k : Nat} {u dir r : Path} (hu : u.Fits k) (hdir : u.parent? = some dir)
    (hr : r.text.length < k) :
    (dir.join r).Fits k ∧ (dir.join r).text.length ≤ u.components.length * k := by
  have hshort : ∀ n, r.text.length ≤ (n + 1) * k :=
    fun n => hr.le.trans (Nat.le_mul_of_pos_left k (Nat.succ_pos n))
  unfold parent? at hdir
  rw [components, List.length_map, ← List.length_reverse]
  split at hdir
  · cases hdir
  · cases hdir
  · rename_i last hpieces
    cases hdir
    have hjoin : (u.take 0).join r = r := by
      simp [Path.join, take]
    rw [hjoin, hpieces]
    exact ⟨fits_of_length_le hr.le, hshort 0⟩
  · rename_i last before rest _ hrev
    cases hdir
    have hpieces : u.pieces = rest.reverse ++ before :: [last] := by
      rw [← List.reverse_reverse u.pieces, hrev]
      simp
    rw [hrev, List.length_cons, List.length_cons]
    cases habs : r.isAbsolute with
    | true =>
      have hjoin : (u.take before.stop).join r = r := by
        simp [Path.join, habs]
      rw [hjoin]
      exact ⟨fits_of_length_le hr.le, hshort _⟩
    | false => simpa using hu.join_take hr habs hpieces

end HexPatterns.Path
