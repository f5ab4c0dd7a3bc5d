import Mathlib
import HexPatterns.Proofs.Walk

/-!
# What is replayed, and what a replay tells

A pattern is replayed just if it is the writing of moves with a sign's header in front
(`replay_eq_some_iff`). The rest follows from the moves. A walk that is extended keeps its edges and
gets one more, between the points where the walker stands before and after the move
(`Track.getElem?_edges_ofMoves`), so the walk of the first moves has the first edges. An edge keeps
its ends in their order, which is total, so it is as good as the pair of its ends without an order
(`Edge.between_eq_iff`). Taking an edge twice is then a matter of where the walker stands.

Coordinates have 32 bits and wrap around. A walk of fewer than `2 ^ 31` moves does not come so far:
no coordinate exceeds the number of moves made (`Walker.within_position`), and the two ends of an
edge are neighbours also when their coordinates are read as whole numbers.
-/

namespace HexPatterns.Grid

section Edges

namespace Point

variable {p q : Point}

theorem le_iff : p.le q = true ↔ p.x < q.x ∨ p.x = q.x ∧ p.y ≤ q.y := by
  simp [le]

theorem le_antisymm (hpq : p.le q = true) (hqp : q.le p = true) : p = q := by
  obtain ⟨px, py⟩ := p
  obtain ⟨qx, qy⟩ := q
  simp only [le_iff, mk.injEq, Int32.lt_iff_toInt_lt, Int32.le_iff_toInt_le, ← Int32.toInt_inj]
    at hpq hqp ⊢
  omega

theorem le_total (p q : Point) : p.le q = true ∨ q.le p = true := by
  simp only [le_iff, Int32.lt_iff_toInt_lt, Int32.le_iff_toInt_le, ← Int32.toInt_inj]
  omega

/-- The points are next to each other on the lattice: from the one to the other it is one step in
one of the six directions. -/
def Adjacent (p q : Point) : Prop :=
  (q.x - p.x, q.y - p.y) ∈ [(1, 0), (0, 1), (-1, 1), (-1, 0), (0, -1), (1, -1)]

/-- The same of the coordinates as whole numbers, which do not wrap around. -/
def AdjacentInt (p q : Point) : Prop :=
  (q.x.toInt - p.x.toInt, q.y.toInt - p.y.toInt)
    ∈ [(1, 0), (0, 1), (-1, 1), (-1, 0), (0, -1), (1, -1)]

theorem Adjacent.symm (h : p.Adjacent q) : q.Adjacent p := by
  simp only [Adjacent, List.mem_cons, Prod.mk.injEq, List.not_mem_nil, or_false] at h
  rw [Adjacent, ← @Int32.neg_sub q.x, ← @Int32.neg_sub q.y]
  rcases h with ⟨hx, hy⟩ | ⟨hx, hy⟩ | ⟨hx, hy⟩ | ⟨hx, hy⟩ | ⟨hx, hy⟩ | ⟨hx, hy⟩ <;>
    simp [hx, hy]

theorem AdjacentInt.symm (h : p.AdjacentInt q) : q.AdjacentInt p := by
  simp only [AdjacentInt, List.mem_cons, Prod.mk.injEq, List.not_mem_nil, or_false] at h ⊢
  omega

theorem offsets_mem (f : Facing) :
    offsets.get f ∈ [(1, 0), (0, 1), (-1, 1), (-1, 0), (0, -1), (1, -1)] := by
  revert f
  decide

theorem toInt_offsets_mem (f : Facing) : ((offsets.get f).1.toInt, (offsets.get f).2.toInt)
    ∈ [(1, 0), (0, 1), (-1, 1), (-1, 0), (0, -1), (1, -1)] := by
  revert f
  decide

theorem adjacent_neighbor (p : Point) (f : Facing) : p.Adjacent (p.neighbor f) := by
  have hback : ∀ a d : Int32, a + d - a = d := fun a d => by
    rw [Int32.add_comm, Int32.add_sub_cancel]
  rw [Adjacent, neighbor, hback, hback]
  exact offsets_mem f

/-- The point lies at most `n` away from the origin in either coordinate. -/
structure Within (n : Nat) (p : Point) : Prop where
  x : |p.x.toInt| ≤ n
  y : |p.y.toInt| ≤ n

/-- A sum with an offset does not wrap around unless it leaves the 32 bits. -/
theorem toInt_add_offset {a d : Int32} {n : Nat} (ha : |a.toInt| ≤ n) (hn : n + 1 < 2 ^ 31)
    (hd : |d.toInt| ≤ 1) : (a + d).toInt = a.toInt + d.toInt := by
  rw [abs_le] at ha hd
  rw [Int32.toInt_add]
  exact Int.bmod_eq_of_le (by omega) (by omega)

theorem Within.neighbor {n : Nat} (h : p.Within n) (hn : n + 1 < 2 ^ 31) (f : Facing) :
    (p.neighbor f).Within (n + 1) ∧ p.AdjacentInt (p.neighbor f) := by
  have hoffset := toInt_offsets_mem f
  simp only [List.mem_cons, Prod.mk.injEq, List.not_mem_nil, or_false] at hoffset
  have hx : (p.neighbor f).x.toInt = p.x.toInt + (offsets.get f).1.toInt :=
    toInt_add_offset h.x hn (by rw [abs_le]; omega)
  have hy : (p.neighbor f).y.toInt = p.y.toInt + (offsets.get f).2.toInt :=
    toInt_add_offset h.y hn (by rw [abs_le]; omega)
  obtain ⟨hx', hy'⟩ := h
  rw [abs_le] at hx' hy'
  refine ⟨⟨?_, ?_⟩, ?_⟩
  · rw [hx, abs_le]
    omega
  · rw [hy, abs_le]
    omega
  · simp only [AdjacentInt, hx, hy, List.mem_cons, Prod.mk.injEq, List.not_mem_nil, or_false]
    omega

end Point

namespace Edge

variable {p q p' q' : Point}

theorem between_comm (p q : Point) : between p q = between q p := by
  unfold between
  split_ifs with hpq hqp hqp
  · rw [Point.le_antisymm hpq hqp]
  · rfl
  · rfl
  · exact absurd (Point.le_total p q) (not_or.2 ⟨hpq, hqp⟩)

/-- The two ends of an edge between two points are the two points. -/
theorem ends_between (p q : Point) : s((between p q).lower, (between p q).upper) = s(p, q) := by
  unfold between
  split_ifs
  · rfl
  · exact Sym2.eq_swap

/-- Two edges are equal just if they have the same ends, in whatever order. -/
theorem between_eq_iff : between p q = between p' q' ↔ s(p, q) = s(p', q') := by
  constructor
  · intro h
    rw [← ends_between p q, h, ends_between]
  · intro h
    rcases Sym2.eq_iff.1 h with ⟨rfl, rfl⟩ | ⟨rfl, rfl⟩
    · rfl
    · exact between_comm p q

theorem adjacent_between (h : p.Adjacent q) : (between p q).lower.Adjacent (between p q).upper := by
  unfold between
  split_ifs
  · exact h
  · exact h.symm

theorem adjacentInt_between (h : p.AdjacentInt q) :
    (between p q).lower.AdjacentInt (between p q).upper := by
  unfold between
  split_ifs
  · exact h
  · exact h.symm

end Edge

end Edges

/-- The walker of a sign after some moves. -/
def Walker.ofMoves (s : Sign) (ms : List Move) : Walker :=
  ms.foldl after (start s)

namespace Walker

variable (s : Sign) (ms : List Move) (m : Move)

theorem ofMoves_concat : ofMoves s (ms ++ [m]) = (ofMoves s ms).after m := by
  rw [ofMoves, ofMoves, List.foldl_concat]

theorem adjacent_position :
    (ofMoves s ms).position.Adjacent (ofMoves s (ms ++ [m])).position := by
  rw [ofMoves_concat]
  exact Point.adjacent_neighbor _ _

/-- No coordinate exceeds the number of moves made, as long as that has 31 bits. -/
theorem within_position (h : ms.length < 2 ^ 31) : (ofMoves s ms).position.Within ms.length := by
  induction ms using List.reverseRecOn with
  | nil => exact ⟨abs_zero.le, abs_zero.le⟩
  | append_singleton ms m ih =>
    rw [List.length_append, List.length_singleton] at h ⊢
    rw [ofMoves_concat]
    exact ((ih (by omega)).neighbor h _).1

theorem adjacentInt_position (h : ms.length + 1 < 2 ^ 31) :
    (ofMoves s ms).position.AdjacentInt (ofMoves s (ms ++ [m])).position := by
  rw [ofMoves_concat]
  exact ((within_position s ms (by omega)).neighbor h _).2

end Walker

namespace Track

variable (s : Sign) (ms : List Move)

theorem walker_ofMoves : (ofMoves s ms).walker = Walker.ofMoves s ms := by
  induction ms using List.reverseRecOn with
  | nil => rfl
  | append_singleton ms m ih =>
    rw [ofMoves_concat, Walker.ofMoves_concat, ← ih]
    rfl

theorem edges_ofMoves_concat (m : Move) : (ofMoves s (ms ++ [m])).edges
    = (ofMoves s ms).edges
      ++ [.between (Walker.ofMoves s ms).position (Walker.ofMoves s (ms ++ [m])).position] := by
  rw [← walker_ofMoves, ← walker_ofMoves, ofMoves_concat, edges_extend]
  rfl

theorem length_edges_ofMoves : (ofMoves s ms).edges.length = ms.length := by
  induction ms using List.reverseRecOn with
  | nil => rfl
  | append_singleton ms m ih => simp [edges_ofMoves_concat, ih]

theorem edges_ofMoves_isPrefix (more : List Move) :
    (ofMoves s ms).edges <+: (ofMoves s (ms ++ more)).edges := by
  induction more using List.reverseRecOn with
  | nil => rw [List.append_nil]
  | append_singleton more m ih =>
    rw [← List.append_assoc, edges_ofMoves_concat]
    exact ih.trans (List.prefix_append _ _)

/-- The walk of the first moves has the first edges. -/
theorem edges_ofMoves_of_prefix {front : List Move} (h : front <+: ms) :
    (ofMoves s front).edges = (ofMoves s ms).edges.take front.length := by
  obtain ⟨more, rfl⟩ := h
  rw [← length_edges_ofMoves s front]
  exact List.prefix_iff_eq_take.1 (edges_ofMoves_isPrefix s front more)

/-- The points between which the walker goes by move number `i`, counted from zero. -/
theorem getElem?_edges_ofMoves {i : Nat} (hi : i < ms.length) :
    ∃ e, (ofMoves s ms).edges[i]? = some e
      ∧ e = .between (Walker.ofMoves s (ms.take i)).position
        (Walker.ofMoves s (ms.take (i + 1))).position
      ∧ e.lower.Adjacent e.upper ∧ (ms.length < 2 ^ 31 → e.lower.AdjacentInt e.upper) := by
  have htake : ms.take (i + 1) = ms.take i ++ [ms[i]] := (List.take_concat_get' ms i hi).symm
  have hlength : (ofMoves s (ms.take i)).edges.length = i := by
    rw [length_edges_ofMoves, List.length_take, min_eq_left hi.le]
  obtain ⟨rest, hrest⟩ := edges_ofMoves_isPrefix s (ms.take (i + 1)) (ms.drop (i + 1))
  rw [List.take_append_drop, htake, edges_ofMoves_concat] at hrest
  refine ⟨_, ?_, rfl, ?_, fun hshort => ?_⟩
  · rw [← hrest, htake, List.append_assoc, List.getElem?_append_right hlength.le, hlength,
      Nat.sub_self]
    rfl
  · rw [htake]
    exact Edge.adjacent_between (Walker.adjacent_position s _ _)
  · rw [htake]
    refine Edge.adjacentInt_between (Walker.adjacentInt_position s _ _ ?_)
    rw [List.length_take]
    omega

end Track

section Symbols

theorem Move.ofSymbol?_eq_some_iff {c : Char} {m : Move} :
    Move.ofSymbol? c = some m ↔ c = m.symbol := by
  constructor
  · intro h
    unfold Move.ofSymbol? at h
    split at h <;> cases h <;> rfl
  · rintro rfl
    exact m.ofSymbol?_symbol

theorem Move.exists_symbol_iff {c : Char} :
    (∃ m : Move, c = m.symbol) ↔ c ∈ ['a', 'q', 'w', 'e', 'd'] := by
  constructor
  · rintro ⟨m, rfl⟩
    cases m <;> decide
  · intro h
    simp only [List.mem_cons, List.not_mem_nil, or_false] at h
    rcases h with rfl | rfl | rfl | rfl | rfl
    exacts [⟨.double, rfl⟩, ⟨.addFive, rfl⟩, ⟨.addOne, rfl⟩, ⟨.addTen, rfl⟩, ⟨.halve, rfl⟩]

theorem mapM_ofSymbol?_eq_some_iff {p : List Char} {ms : List Move} :
    p.mapM Move.ofSymbol? = some ms ↔ p = ms.map Move.symbol := by
  constructor
  · intro h
    induction p generalizing ms with
    | nil =>
      cases h
      rfl
    | cons c p ih =>
      simp only [List.mapM_cons, Option.bind_eq_bind, Option.bind_eq_some_iff, Option.pure_def,
        Option.some.injEq] at h
      obtain ⟨m, hm, rest, hrest, rfl⟩ := h
      rw [Move.ofSymbol?_eq_some_iff.1 hm, ih hrest, List.map_cons]
  · rintro rfl
    exact mapM_ofSymbol?_symbol ms

/-- A text is the writing of moves just if each of its characters is a symbol. -/
theorem exists_map_symbol_iff {p : List Char} :
    (∃ ms : List Move, p = ms.map Move.symbol) ↔ ∀ c ∈ p, c ∈ ['a', 'q', 'w', 'e', 'd'] := by
  have hrange := Set.ext_iff.1 (Set.range_list_map Move.symbol) p
  simp only [Set.mem_range, Set.mem_ofPred_eq] at hrange
  simp only [← Move.exists_symbol_iff, eq_comm (a := p), eq_comm (b := Move.symbol _)]
  exact hrange

theorem Sign.ofPattern?_eq_some_iff {p : List Char} {s : Sign} :
    Sign.ofPattern? p = some s ↔ s.header.map Move.symbol <+: p := by
  have hone : ¬ (Sign.positive.header.map Move.symbol <+: p
      ∧ Sign.negative.header.map Move.symbol <+: p) := by
    rintro ⟨⟨_, rfl⟩, _, h⟩
    simp [Sign.header, Move.symbol] at h
  unfold Sign.ofPattern?
  simp only [← List.isPrefixOf_iff_prefix] at hone ⊢
  rcases hpos : (Sign.positive.header.map Move.symbol).isPrefixOf p with _ | _ <;>
    rcases hneg : (Sign.negative.header.map Move.symbol).isPrefixOf p with _ | _ <;>
      cases s <;> simp [hpos, hneg]
  all_goals exact hone ⟨hpos, hneg⟩

end Symbols

section Replay

variable {α : Type} [Scalar α]

/-- What is replayed is the writing of moves that start with a header, and the moves behind it are
those that count. -/
theorem replay_eq_some_iff {p : List Char} {w : Walk α} :
    replay p = some w ↔ ∃ s ms, s.header.map Move.symbol <+: p ∧ p = ms.map Move.symbol
      ∧ w = ⟨s, valueOf s (ms.drop 4), .ofMoves s ms⟩ := by
  have hlength : ∀ s : Sign, s.header.length = 4 := by
    rintro (_ | _) <;> rfl
  simp only [replay, Option.bind_eq_bind, Option.bind_eq_some_iff, Option.pure_def,
    Option.some.injEq, Sign.ofPattern?_eq_some_iff, mapM_ofSymbol?_eq_some_iff, hlength]
  constructor
  · rintro ⟨s, hs, ms, hms, rfl⟩
    exact ⟨s, ms, hs, hms, rfl⟩
  · rintro ⟨s, ms, hs, hms, rfl⟩
    exact ⟨s, hs, ms, hms, rfl⟩

theorem isSome_replay_iff (p : List Char) : (replay (α := α) p).isSome = true
    ↔ (['a', 'q', 'a', 'a'] <+: p ∨ ['d', 'e', 'd', 'd'] <+: p)
      ∧ ∀ c ∈ p, c ∈ ['a', 'q', 'w', 'e', 'd'] := by
  rw [Option.isSome_iff_exists, ← exists_map_symbol_iff]
  simp only [replay_eq_some_iff]
  constructor
  · rintro ⟨w, s, ms, hs, hms, -⟩
    refine ⟨?_, ms, hms⟩
    cases s with
    | positive => exact .inl hs
    | negative => exact .inr hs
  · rintro ⟨hp | hp, ms, hms⟩
    · exact ⟨_, .positive, ms, hp, hms, rfl⟩
    · exact ⟨_, .negative, ms, hp, hms, rfl⟩

/-- A front of a pattern that has the header is replayed along the first edges. -/
theorem exists_replay_of_prefix {p r : List Char} {w : Walk α} (h : replay p = some w)
    (hr : r <+: p) (hlength : 4 ≤ r.length) :
    ∃ v : Walk α, replay r = some v ∧ v.edges = w.edges.take r.length := by
  obtain ⟨s, ms, hs, rfl, rfl⟩ := replay_eq_some_iff.1 h
  have hr' : r = (ms.take r.length).map Move.symbol := by
    rw [List.map_take]
    exact List.prefix_iff_eq_take.1 hr
  have hfront : (s.header.map Move.symbol).length ≤ r.length := by
    cases s <;> exact hlength
  have hheader := List.prefix_of_prefix_length_le hs hr hfront
  refine ⟨_, replay_eq_some_iff.2 ⟨s, ms.take r.length, hheader, hr', rfl⟩, ?_⟩
  have hlength' : (ms.take r.length).length = r.length := by
    rw [← List.length_map Move.symbol, ← hr']
  exact (Track.edges_ofMoves_of_prefix s ms (List.take_prefix _ _)).trans (by rw [hlength']; rfl)

/-- Just those texts are replayed that start with a header and hold no character but symbols. A
replay has one edge for each character, between the points at which the walker stands before and
after the move; these are neighbours, and fewer than `2 ^ 31` moves never wrap around. It is
self-avoiding if no two of its edges are the same, counts by the moves behind the header, and starts
with the replay of each front of the text that has the header. -/
theorem replay_characterizes (p : List Char) :
    ((replay (α := α) p).isSome = true ↔ (['a', 'q', 'a', 'a'] <+: p ∨ ['d', 'e', 'd', 'd'] <+: p)
        ∧ ∀ c ∈ p, c ∈ ['a', 'q', 'w', 'e', 'd'])
      ∧ (∀ a b a' b' : Point, Edge.between a b = Edge.between a' b' ↔ s(a, b) = s(a', b'))
      ∧ ∀ w : Walk α, replay p = some w → ∃ ms : List Move, p = ms.map Move.symbol
        ∧ w.sign.header.map Move.symbol <+: p
        ∧ w.edges.length = p.length
        ∧ (∀ i < p.length, ∃ e, w.edges[i]? = some e
          ∧ e = .between (Walker.ofMoves w.sign (ms.take i)).position
            (Walker.ofMoves w.sign (ms.take (i + 1))).position
          ∧ s(e.lower, e.upper) = s((Walker.ofMoves w.sign (ms.take i)).position,
            (Walker.ofMoves w.sign (ms.take (i + 1))).position)
          ∧ e.lower.Adjacent e.upper
          ∧ (p.length < 2 ^ 31 → e.lower.AdjacentInt e.upper))
        ∧ (w.isSelfAvoiding = true ↔ ∀ i j, i < j → j < p.length → w.edges[i]? ≠ w.edges[j]?)
        ∧ w.value = (ms.drop 4).foldl (fun x m => m.apply w.sign x) Scalar.zero
        ∧ ∀ r, r <+: p → 4 ≤ r.length → ∃ v : Walk α, replay r = some v
          ∧ v.edges = w.edges.take r.length := by
  refine ⟨isSome_replay_iff p, fun _ _ _ _ => Edge.between_eq_iff, fun w hw => ?_⟩
  have hfronts := fun r => exists_replay_of_prefix (r := r) hw
  obtain ⟨s, ms, hs, rfl, rfl⟩ := replay_eq_some_iff.1 hw
  have hlength : (Track.ofMoves s ms).edges.length = (ms.map Move.symbol).length := by
    rw [Track.length_edges_ofMoves, List.length_map]
  refine ⟨ms, rfl, hs, hlength, fun i hi => ?_, ?_, rfl, hfronts⟩
  · rw [List.length_map] at hi
    obtain ⟨e, hget, rfl, hadjacent⟩ := Track.getElem?_edges_ofMoves s ms hi
    rw [List.length_map]
    exact ⟨_, hget, rfl, Edge.ends_between _ _, hadjacent⟩
  · rw [Walk.isSelfAvoiding, allNew_empty_iff, List.nodup_iff_getElem?_ne_getElem?]
    rw [← hlength]
    rfl

end Replay

end HexPatterns.Grid
