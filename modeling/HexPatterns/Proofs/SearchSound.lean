import Mathlib
import HexPatterns.Proofs.FloatLaws
import HexPatterns.Proofs.Rounds

/-!
# What a search finds is what its pattern spells

Every state of a search is the walk of its sign's header and of moves behind it, has counted what
those moves come to, and has taken no edge twice (`State.Spells`). The seed is such a state, a visit
makes such a state of such a state, and nothing else ever waits or is the best one, so the answer is
one whatever the order in which states are taken up and whenever time runs out (`search_isSound`).
No law of arithmetic is used: the search and the walk apply the same moves. Only that the seed's
residual, too, is its distance from the target is a law of doubles.
-/

namespace HexPatterns.Synthesis

open Grid

variable {α : Type} [Scalar α]

namespace State

/-- The state is the walk of the header and of `ms` behind it, and takes no edge twice. -/
structure Spells (s : Sign) (ms : List Move) (st : State α) : Prop where
  track : st.track = .ofMoves s (s.header ++ ms)
  value : st.value = valueOf s ms
  depth : st.depth = ms.length
  nodup : st.track.edges.Nodup

theorem seed_spells (s : Sign) : (seed s : State α).Spells s [] where
  track := by simp [seed]
  value := rfl
  depth := rfl
  nodup := Track.nodup_edges_header s

theorem Spells.extend {s : Sign} {ms : List Move} {st : State α} (h : st.Spells s ms) {m : Move}
    (hm : st.track.uses (st.track.walker.edge m) = false) :
    (st.extend s m).Spells s (ms ++ [m]) where
  track := by
    rw [State.extend, h.track, ← Track.ofMoves_concat, List.append_assoc]
  value := by rw [State.extend, h.value, valueOf_concat]
  depth := by simp [State.extend, h.depth]
  nodup := st.track.nodup_edges_extend m h.nodup hm

/-- The pattern of a state tells the state's walk and number. -/
theorem Spells.replay {s : Sign} {ms : List Move} {st : State α} (h : st.Spells s ms) :
    Grid.replay st.track.pattern.toList = some ⟨s, st.value, st.track⟩ := by
  rw [h.value, h.track, Track.pattern_ofMoves, String.toList_ofList, replay_header_append]

theorem Spells.pattern {s : Sign} {ms : List Move} {st : State α} (h : st.Spells s ms) :
    st.track.pattern.toList = s.header.map Move.symbol ++ ms.map Move.symbol := by
  rw [h.track, Track.pattern_ofMoves, String.toList_ofList, List.map_append]

/-- Only the seed's pattern is a bare header, and the header counts for nothing. -/
theorem Spells.value_of_pattern_eq {s : Sign} {ms : List Move} {st : State α} (h : st.Spells s ms)
    (hp : st.track.pattern.toList = s.header.map Move.symbol) : st.value = Scalar.zero := by
  rw [h.pattern, List.append_right_eq_self, List.map_eq_nil_iff] at hp
  rw [h.value, hp]
  rfl

end State

/-- The best state of a search. -/
def Search.bestState (s : Search α) : State α :=
  s.arena.state s.best.index

/-- All states are spelled by moves, and the residual of the best one is measured: that of the seed
is how far the target is from zero, any other is how far the target is from the state's number. -/
structure Search.Sound (limits : Limits α) (target : α) (s : Search α) : Prop where
  spells : ∀ i, s.arena.IsState i → ∃ ms, (s.arena.state i).Spells (.ofTarget target) ms
  waiting : ∀ i ∈ s.frontier.states, s.arena.IsState i
  best : s.arena.IsState s.best.index
  residual : s.best.residual = Scalar.distance s.bestState.value target
    ∨ s.bestState = .seed (.ofTarget target) ∧ s.best.residual = Scalar.abs target
  exact : s.best.exact = limits.accepts s.best.residual

variable (limits : Limits α) (target : α)

namespace Search

theorem start_sound : (start limits target).Sound limits target := by
  have hsize : (start limits target).arena.size = 4 := Arena.size_seed _
  have hindex : (start limits target).best.index = 3 := Arena.index_seed _
  have hseed : (start limits target).arena.state 3 = .seed (.ofTarget target) := Arena.state_seed _
  have hstate : ∀ {i}, (start limits target).arena.IsState i ↔ i = 3 := by
    intro i
    rw [Arena.IsState, hsize]
    omega
  refine ⟨fun i hi => ?_, fun i hi => ?_, hstate.2 hindex, .inr ⟨?_, rfl⟩, rfl⟩
  · rw [hstate.1 hi, hseed]
    exact ⟨[], State.seed_spells _⟩
  · rcases Frontier.mem_of_mem_push hi with rfl | hi
    · exact hstate.2 hindex
    · simp at hi
  · rw [bestState, hindex, hseed]

variable {limits target} {s : Search α} {i : Nat} {m : Move}

theorem Sound.took (hs : s.Sound limits target) {frontier : Frontier Nat}
    (hpop : s.frontier.pop? = some (i, frontier)) :
    (s.took limits target i frontier).Sound limits target := by
  have hi := hs.waiting i (Frontier.mem_of_pop? hpop)
  have hwaiting : ∀ j ∈ frontier.states, s.arena.IsState j := fun j hj =>
    hs.waiting j (Frontier.mem_of_mem_pop? hpop hj)
  unfold Search.took Best.improve
  simp only []
  split
  · exact ⟨hs.spells, hwaiting, hi, .inl rfl, rfl⟩
  · exact ⟨hs.spells, hwaiting, hs.best, hs.residual, hs.exact⟩

theorem Sound.make (hs : s.Sound limits target) (hi : s.arena.IsState i) {child : Node α}
    (hchild : s.visited target i m = some child) :
    (s.make limits target child).Sound limits target := by
  obtain ⟨rfl, hedge, -⟩ := of_visited hchild
  have hext := s.arena.extends_push ((s.arena.get i).child (.ofTarget target) i m)
  have hbest : (s.make limits target ((s.arena.get i).child (.ofTarget target) i m)).bestState
      = s.bestState := hext.state_eq _ hs.best.2
  have hnew : (s.make limits target ((s.arena.get i).child (.ofTarget target) i m)).arena.IsState
      s.arena.size := ⟨hi.1.trans hi.2.le, (Arena.size_push ..).symm ▸ Nat.lt_succ_self _⟩
  refine ⟨fun j hj => ?_, fun j hj => ?_, hext.isState hs.best, ?_, hs.exact⟩
  · obtain ⟨hj3, hj⟩ := hj
    rcases Nat.lt_succ_iff_lt_or_eq.1 (Arena.size_push s.arena _ ▸ hj) with hj | rfl
    · obtain ⟨ms, hms⟩ := hs.spells j ⟨hj3, hj⟩
      exact ⟨ms, (hext.state_eq j hj).symm ▸ hms⟩
    · obtain ⟨ms, hms⟩ := hs.spells i hi
      exact ⟨ms ++ [m], (Arena.state_push_child _ m hi.2).symm ▸ hms.extend hedge⟩
  · rcases Frontier.mem_of_mem_push hj with rfl | hj
    · exact hnew
    · exact hext.isState (hs.waiting j hj)
  · rw [hbest]
    exact hs.residual

theorem sound_invariant : Invariant limits target (Sound limits target) where
  waiting hs := hs.waiting
  took hs hpop := hs.took hpop
  make hs hi hchild := hs.make hi hchild

end Search

theorem search_isSound (elapsed : Nat → Nat) :
    (search limits elapsed target).Sound limits target :=
  Search.sound_invariant.search (Search.start_sound limits target) elapsed

/-- The distance of the best state from the target is its residual, the seed's too. -/
theorem Search.Sound.residual_eq {limits : Limits Float} {target : Float} {s : Search Float}
    (h : s.Sound limits target) : s.best.residual = Scalar.distance s.bestState.value target := by
  rcases h.residual with hr | ⟨hseed, hr⟩
  · exact hr
  · rw [hr, hseed]
    exact (Scalar.distance_zero target).symm

/-- Whatever the limits, and whenever time runs out, the pattern that a search returns can be
walked. It has the sign of the target and starts with that sign's header, takes no edge twice, and
comes to the number that the search returns. The residual is that number's distance from the target,
which is the target's magnitude if the pattern is the bare header, and the answer is exact just when
the residual is zero or below the precision. -/
theorem replay_solution (limits : Limits Float) (elapsed : Nat → Nat) (target : Float) :
    let found := (search limits elapsed target).solution
    let header := (Sign.ofTarget target).header.map Move.symbol
    ∃ walk : Walk Float,
      replay found.pattern.toList = some walk
        ∧ walk.sign = Sign.ofTarget target
        ∧ header <+: found.pattern.toList
        ∧ walk.isSelfAvoiding = true
        ∧ walk.edges.Nodup
        ∧ walk.value = found.value
        ∧ found.residual = Scalar.distance found.value target
        ∧ (found.pattern.toList = header → found.residual = Scalar.abs target)
        ∧ (found.exact = true ↔ Scalar.isZero found.residual = true
          ∨ Scalar.lt found.residual limits.precision = true) := by
  intro found header
  have hsound := search_isSound limits target elapsed
  obtain ⟨ms, hms⟩ := hsound.spells _ hsound.best
  have hpattern : found.pattern = (search limits elapsed target).bestState.track.pattern :=
    Arena.pattern_eq _ _
  rw [hpattern]
  refine ⟨_, hms.replay, rfl, ?_, ?_, hms.nodup, rfl, hsound.residual_eq, ?_, ?_⟩
  · exact ⟨_, hms.pattern.symm⟩
  · exact (allNew_empty_iff _).2 hms.nodup
  · intro hp
    change (search limits elapsed target).best.residual = _
    rw [hsound.residual_eq, Search.bestState, hms.value_of_pattern_eq hp, Scalar.distance_zero]
  · change (search limits elapsed target).best.exact = true ↔ _
    rw [hsound.exact, Limits.accepts, Bool.or_eq_true]
    rfl

end HexPatterns.Synthesis
