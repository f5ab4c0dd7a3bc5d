import Mathlib
import HexPatterns.Proofs.Arena
import HexPatterns.Proofs.Frontier
import HexPatterns.Synthesis.Search

/-!
# What a round does

A round of a search takes up a state and visits its neighbours, and a visit makes one node or none.
This is said once for visits (`Search.visit_eq`) and once for rounds (`Search.round_cases`). Nothing
else changes a search, so what holds at the start and is kept by taking up a state and by making one
holds of every search that is over (`Search.Invariant.search`).

The first round can be said in full, for every target: the header leaves three edges free where it
ends, and the round makes the three states of the moves that count on (`Search.visits_seed`).
-/

namespace HexPatterns.Synthesis

open Grid

variable {α : Type} [Scalar α]

namespace Search

section Rounds

variable (limits : Limits α) (target : α)

/-- The node that a visit makes, if it makes one. -/
def visited (i : Nat) (s : Search α) (m : Move) : Option (Node α) :=
  let child := (s.arena.get i).child (.ofTarget target) i m
  if s.arena.uses i ((s.arena.get i).walker.edge m) || s.seen.contains child.stance then none
  else some child

/-- The moves by which a round goes on from a node: none if the node is too deep. -/
def movesFrom (n : Node α) : List Move :=
  if limits.maxDepth ≤ n.depth then [] else Move.all

/-- The visits of a round. -/
def visits (i : Nat) (ms : List Move) (s : Search α) : Search α :=
  ms.foldl (visit limits target i) s

end Rounds

variable {limits : Limits α} {target : α} {elapsed : Nat → Nat} {s : Search α} {i : Nat} {m : Move}
  {child : Node α}

theorem visit_eq (i : Nat) (s : Search α) (m : Move) :
    visit limits target i s m =
      match s.visited target i m with
      | none => s
      | some child => s.make limits target child := by
  unfold visit visited
  by_cases hedge : s.arena.uses i ((s.arena.get i).walker.edge m) = true
  · simp [hedge]
  · by_cases hseen :
      s.seen.contains ((s.arena.get i).child (.ofTarget target) i m).stance = true
    · simp [hedge, hseen]
    · simp [hedge, hseen]

theorem of_visited (h : s.visited target i m = some child) :
    child = (s.arena.get i).child (.ofTarget target) i m
      ∧ (s.arena.state i).track.uses ((s.arena.state i).track.walker.edge m) = false
      ∧ child.stance ∉ s.seen := by
  unfold visited at h
  simp only [Option.ite_none_left_eq_some, Option.some.injEq, Bool.or_eq_true, not_or,
    Arena.uses_eq] at h
  obtain ⟨⟨hedge, hnew⟩, rfl⟩ := h
  exact ⟨rfl, Bool.eq_false_iff.2 hedge, hnew⟩

theorem lt_of_isOver_eq_false (h : s.isOver limits elapsed = false) :
    s.expansions < limits.maxExpansions := by
  simp only [isOver, Bool.or_eq_false_iff, decide_eq_false_iff_not, not_le] at h
  exact h.1.2

theorem best_of_isOver_eq_false (h : s.isOver limits elapsed = false) : s.best.exact = false := by
  simp only [isOver, Bool.or_eq_false_iff] at h
  exact h.1.1

theorem isOver_congr {s' : Search α} (hbest : s.best = s'.best)
    (hexpansions : s.expansions = s'.expansions) :
    s.isOver limits elapsed = s'.isOver limits elapsed := by
  rw [isOver, isOver, hbest, hexpansions]

/-- What a round does: it finds no state, or it takes one up; then it is the last round, or it
visits neighbours of the state. -/
theorem round_cases (limits : Limits α) (target : α) (elapsed : Nat → Nat) (s : Search α) :
    s.frontier.pop? = none ∧ round limits target elapsed s = .over s
    ∨ ∃ i frontier, s.frontier.pop? = some (i, frontier)
      ∧ ((s.took limits target i frontier).isOver limits elapsed = true
          ∧ round limits target elapsed s = .over (s.took limits target i frontier)
        ∨ (s.took limits target i frontier).isOver limits elapsed = false
          ∧ round limits target elapsed s = .next (visits limits target i
            (movesFrom limits (s.arena.get i)) (s.took limits target i frontier))) := by
  unfold round
  rcases s.frontier.pop? with _ | ⟨i, frontier⟩
  · exact .inl ⟨rfl, rfl⟩
  · refine .inr ⟨i, frontier, rfl, ?_⟩
    by_cases hover : (s.took limits target i frontier).isOver limits elapsed = true
    · exact .inl ⟨hover, if_pos hover⟩
    · refine .inr ⟨Bool.eq_false_iff.2 hover, (if_neg hover).trans ?_⟩
      by_cases hdepth : limits.maxDepth ≤ (s.arena.get i).depth
      · rw [movesFrom, if_pos hdepth]
        exact if_pos hdepth
      · rw [movesFrom, if_neg hdepth]
        exact if_neg hdepth

/-- Visits only add to the nodes, to those that wait and to those that are known. -/
structure Grows (s s' : Search α) : Prop where
  arena : s.arena.Extends s'.arena
  best : s'.best = s.best
  expansions : s'.expansions = s.expansions

theorem visit_grows (limits : Limits α) (target : α) (i : Nat) (s : Search α) (m : Move) :
    s.Grows (visit limits target i s m) := by
  rw [visit_eq]
  split
  · exact ⟨.refl _, rfl, rfl⟩
  · exact ⟨s.arena.extends_push _, rfl, rfl⟩

theorem visits_grows (limits : Limits α) (target : α) (i : Nat) :
    ∀ (ms : List Move) (s : Search α), s.Grows (visits limits target i ms s)
  | [], s => ⟨.refl _, rfl, rfl⟩
  | m :: ms, s => by
    have hfirst := visit_grows limits target i s m
    have hrest := visits_grows limits target i ms (visit limits target i s m)
    exact ⟨hfirst.arena.trans hrest.arena, hrest.best.trans hfirst.best,
      hrest.expansions.trans hfirst.expansions⟩

/-- The property is kept by whatever changes a search. -/
structure Invariant (limits : Limits α) (target : α) (P : Search α → Prop) : Prop where
  waiting {s : Search α} : P s → ∀ i ∈ s.frontier.states, s.arena.IsState i
  took {s : Search α} {i : Nat} {frontier : Frontier Nat} : P s →
    s.frontier.pop? = some (i, frontier) → P (s.took limits target i frontier)
  make {s : Search α} {i : Nat} {m : Move} {child : Node α} : P s → s.arena.IsState i →
    s.visited target i m = some child → P (s.make limits target child)

namespace Invariant

variable {P : Search α → Prop} (hP : Invariant limits target P)

include hP

theorem visits : ∀ (ms : List Move) {s : Search α}, P s → s.arena.IsState i →
    P (visits limits target i ms s)
  | [], _, hs, _ => hs
  | m :: ms, s, hs, hi => by
    have hfirst : P (visit limits target i s m) := by
      rw [visit_eq]
      split
      · exact hs
      · exact hP.make hs hi ‹_›
    exact visits ms hfirst ((visit_grows limits target i s m).arena.isState hi)

theorem run : ∀ (n : Nat) {s : Search α}, P s → P (run limits target elapsed n s)
  | 0, _, hs => hs
  | n + 1, s, hs => by
    rw [Search.run]
    rcases round_cases limits target elapsed s with
      ⟨-, hround⟩ | ⟨i, frontier, hpop, ⟨-, hround⟩ | ⟨-, hround⟩⟩
    · rw [hround]
      exact hs
    · rw [hround]
      exact hP.took hs hpop
    · rw [hround]
      have hi : s.arena.IsState i := hP.waiting hs i (Frontier.mem_of_pop? hpop)
      exact run n (hP.visits _ (hP.took hs hpop) hi)

theorem search (hstart : P (start limits target)) (elapsed : Nat → Nat) :
    P (search limits elapsed target) := by
  unfold Synthesis.search
  simp only []
  split
  · exact hstart
  · exact hP.run _ hstart

end Invariant

section FirstRound

variable (limits target)

theorem seen_start : (start limits target).seen = Std.HashSet.emptyWithCapacity.insert
    ((start limits target).arena.get 3).stance :=
  congrArg (fun i => Std.HashSet.emptyWithCapacity.insert
    ((start limits target).arena.get i).stance) (Arena.index_seed (.ofTarget target))

/-- The node that a move from the seed makes. -/
def seedChild (m : Move) : Node α :=
  ((Arena.seed (.ofTarget target)).1.get 3).child (.ofTarget target) 3 m

theorem track_of_extends_seed (hext : (Arena.seed (.ofTarget target)).1.Extends s.arena) :
    (s.arena.state 3).track = .ofMoves (.ofTarget target) (Sign.ofTarget target).header := by
  rw [hext.state_eq 3 (by rw [Arena.size_seed]; decide), Arena.state_seed]
  rfl

/-- From the seed, the edges by which to double and to halve are taken. -/
theorem visit_seed_of_used (hm : m = .double ∨ m = .halve)
    (hext : (Arena.seed (.ofTarget target)).1.Extends s.arena) :
    visit limits target 3 s m = s := by
  have hused : s.arena.uses 3 ((s.arena.state 3).track.walker.edge m) = true := by
    rw [Arena.uses_eq, track_of_extends_seed target hext]
    cases Sign.ofTarget target <;> rcases hm with rfl | rfl <;> decide
  exact if_pos hused

/-- From the seed, the edges by which to count on are free. -/
theorem visit_seed_of_free (hm : m = .addFive ∨ m = .addOne ∨ m = .addTen)
    (hext : (Arena.seed (.ofTarget target)).1.Extends s.arena)
    (hnew : (seedChild target m).stance ∉ s.seen) :
    visit limits target 3 s m = s.make limits target (seedChild target m) := by
  have hfree : s.arena.uses 3 ((s.arena.state 3).track.walker.edge m) = false := by
    rw [Arena.uses_eq, track_of_extends_seed target hext]
    cases Sign.ofTarget target <;> rcases hm with rfl | rfl | rfl <;> decide
  have hnode : s.arena.get 3 = (Arena.seed (.ofTarget target)).1.get 3 :=
    hext.get_eq 3 (by rw [Arena.size_seed]; decide)
  refine (if_neg (Bool.eq_false_iff.1 hfree)).trans ?_
  rw [hnode]
  exact if_neg hnew

theorem walker_seed : ((Arena.seed (.ofTarget target)).1.get 3 : Node α).walker
    = (Track.ofMoves (.ofTarget target) (Sign.ofTarget target).header).walker :=
  congrArg (fun st : State α => st.track.walker) (Arena.state_seed _)

theorem facing_after_header_ne (s : Sign) {m m' : Move} (h : m ≠ m') :
    ((Track.ofMoves s s.header).walker.after m).facing
      ≠ ((Track.ofMoves s s.header).walker.after m').facing := by
  revert h
  cases s <;> cases m <;> cases m' <;> decide

theorem position_after_header_ne (s : Sign) (m : Move) :
    ((Track.ofMoves s s.header).walker.after m).position
      ≠ (Track.ofMoves s s.header).walker.position := by
  cases s <;> cases m <;> decide

theorem stance_seedChild_ne {m' : Move} (h : m ≠ m') :
    (seedChild target m).stance ≠ (seedChild target m').stance := by
  intro heq
  have hfacing := congrArg Stance.facing heq
  change (((Arena.seed (.ofTarget target)).1.get 3 : Node α).walker.after m).facing
    = (((Arena.seed (.ofTarget target)).1.get 3 : Node α).walker.after m').facing at hfacing
  rw [walker_seed] at hfacing
  exact facing_after_header_ne _ h hfacing

theorem stance_seedChild_ne_seed (m : Move) :
    (seedChild target m).stance ≠ ((Arena.seed (.ofTarget target)).1.get 3).stance := by
  intro heq
  have hposition := congrArg Stance.position heq
  change (((Arena.seed (.ofTarget target)).1.get 3 : Node α).walker.after m).position
    = ((Arena.seed (.ofTarget target)).1.get 3 : Node α).walker.position at hposition
  rw [walker_seed] at hposition
  exact position_after_header_ne _ m hposition

/-- The visits of the first round make three states, by the moves that count on. -/
theorem visits_seed (frontier : Frontier Nat) :
    visits limits target 3 Move.all ((start limits target).took limits target 3 frontier)
      = [.addFive, .addOne, .addTen].foldl
        (fun s m => s.make limits target (seedChild target m))
        ((start limits target).took limits target 3 frontier) := by
  have hext : (Arena.seed (.ofTarget target)).1.Extends
      ((start limits target).took limits target 3 frontier).arena := .refl _
  have hmake : ∀ {s : Search α} (m : Move), (Arena.seed (.ofTarget target)).1.Extends s.arena →
      (Arena.seed (.ofTarget target)).1.Extends
        (s.make limits target (seedChild target m)).arena := fun m hs =>
    hs.trans (Arena.extends_push _ (seedChild target m))
  have hnew : ∀ m, (seedChild target m).stance
      ∉ ((start limits target).took limits target 3 frontier).seen := by
    intro m hm
    change _ ∈ (start limits target).seen at hm
    rw [seen_start, Std.HashSet.mem_insert, beq_iff_eq] at hm
    rcases hm with heq | hm
    · exact stance_seedChild_ne_seed target m heq.symm
    · exact Std.HashSet.not_mem_emptyWithCapacity hm
  have hstill : ∀ {s : Search α} {m m' : Move}, m ≠ m' → (seedChild target m).stance ∉ s.seen →
      (seedChild target m).stance ∉ (s.make limits target (seedChild target m')).seen := by
    intro s m m' hne hs hm
    rcases Std.HashSet.mem_insert.1 hm with heq | hm
    · exact stance_seedChild_ne target hne (beq_iff_eq.1 heq).symm
    · exact hs hm
  simp only [visits, Move.all, List.foldl_cons, List.foldl_nil]
  rw [visit_seed_of_used limits target (.inl rfl) hext,
    visit_seed_of_free limits target (.inl rfl) hext (hnew _),
    visit_seed_of_free limits target (.inr (.inl rfl)) (hmake _ hext)
      (hstill (by decide) (hnew _)),
    visit_seed_of_free limits target (.inr (.inr rfl)) (hmake _ (hmake _ hext))
      (hstill (by decide) (hstill (by decide) (hnew _))),
    visit_seed_of_used limits target (.inr rfl) (hmake _ (hmake _ (hmake _ hext)))]

/-- The first of the three states has counted five. -/
theorem state_visits_seed (frontier : Frontier Nat) :
    (visits limits target 3 Move.all
        ((start limits target).took limits target 3 frontier)).arena.state 4
      = (State.seed (.ofTarget target)).extend (.ofTarget target) .addFive := by
  have hsize : (start limits target).arena.size = 4 := Arena.size_seed _
  have hseed : (start limits target).arena.state 3 = .seed (.ofTarget target) := Arena.state_seed _
  have hchild := Arena.state_push_child (.ofTarget target) .addFive
    (show 3 < (start limits target).arena.size by omega)
  rw [hsize, hseed] at hchild
  rw [visits_seed, ← hchild]
  refine (Arena.state_push_of_lt _ ?_).trans (Arena.state_push_of_lt _ ?_)
  · simp [make, took, hsize]
  · simp [make, took, hsize]

end FirstRound

end Search

/-- A search whose seed is near enough answers with the header. -/
theorem pattern_search_of_exact (limits : Limits α) (elapsed : Nat → Nat) (target : α)
    (hexact : (Search.start limits target).best.exact = true) :
    (search limits elapsed target).solution.pattern
      = (State.seed (.ofTarget target) : State α).track.pattern := by
  have hindex : (Search.start limits target).best.index = 3 := Arena.index_seed _
  have hseed : (Search.start limits target).arena.state 3 = .seed (.ofTarget target) :=
    Arena.state_seed _
  rw [search, if_pos hexact, Search.solution, hindex, Arena.pattern_eq, hseed]

end HexPatterns.Synthesis
