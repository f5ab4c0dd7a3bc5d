import Mathlib
import HexPatterns.Proofs.SearchSound

/-!
# What holds throughout a search

A search is followed in its smallest steps, together with what it has done: the states that it has
taken up, and the visits that are still due in the round (`History`). A step takes up a state, or it
makes one visit.

One invariant ties these together (`History.Kept`). Every node is made by a move from a node before
it, and no deeper than allowed. The states have different stances, and each of them was taken up
once or still waits. Every state taken up brings five visits at most, and their number is bounded,
so the steps are, whatever the clock says (`History.next_after_start`), and they do what the search
does (`exists_after_search`).
-/

namespace HexPatterns.Synthesis

open Grid

variable {α : Type}

namespace Arena

variable {a : Arena α}

/-- The states among the nodes: the last node of the header, and all since. -/
def states (a : Arena α) : List Nat :=
  List.range' 3 (a.size - 3)

theorem mem_states {i : Nat} : i ∈ a.states ↔ a.IsState i := by
  rw [states, List.mem_range'_1, IsState]
  omega

theorem states_push (n : Node α) (h : 3 ≤ a.size) : (a.push n).states = a.states ++ [a.size] := by
  obtain ⟨k, hk⟩ := Nat.exists_eq_add_of_le h
  rw [states, states, size_push, hk, Nat.add_sub_cancel_left, Nat.add_assoc,
    Nat.add_sub_cancel_left, List.range'_1_concat]

variable [Scalar α]

def stances (a : Arena α) : List (Stance (Scalar.Key α)) :=
  a.states.map fun i => (a.get i).stance

theorem stances_push (n : Node α) (h : 3 ≤ a.size) :
    (a.push n).stances = a.stances ++ [n.stance] := by
  rw [stances, stances, states_push n h, List.map_append, List.map_singleton, get_push_size]
  refine congrArg (· ++ _) (List.map_congr_left fun i hi => ?_)
  rw [get_push_of_lt n (mem_states.1 hi).2]

end Arena

variable [Scalar α]

/-- A search under way, and what it has done so far. -/
structure History (α : Type) [Scalar α] where
  search : Search α
  /-- The states taken up, in order. -/
  taken : List Nat
  /-- The visits that are due before the next state is taken up. -/
  due : List (Nat × Move)

namespace History

section Steps

variable (limits : Limits α) (target : α) (elapsed : Nat → Nat)

def start : History α :=
  ⟨.start limits target, [], []⟩

/-- Another state may be taken up. Of the first one, no budget is asked. -/
def goesOn (h : History α) : Bool :=
  if h.taken.isEmpty then !h.search.best.exact else !h.search.isOver limits elapsed

/-- Takes up a state. -/
def take (h : History α) (i : Nat) (frontier : Frontier Nat) : History α :=
  let search := h.search.took limits target i frontier
  { search
    taken := h.taken ++ [i]
    due := if search.isOver limits elapsed then []
      else (Search.movesFrom limits (h.search.arena.get i)).map (i, ·) }

/-- Makes a visit, which leaves the others due. -/
def visit (h : History α) (i : Nat) (m : Move) (due : List (Nat × Move)) : History α :=
  { search := Search.visit limits target i h.search m
    taken := h.taken
    due }

/-- The next step, unless the search is over. -/
def next (h : History α) : Option (History α) :=
  match h.due with
  | (i, m) :: due => some (h.visit limits target i m due)
  | [] =>
    if h.goesOn limits elapsed then
      h.search.frontier.pop?.map fun (i, frontier) => h.take limits target elapsed i frontier
    else none

/-- The history after `n` steps, or at the end if there are fewer. -/
def after : Nat → History α → History α
  | 0, h => h
  | n + 1, h =>
    match h.next limits target elapsed with
    | none => h
    | some h => after n h

end Steps

@[simp] theorem length_taken_take (limits : Limits α) (target : α) (elapsed : Nat → Nat)
    (h : History α) (i : Nat) (frontier : Frontier Nat) :
    (h.take limits target elapsed i frontier).taken.length = h.taken.length + 1 :=
  List.length_append

/-- What holds at every point of a search. -/
structure Kept (limits : Limits α) (target : α) (h : History α) : Prop where
  /-- The states are spelled by moves, and those that wait and the best one are states. -/
  sound : h.search.Sound limits target
  linked : h.search.arena.Linked (.ofTarget target)
  header : (Arena.seed (.ofTarget target)).1.Extends h.search.arena
  depth : ∀ i < h.search.arena.size, (h.search.arena.get i).depth ≤ limits.maxDepth
  length : ∀ i, h.search.arena.IsState i →
    (h.search.arena.pattern i).length = (h.search.arena.get i).depth + 4
  distinct : h.search.arena.stances.Nodup
  once : (h.taken ++ h.search.frontier.states).Perm h.search.arena.states
  counted : h.search.expansions = h.taken.length
  bounded : h.taken.length ≤ max 1 limits.maxExpansions
  seen : ∀ stance, stance ∈ h.search.seen ↔ stance ∈ h.search.arena.stances
  fresh : h.search.frontier.Fresh
  /-- On the way to a state, states were taken up. -/
  reached : ∀ i < h.search.arena.size, (h.search.arena.get i).depth ≤ h.taken.length
  due : ∀ v ∈ h.due, h.search.arena.IsState v.1
    ∧ (h.search.arena.get v.1).depth < min limits.maxDepth h.taken.length
    ∧ h.taken.length < limits.maxExpansions

section Kept

variable {limits : Limits α} {target : α} {elapsed : Nat → Nat} {h h' : History α} {i : Nat}
  {m : Move}

/-- Behind the header, the pattern of a state has as many moves as the state is deep. -/
theorem length_pattern {s : Search α} (hs : s.Sound limits target) (hi : s.arena.IsState i) :
    (s.arena.pattern i).length = (s.arena.get i).depth + 4 := by
  obtain ⟨ms, hms⟩ := hs.spells i hi
  have hheader : (Sign.ofTarget target).header.length = 4 := by
    cases Sign.ofTarget target <;> rfl
  have hdepth : (s.arena.get i).depth = ms.length := hms.depth
  rw [Arena.pattern_eq, ← String.length_toList, hms.pattern, List.length_append, List.length_map,
    List.length_map, hheader, hdepth, Nat.add_comm]

theorem start_kept (limits : Limits α) (target : α) :
    (start limits target).Kept limits target := by
  have hsound := Search.start_sound limits target
  have hsize : (start limits target).search.arena.size = 4 := Arena.size_seed _
  have hindex : (Arena.seed (.ofTarget target) : Arena α × Nat).2 = 3 := Arena.index_seed _
  have hstates : (start limits target).search.arena.states = [3] := by
    rw [Arena.states, hsize]
    rfl
  have hstances : (start limits target).search.arena.stances
      = [((start limits target).search.arena.get 3).stance] := by
    rw [Arena.stances, hstates, List.map_singleton]
  have hseen : (start limits target).search.seen = Std.HashSet.emptyWithCapacity.insert
      ((start limits target).search.arena.get 3).stance := Search.seen_start limits target
  have hzero : ∀ i < (start limits target).search.arena.size,
      ((start limits target).search.arena.get i).depth = 0 := fun i hi =>
    congrArg State.depth (Arena.state_seed_of_lt _ (hsize ▸ hi))
  refine ⟨hsound, Arena.seed_linked _, .refl _, fun i hi => ?_, fun i => length_pattern hsound, ?_,
    ?_, rfl, by simp [start], fun stance => ?_, Frontier.empty_fresh.push _ _, fun i hi => ?_,
    by simp [start]⟩
  · rw [hzero i hi]
    exact Nat.zero_le _
  · rw [hstances]
    exact List.nodup_singleton _
  · rw [hstates, ← hindex]
    exact Frontier.empty_fresh.states_push 0 _
  · rw [hstances, List.mem_singleton, hseen, Std.HashSet.mem_insert, beq_iff_eq,
      or_iff_left Std.HashSet.not_mem_emptyWithCapacity, eq_comm]
  · rw [hzero i hi]
    exact Nat.zero_le _

theorem Kept.three_le (hk : h.Kept limits target) : 3 ≤ h.search.arena.size := by
  have hsize := hk.header.size_le
  rw [Arena.size_seed] at hsize
  omega

/-- A visit that makes no state changes nothing but what is due. -/
theorem Kept.pass (hk : h.Kept limits target) {due : List (Nat × Move)}
    (hdue : ∀ v ∈ due, v ∈ h.due) : Kept limits target { h with due } :=
  { hk with due := fun v hv => hk.due v (hdue v hv) }

/-- A state that was not known joins those that wait. -/
theorem Kept.make (hk : h.Kept limits target) {child : Node α} (hi : h.search.arena.IsState i)
    (hdepth : (h.search.arena.get i).depth < min limits.maxDepth h.taken.length)
    (hchild : h.search.visited target i m = some child) :
    Kept limits target { h with search := h.search.make limits target child } := by
  have hsound := hk.sound.make hi hchild
  obtain ⟨rfl, -, hnew⟩ := Search.of_visited hchild
  have hext := h.search.arena.extends_push ((h.search.arena.get i).child (.ofTarget target) i m)
  have hstances := Arena.stances_push ((h.search.arena.get i).child (.ofTarget target) i m)
    hk.three_le
  have hdeep : ∀ {n : Nat}, (h.search.arena.get i).depth < n →
      (∀ j < h.search.arena.size, (h.search.arena.get j).depth ≤ n) →
      ∀ j < (h.search.arena.push ((h.search.arena.get i).child (.ofTarget target) i m)).size,
        ((h.search.arena.push ((h.search.arena.get i).child (.ofTarget target) i m)).get j).depth
          ≤ n := by
    intro n hlt hold j hj
    rw [Arena.size_push] at hj
    rcases Nat.lt_succ_iff_lt_or_eq.1 hj with hj | rfl
    · rw [hext.get_eq j hj]
      exact hold j hj
    · rw [Arena.get_push_size]
      exact hlt
  refine { hk with
    sound := hsound, linked := hk.linked.push_child m hi.2, header := hk.header.trans hext,
    depth := ?_, length := fun i => length_pattern hsound, distinct := ?_, once := ?_, seen := ?_,
    fresh := hk.fresh.push _ _, reached := ?_, due := ?_ }
  · exact hdeep (lt_of_lt_of_le hdepth (min_le_left ..)) hk.depth
  · change (Arena.stances (Arena.push ..)).Nodup
    rw [hstances, ← List.concat_eq_append, List.nodup_concat]
    exact ⟨fun hmem => hnew ((hk.seen _).2 hmem), hk.distinct⟩
  · change (h.taken ++ (h.search.frontier.push ..).states).Perm (Arena.states (Arena.push ..))
    rw [Arena.states_push _ hk.three_le]
    refine ((hk.fresh.states_push _ _).append_left h.taken).trans ?_
    refine List.perm_middle.trans ?_
    exact (hk.once.cons _).trans (List.perm_append_singleton _ _).symm
  · intro stance
    change stance ∈ h.search.seen.insert _ ↔ stance ∈ Arena.stances (Arena.push ..)
    rw [hstances, List.mem_append, List.mem_singleton, ← hk.seen, Std.HashSet.mem_insert,
      beq_iff_eq, or_comm, eq_comm]
  · exact hdeep (lt_of_lt_of_le hdepth (min_le_right ..)) hk.reached
  · intro v hv
    obtain ⟨hstate, hv⟩ := hk.due v hv
    refine ⟨hext.isState hstate, ?_⟩
    change ((Arena.push ..).get v.1).depth < _ ∧ _
    rw [hext.get_eq v.1 hstate.2]
    exact hv

theorem Kept.visit (hk : h.Kept limits target) {due : List (Nat × Move)}
    (hdue : h.due = (i, m) :: due) : (h.visit limits target i m due).Kept limits target := by
  have hrest : ∀ v ∈ due, v ∈ h.due := fun v hv => by simp [hdue, hv]
  obtain ⟨hi, hdepth, -⟩ := hk.due (i, m) (by simp [hdue])
  rw [History.visit, Search.visit_eq]
  rcases hvisited : h.search.visited target i m with _ | child
  · exact hk.pass hrest
  · exact (hk.make hi hdepth hvisited).pass hrest

theorem Kept.take (hk : h.Kept limits target) (hgoes : h.goesOn limits elapsed = true)
    {frontier : Frontier Nat} (hpop : h.search.frontier.pop? = some (i, frontier)) :
    (h.take limits target elapsed i frontier).Kept limits target := by
  have hi : h.search.arena.IsState i := hk.sound.waiting i (Frontier.mem_of_pop? hpop)
  have hsound := hk.sound.took hpop
  have hcounted : (h.search.took limits target i frontier).expansions
      = (h.taken ++ [i]).length := by
    simp [Search.took, hk.counted]
  have hbounded : h.taken.length + 1 ≤ max 1 limits.maxExpansions := by
    unfold goesOn at hgoes
    split at hgoes
    · rename_i hnone
      rw [List.isEmpty_iff.1 hnone]
      exact Nat.le_max_left _ _
    · have hleft := Search.lt_of_isOver_eq_false (by simpa using hgoes)
      have hcounted := hk.counted
      omega
  refine { hk with
    sound := hsound, length := fun i => length_pattern hsound, once := ?_, counted := hcounted,
    bounded := ?_, fresh := hk.fresh.of_pop? hpop, reached := ?_, due := ?_ }
  · change ((h.taken ++ [i]) ++ frontier.states).Perm h.search.arena.states
    rw [List.append_assoc]
    exact ((Frontier.states_of_pop? hpop).symm.append_left h.taken).trans hk.once
  · rwa [length_taken_take]
  · intro j hj
    rw [length_taken_take]
    exact (hk.reached j hj).trans (Nat.le_succ _)
  · intro v hv
    simp only [History.take] at hv
    by_cases hover : (h.search.took limits target i frontier).isOver limits elapsed = true
    · simp [hover] at hv
    · rw [if_neg hover] at hv
      obtain ⟨m, hm, rfl⟩ := List.mem_map.1 hv
      have hleft := Search.lt_of_isOver_eq_false (Bool.eq_false_iff.2 hover)
      rw [hcounted] at hleft
      have hreached := hk.reached i hi.2
      have hdepth : (h.search.arena.get i).depth < limits.maxDepth := by
        by_contra hdeep
        rw [Search.movesFrom, if_pos (not_lt.1 hdeep)] at hm
        cases hm
      refine ⟨hi, ?_, hleft⟩
      rw [length_taken_take]
      exact lt_min hdepth (Nat.lt_succ_of_le hreached)

theorem next_cases (hnext : h.next limits target elapsed = some h') :
    (∃ i m due, h.due = (i, m) :: due ∧ h' = h.visit limits target i m due)
      ∨ h.due = [] ∧ h.goesOn limits elapsed = true
        ∧ ∃ i frontier, h.search.frontier.pop? = some (i, frontier)
          ∧ h' = h.take limits target elapsed i frontier := by
  unfold next at hnext
  split at hnext
  · rename_i i m due hdue
    exact .inl ⟨i, m, due, hdue, (Option.some.inj hnext).symm⟩
  · rename_i hdue
    simp only [Option.ite_none_right_eq_some, Option.map_eq_some_iff] at hnext
    obtain ⟨hgoes, ⟨i, frontier⟩, hpop, rfl⟩ := hnext
    exact .inr ⟨hdue, hgoes, i, frontier, hpop, rfl⟩

theorem Kept.next (hk : h.Kept limits target) (hnext : h.next limits target elapsed = some h') :
    h'.Kept limits target := by
  rcases next_cases hnext with ⟨i, m, due, hdue, rfl⟩ | ⟨-, hgoes, i, frontier, hpop, rfl⟩
  · exact hk.visit hdue
  · exact hk.take hgoes hpop

theorem Kept.after (hk : h.Kept limits target) (elapsed : Nat → Nat) (n : Nat) :
    (h.after limits target elapsed n).Kept limits target := by
  induction n generalizing h with
  | zero => exact hk
  | succ n ih =>
    rw [History.after]
    split
    · exact hk
    · exact ih (hk.next ‹_›)

/-- No two states that were taken up have the same stance. -/
theorem Kept.nodup_taken (hk : h.Kept limits target) :
    (h.taken.map fun i => (h.search.arena.get i).stance).Nodup := by
  have hnodup := (hk.once.map fun i => (h.search.arena.get i).stance).nodup_iff.2 hk.distinct
  rw [List.map_append] at hnodup
  exact hnodup.of_append_left

end Kept

section Length

variable {limits : Limits α} {target : α} {elapsed : Nat → Nat} {h h' : History α}

omit [Scalar α] in
theorem length_movesFrom_le (limits : Limits α) (n : Node α) :
    (Search.movesFrom limits n).length ≤ 5 := by
  unfold Search.movesFrom
  split
  · exact Nat.zero_le _
  · exact le_rfl

/-- A state taken up pays for the step and for the visits that it makes due. -/
theorem cost_next (hnext : h.next limits target elapsed = some h') :
    1 + h'.due.length + 6 * h.taken.length ≤ 6 * h'.taken.length + h.due.length := by
  rcases next_cases hnext with ⟨i, m, due, hdue, rfl⟩ | ⟨hdue, -, i, frontier, -, rfl⟩
  · simp only [hdue, visit, List.length_cons]
    omega
  · have hlength : (h.take limits target elapsed i frontier).due.length ≤ 5 := by
      simp only [take]
      split
      · exact Nat.zero_le _
      · rw [List.length_map]
        exact length_movesFrom_le limits _
    rw [hdue, length_taken_take, List.length_nil]
    omega

theorem cost_after : ∀ (n : Nat) (h : History α),
    (h.after limits target elapsed n).next limits target elapsed = none
      ∨ n + (h.after limits target elapsed n).due.length + 6 * h.taken.length
        ≤ 6 * (h.after limits target elapsed n).taken.length + h.due.length
  | 0, h => .inr (by simp [after]; omega)
  | n + 1, h => by
    rw [after]
    split
    · exact .inl ‹_›
    · rename_i h' hnext
      have hcost := cost_next hnext
      exact (cost_after n h').imp_right fun hafter => by omega

/-- When as many states are taken up as may be, nothing is left to do but the visits due. -/
theorem Kept.next_eq_none (hk : h.Kept limits target) (hdue : h.due = [])
    (htaken : max 1 limits.maxExpansions ≤ h.taken.length) :
    h.next limits target elapsed = none := by
  rcases hnext : h.next limits target elapsed with _ | h'
  · rfl
  · rcases next_cases hnext with ⟨i, m, due, hsome, -⟩ | ⟨-, hgoes, i, frontier, hpop, -⟩
    · rw [hdue] at hsome
      cases hsome
    · have hbounded := (hk.take hgoes hpop).bounded
      rw [length_taken_take] at hbounded
      omega

/-- A search has no more steps than the budget bounds, whatever the clock says. -/
theorem next_after_start (limits : Limits α) (target : α) (elapsed : Nat → Nat) :
    ((start limits target).after limits target elapsed (6 * max 1 limits.maxExpansions)).next
      limits target elapsed = none := by
  rcases cost_after (6 * max 1 limits.maxExpansions) (start limits target) with hnone | hcost
  · exact hnone
  · have hk := (start_kept limits target).after elapsed (6 * max 1 limits.maxExpansions)
    have hbounded := hk.bounded
    have htaken : (start limits target).taken.length = 0 := rfl
    have hdue : (start limits target).due.length = 0 := rfl
    exact hk.next_eq_none (List.eq_nil_of_length_eq_zero (by omega)) (by omega)

end Length

section Run

variable {limits : Limits α} {target : α} {elapsed : Nat → Nat} {h : History α} {i : Nat}
  {frontier : Frontier Nat}

theorem after_of_next_eq_none (hnone : h.next limits target elapsed = none) :
    ∀ n, h.after limits target elapsed n = h
  | 0 => rfl
  | n + 1 => by rw [after, hnone]

theorem after_add (m : Nat) : ∀ (n : Nat) (h : History α),
    h.after limits target elapsed (n + m)
      = (h.after limits target elapsed n).after limits target elapsed m
  | 0, h => by rw [Nat.zero_add, after]
  | n + 1, h => by
    rw [Nat.succ_add, after, after]
    split
    · rename_i hnone
      rw [after_of_next_eq_none hnone]
    · exact after_add m n _

/-- A search ends in one way only. -/
theorem after_eq_of_next_eq_none {m n : Nat}
    (hm : (h.after limits target elapsed m).next limits target elapsed = none)
    (hn : (h.after limits target elapsed n).next limits target elapsed = none) :
    h.after limits target elapsed m = h.after limits target elapsed n := by
  rcases Nat.le_total m n with hle | hle
  · obtain ⟨d, rfl⟩ := Nat.exists_eq_add_of_le hle
    rw [after_add, after_of_next_eq_none hm]
  · obtain ⟨d, rfl⟩ := Nat.exists_eq_add_of_le hle
    rw [after_add, after_of_next_eq_none hn]

/-- The visits that are due from a state, made one after the other. -/
theorem after_visits (i : Nat) : ∀ (ms : List Move) (h : History α), h.due = ms.map (i, ·) →
    h.after limits target elapsed ms.length
      = { search := Search.visits limits target i ms h.search, taken := h.taken, due := [] }
  | [], h, hdue => by
    obtain ⟨search, taken, due⟩ := h
    cases hdue
    rfl
  | m :: ms, h, hdue => by
    have hnext : h.next limits target elapsed
        = some (h.visit limits target i m (ms.map (i, ·))) := by
      simp only [next, hdue, List.map_cons]
    rw [List.length_cons, after, hnext]
    exact after_visits i ms (h.visit limits target i m (ms.map (i, ·))) rfl

theorem next_eq_of_pop? (hdue : h.due = []) (hgoes : h.goesOn limits elapsed = true)
    (hpop : h.search.frontier.pop? = some (i, frontier)) :
    h.next limits target elapsed = some (h.take limits target elapsed i frontier) := by
  simp [next, hdue, hgoes, hpop]

/-- A round that is not the last one, step by step: a state is taken up and its visits are made. -/
theorem exists_after_round (hdue : h.due = []) (hgoes : h.goesOn limits elapsed = true)
    (hpop : h.search.frontier.pop? = some (i, frontier))
    (hover : (h.search.took limits target i frontier).isOver limits elapsed = false) :
    ∃ k h', h.after limits target elapsed k = h' ∧ h'.due = [] ∧ h'.goesOn limits elapsed = true
      ∧ h'.search = Search.visits limits target i
        (Search.movesFrom limits (h.search.arena.get i))
        (h.search.took limits target i frontier) := by
  have hdue' : (h.take limits target elapsed i frontier).due
      = (Search.movesFrom limits (h.search.arena.get i)).map (i, ·) := by
    simp [take, hover]
  have hgrows := Search.visits_grows limits target i
    (Search.movesFrom limits (h.search.arena.get i)) (h.search.took limits target i frontier)
  have hover' := (Search.isOver_congr hgrows.best hgrows.expansions).trans hover
  refine ⟨1 + (Search.movesFrom limits (h.search.arena.get i)).length,
    ⟨Search.visits limits target i (Search.movesFrom limits (h.search.arena.get i))
      (h.search.took limits target i frontier), h.taken ++ [i], []⟩, ?_, rfl, ?_, rfl⟩
  · rw [after_add, after, next_eq_of_pop? hdue hgoes hpop]
    exact after_visits i _ _ hdue'
  · simp [goesOn, hover']

/-- The rounds of a search, step by step. -/
theorem exists_after_run (target : α) : ∀ (n : Nat) (h : History α), h.due = [] →
    h.goesOn limits elapsed = true → 0 < n → limits.maxExpansions ≤ h.search.expansions + n →
      ∃ k, (h.after limits target elapsed k).next limits target elapsed = none
        ∧ (h.after limits target elapsed k).search = Search.run limits target elapsed n h.search
  | 0, _, _, _, hn, _ => absurd hn (Nat.lt_irrefl 0)
  | n + 1, h, hdue, hgoes, _, hbudget => by
    rcases Search.round_cases limits target elapsed h.search with
      ⟨hpop, hround⟩ | ⟨i, frontier, hpop, ⟨hover, hround⟩ | ⟨hover, hround⟩⟩
    · exact ⟨0, by simp [after, next, hdue, hgoes, hpop], by rw [Search.run, hround]; rfl⟩
    · have hlast : h.after limits target elapsed 1 = h.take limits target elapsed i frontier := by
        simp [after, next_eq_of_pop? hdue hgoes hpop]
      refine ⟨1, ?_, by rw [hlast, Search.run, hround]; rfl⟩
      rw [hlast]
      simp [next, goesOn, take, hover]
    · obtain ⟨k, h', hafter, hdue', hgoes', hsearch⟩ := exists_after_round hdue hgoes hpop hover
      have hexpansions : h'.search.expansions = h.search.expansions + 1 := by
        rw [hsearch, (Search.visits_grows ..).expansions]
        rfl
      have hleft : h.search.expansions + 1 < limits.maxExpansions :=
        Search.lt_of_isOver_eq_false hover
      obtain ⟨k', hnone, hrun⟩ :=
        exists_after_run target n h' hdue' hgoes' (by omega) (by omega)
      refine ⟨k + k', ?_⟩
      rw [after_add, hafter, hrun, hsearch, Search.run, hround]
      exact ⟨hnone, rfl⟩

end Run

end History

/-- The history of a search ends with what the search finds. -/
theorem exists_after_search (limits : Limits α) (target : α) (elapsed : Nat → Nat) :
    ∃ k, ((History.start limits target).after limits target elapsed k).next limits target elapsed
        = none
      ∧ ((History.start limits target).after limits target elapsed k).search
        = search limits elapsed target := by
  by_cases hexact : (Search.start limits target).best.exact = true
  · refine ⟨0, ?_, ?_⟩
    · simp [History.after, History.next, History.start, History.goesOn, hexact]
    · simp [History.after, History.start, search, hexact]
  · have hgoes : (History.start limits target).goesOn limits elapsed = true := by
      simpa [History.goesOn, History.start] using hexact
    obtain ⟨k, hnone, hsearch⟩ := History.exists_after_run target
      (max 1 limits.maxExpansions) (History.start limits target) rfl hgoes (by omega) (by omega)
    refine ⟨k, hnone, hsearch.trans ?_⟩
    rw [search, if_neg hexact]
    rfl

/-- After as many steps as the budget bounds, the history of a search is at its end. -/
theorem search_after_of_le (limits : Limits α) (target : α) (elapsed : Nat → Nat) {n : Nat}
    (hn : 6 * max 1 limits.maxExpansions ≤ n) :
    ((History.start limits target).after limits target elapsed n).next limits target elapsed = none
      ∧ ((History.start limits target).after limits target elapsed n).search
        = search limits elapsed target := by
  obtain ⟨d, rfl⟩ := Nat.exists_eq_add_of_le hn
  obtain ⟨k, hnone, hsearch⟩ := exists_after_search limits target elapsed
  have hend := History.next_after_start limits target elapsed
  rw [History.after_add, History.after_of_next_eq_none hend]
  refine ⟨hend, ?_⟩
  rw [← hsearch, History.after_eq_of_next_eq_none hend hnone]

end HexPatterns.Synthesis
