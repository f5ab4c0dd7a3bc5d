import Mathlib
import HexPatterns.Proofs.Order
import HexPatterns.Proofs.SearchSound

/-!
# What a larger budget buys

The best state of a search is what is left when the states that it takes up are compared one after
the other, so it is the first of those nearest to the target (`FirstNearest.foldl_improve`). A
budget only says when to stop. Until the smaller of two budgets is spent, searches that differ in
the budget go in step: what the one takes up is the beginning of what the other takes up, and the
rest can only improve on it. If the one finds what it looks for, the other stops there too.
-/

namespace HexPatterns.Synthesis

open Grid

variable {α : Type} [Scalar α]

section Taken

variable (limits : Limits α) (target : α)

/-- The states that at most `n` rounds take up, in order. -/
def Search.takenIn (elapsed : Nat → Nat) : Nat → Search α → List (State α)
  | 0, _ => []
  | n + 1, s =>
    match s.frontier.pop? with
    | none => []
    | some (i, _) =>
      s.arena.state i :: match round limits target elapsed s with
        | .over _ => []
        | .next s => takenIn elapsed n s

/-- The states that a search takes up, in order. There are none if the seed is near enough. -/
def taken (elapsed : Nat → Nat) : List (State α) :=
  let s := Search.start limits target
  if s.best.exact then [] else s.takenIn limits target elapsed (max 1 limits.maxExpansions)

/-- A state, its distance from the target, and whether that is near enough. -/
structure Found (α : Type) where
  state : State α
  residual : α
  exact : Bool

def Found.ofState (st : State α) : Found α :=
  let residual := Scalar.distance st.value target
  ⟨st, residual, limits.accepts residual⟩

/-- The better of a state and the one found so far, which an equal one does not displace. -/
def Found.improve (b : Found α) (st : State α) : Found α :=
  if Scalar.lt (Scalar.distance st.value target) b.residual then .ofState limits target st else b

end Taken

namespace Search

/-- The best state so far, as a walk. -/
def found (s : Search α) : Found α :=
  ⟨s.bestState, s.best.residual, s.best.exact⟩

variable (limits : Limits α) (target : α) (elapsed : Nat → Nat)

theorem found_took (s : Search α) (i : Nat) (frontier : Frontier Nat) :
    (s.took limits target i frontier).found
      = s.found.improve limits target (s.arena.state i) := by
  unfold took Best.improve Found.improve found
  simp only []
  by_cases hlt : Scalar.lt (Scalar.distance (s.arena.get i).value target) s.best.residual = true
  · rw [if_pos hlt]
    exact (if_pos hlt).symm
  · rw [if_neg hlt]
    exact (if_neg hlt).symm

theorem Grows.found_eq {s s' : Search α} (h : s.Grows s') (hbest : s.best.index < s.arena.size) :
    s'.found = s.found := by
  rw [found, found, bestState, bestState, h.best, h.arena.state_eq _ hbest]

/-- What at most `n + 1` rounds do: they find no state, or they take one up; then it is the last
one, or at most `n` rounds go on from there. -/
theorem run_succ_cases (n : Nat) (s : Search α) :
    s.frontier.pop? = none ∧ run limits target elapsed (n + 1) s = s
      ∧ s.takenIn limits target elapsed (n + 1) = []
    ∨ ∃ i frontier, s.frontier.pop? = some (i, frontier)
      ∧ ((s.took limits target i frontier).isOver limits elapsed = true
          ∧ run limits target elapsed (n + 1) s = s.took limits target i frontier
          ∧ s.takenIn limits target elapsed (n + 1) = [s.arena.state i]
        ∨ (s.took limits target i frontier).isOver limits elapsed = false
          ∧ ∃ s', s' = visits limits target i (movesFrom limits (s.arena.get i))
              (s.took limits target i frontier)
          ∧ run limits target elapsed (n + 1) s = run limits target elapsed n s'
          ∧ s.takenIn limits target elapsed (n + 1)
            = s.arena.state i :: s'.takenIn limits target elapsed n) := by
  rcases round_cases limits target elapsed s with
    ⟨hpop, hround⟩ | ⟨i, frontier, hpop, ⟨hover, hround⟩ | ⟨hover, hround⟩⟩
  · exact .inl ⟨hpop, by rw [run, hround], by simp [takenIn, hpop]⟩
  · exact .inr ⟨i, frontier, hpop,
      .inl ⟨hover, by rw [run, hround], by simp [takenIn, hpop, hround]⟩⟩
  · exact .inr ⟨i, frontier, hpop,
      .inr ⟨hover, _, rfl, by rw [run, hround], by simp [takenIn, hpop, hround]⟩⟩

variable {limits target elapsed} in
theorem takenIn_succ {s : Search α} {i : Nat} {frontier : Frontier Nat}
    (hpop : s.frontier.pop? = some (i, frontier))
    (hover : (s.took limits target i frontier).isOver limits elapsed = false) (n : Nat) :
    s.takenIn limits target elapsed (n + 1)
      = s.arena.state i :: (visits limits target i (movesFrom limits (s.arena.get i))
        (s.took limits target i frontier)).takenIn limits target elapsed n := by
  rcases run_succ_cases limits target elapsed n s with
    ⟨hpop', -⟩ | ⟨_, _, hpop', ⟨hover', -⟩ | ⟨-, s', rfl, -, htaken⟩⟩
  · cases hpop.symm.trans hpop'
  · cases hpop.symm.trans hpop'
    cases hover.symm.trans hover'
  · cases hpop.symm.trans hpop'
    exact htaken

variable {limits target elapsed} in
theorem takenIn_one {s : Search α} {i : Nat} {frontier : Frontier Nat}
    (hpop : s.frontier.pop? = some (i, frontier)) :
    s.takenIn limits target elapsed 1 = [s.arena.state i] := by
  rcases run_succ_cases limits target elapsed 0 s with
    ⟨hpop', -⟩ | ⟨_, _, hpop', ⟨-, -, htaken⟩ | ⟨-, _, -, -, htaken⟩⟩
  · cases hpop.symm.trans hpop'
  · cases hpop.symm.trans hpop'
    exact htaken
  · cases hpop.symm.trans hpop'
    exact htaken

/-- The best state comes of comparing the states that are taken up, and as many are counted. -/
theorem run_found_expansions : ∀ (n : Nat) {s : Search α}, s.Sound limits target →
    (run limits target elapsed n s).found
        = (s.takenIn limits target elapsed n).foldl (Found.improve limits target) s.found
      ∧ (run limits target elapsed n s).expansions
        = s.expansions + (s.takenIn limits target elapsed n).length
  | 0, s, _ => ⟨rfl, rfl⟩
  | n + 1, s, hs => by
    rcases run_succ_cases limits target elapsed n s with
      ⟨-, hrun, htaken⟩ | ⟨i, frontier, hpop, ⟨-, hrun, htaken⟩ | ⟨-, s', rfl, hrun, htaken⟩⟩
    · rw [hrun, htaken]
      exact ⟨rfl, rfl⟩
    · rw [hrun, htaken, found_took]
      exact ⟨rfl, rfl⟩
    · have htook := hs.took hpop
      have hgrows := visits_grows limits target i (movesFrom limits (s.arena.get i))
        (s.took limits target i frontier)
      obtain ⟨hfound, hexpansions⟩ := run_found_expansions n
        (sound_invariant.visits _ htook (hs.waiting i (Frontier.mem_of_pop? hpop)))
      rw [hrun, htaken, hfound, hexpansions, hgrows.found_eq htook.best.2, hgrows.expansions,
        found_took]
      refine ⟨rfl, ?_⟩
      simp only [took, List.length_cons]
      omega

end Search

section Nearest

variable (target : α)

/-- The state is the first of those nearest to the target: no state is nearer, and none before it is
as near. -/
def FirstNearest (states : List (State α)) (st : State α) : Prop :=
  ∃ before after, states = before ++ st :: after
    ∧ (∀ other ∈ before,
      Scalar.le (Scalar.distance other.value target) (Scalar.distance st.value target) = false)
    ∧ ∀ other ∈ after,
      Scalar.lt (Scalar.distance other.value target) (Scalar.distance st.value target) = false

theorem firstNearest_singleton (st : State α) : FirstNearest target [st] st :=
  ⟨[], [], rfl, by simp, by simp⟩

variable {target} [Scalar.Ordered α] {states : List (State α)} {st : State α}

theorem FirstNearest.lt_eq_false (h : FirstNearest target states st) :
    ∀ other ∈ states,
      Scalar.lt (Scalar.distance other.value target) (Scalar.distance st.value target) = false := by
  obtain ⟨before, after, rfl, hbefore, hafter⟩ := h
  intro other hother
  rcases List.mem_append.1 hother with hother | hother
  · exact (Bool.or_eq_false_iff.1 (hbefore other hother)).1
  · rcases List.mem_cons.1 hother with rfl | hother
    · exact Scalar.Ordered.lt_irrefl _
    · exact hafter other hother

/-- Comparing with one more state. -/
theorem FirstNearest.improve (limits : Limits α) (h : FirstNearest target states st)
    (next : State α) :
    ∃ st', FirstNearest target (states ++ [next]) st'
      ∧ (Found.ofState limits target st).improve limits target next
        = Found.ofState limits target st' := by
  rcases hlt : Scalar.lt (Scalar.distance next.value target) (Scalar.distance st.value target)
    with _ | _
  · obtain ⟨before, after, rfl, hbefore, hafter⟩ := h
    refine ⟨st, ⟨before, after ++ [next], by simp, hbefore, ?_⟩, ?_⟩
    · intro other hother
      rcases List.mem_append.1 hother with hother | hother
      · exact hafter other hother
      · rw [List.mem_singleton.1 hother]
        exact hlt
    · simp [Found.improve, Found.ofState, hlt]
  · refine ⟨next, ⟨states, [], rfl, fun other hother => ?_, by simp⟩, ?_⟩
    · have hold := h.lt_eq_false other hother
      rw [Scalar.le, Bool.or_eq_false_iff, Bool.eq_false_iff, Bool.eq_false_iff]
      refine ⟨fun hless => ?_, fun heq => ?_⟩
      · rw [Scalar.Ordered.lt_trans hless hlt] at hold
        cases hold
      · rw [Scalar.Ordered.lt_of_eq_of_lt heq hlt] at hold
        cases hold
    · simp [Found.improve, Found.ofState, hlt]

theorem FirstNearest.foldl_improve (limits : Limits α) :
    ∀ (more : List (State α)) {states : List (State α)} {st : State α},
      FirstNearest target states st → ∃ st', FirstNearest target (states ++ more) st'
        ∧ more.foldl (Found.improve limits target) (Found.ofState limits target st)
          = Found.ofState limits target st'
  | [], states, st, h => ⟨st, by simpa using h, rfl⟩
  | next :: more, states, st, h => by
    obtain ⟨st', h', himprove⟩ := h.improve limits next
    obtain ⟨st'', h'', hfold⟩ := foldl_improve limits more h'
    rw [List.append_assoc] at h''
    exact ⟨st'', h'', by rw [List.foldl_cons, himprove, hfold]⟩

/-- Comparing with more states changes nothing, or the residual gets smaller. -/
theorem foldl_improve_eq_or_lt (limits : Limits α) (target : α) :
    ∀ (more : List (State α)) (b : Found α),
      more.foldl (Found.improve limits target) b = b
        ∨ Scalar.lt (more.foldl (Found.improve limits target) b).residual b.residual = true
  | [], b => .inl rfl
  | next :: more, b => by
    have hstep : b.improve limits target next = b
        ∨ Scalar.lt (b.improve limits target next).residual b.residual = true := by
      unfold Found.improve
      split
      · rename_i hlt
        exact .inr hlt
      · exact .inl rfl
    rw [List.foldl_cons]
    rcases foldl_improve_eq_or_lt limits target more (b.improve limits target next) with h | h
    · rw [h]
      exact hstep
    · rcases hstep with heq | hlt
      · rw [heq] at h ⊢
        exact .inr h
      · exact .inr (Scalar.Ordered.lt_trans h hlt)

theorem found_start (limits : Limits α) (target : α) :
    (Search.start limits target).found
      = Found.ofState limits target (.seed (.ofTarget target)) := by
  have hindex : (Search.start limits target).best.index = 3 := Arena.index_seed _
  have hseed : (Search.start limits target).bestState = .seed (.ofTarget target) := by
    rw [Search.bestState, hindex]
    exact Arena.state_seed _
  have hzero : Scalar.distance (State.seed (.ofTarget target) : State α).value target
      = Scalar.abs target := Scalar.Ordered.distance_zero target
  rw [Search.found, Found.ofState, hseed, hzero]
  rfl

end Nearest

section Budget

variable (limits : Limits α) (m : Nat)

/-- The limits, with another budget. -/
def Limits.withBudget : Limits α := { limits with maxExpansions := m }

variable {limits m} {target : α} {elapsed elapsed' : Nat → Nat}

namespace Search

/-- A search that may go on may go on under a larger budget. -/
theorem isOver_withBudget {s : Search α} (hm : limits.maxExpansions ≤ m)
    (h : ∀ n, elapsed' n < limits.timeoutMs) (hover : s.isOver limits elapsed = false) :
    s.isOver (limits.withBudget m) elapsed' = false := by
  simp only [isOver, Limits.withBudget, Bool.or_eq_false_iff, decide_eq_false_iff_not, not_le]
    at hover ⊢
  exact ⟨⟨hover.1.1, decide_eq_false (Nat.not_le.2 (hover.1.2.trans_le hm))⟩,
    decide_eq_false (Nat.not_le.2 (h _))⟩

/-- What is taken up under a budget is taken up first under a larger one. -/
theorem takenIn_prefix (hm : limits.maxExpansions ≤ m) (h : ∀ n, elapsed' n < limits.timeoutMs) :
    ∀ {n n' : Nat} (s : Search α), n ≤ n' →
      s.takenIn limits target elapsed n <+: s.takenIn (limits.withBudget m) target elapsed' n'
  | 0, _, _, _ => List.nil_prefix
  | n + 1, 0, _, hn => absurd hn (Nat.not_succ_le_zero n)
  | n + 1, n' + 1, s, hn => by
    rcases run_succ_cases limits target elapsed n s with
      ⟨-, -, htaken⟩ | ⟨i, frontier, hpop, hcases⟩
    · rw [htaken]
      exact List.nil_prefix
    rcases run_succ_cases (limits.withBudget m) target elapsed' n' s with
      ⟨hpop', -⟩ | ⟨i', frontier', hpop', hcases'⟩
    · rw [hpop] at hpop'
      cases hpop'
    rw [hpop] at hpop'
    cases hpop'
    rcases hcases with ⟨-, -, htaken⟩ | ⟨hover, s', rfl, -, htaken⟩
    · rcases hcases' with ⟨-, -, htaken'⟩ | ⟨-, _, -, -, htaken'⟩
      · rw [htaken, htaken']
      · rw [htaken, htaken']
        exact List.cons_prefix_cons.2 ⟨rfl, List.nil_prefix⟩
    · have hgoes := isOver_withBudget hm h hover
      rcases hcases' with ⟨hover', -⟩ | ⟨-, s'', rfl, -, htaken'⟩
      · exact absurd (hover'.symm.trans hgoes) (by simp)
      · rw [htaken, htaken']
        exact List.cons_prefix_cons.2 ⟨rfl, takenIn_prefix hm h _ (Nat.le_of_succ_le_succ hn)⟩

/-- A search that finds what it looks for finds it under a larger budget, and stops there too. -/
theorem run_withBudget_of_exact (hm : limits.maxExpansions ≤ m)
    (h : ∀ n, elapsed' n < limits.timeoutMs) :
    ∀ {n n' : Nat} (s : Search α), n ≤ n' → s.best.exact = false →
      (run limits target elapsed n s).best.exact = true →
        run (limits.withBudget m) target elapsed' n' s = run limits target elapsed n s
  | 0, _, s, _, hs, hexact => absurd (hs.symm.trans hexact) (by simp)
  | n + 1, 0, _, hn, _, _ => absurd hn (Nat.not_succ_le_zero n)
  | n + 1, n' + 1, s, hn, hs, hexact => by
    rcases run_succ_cases limits target elapsed n s with
      ⟨-, hrun, -⟩ | ⟨i, frontier, hpop, hcases⟩
    · rw [hrun, hs] at hexact
      cases hexact
    rcases run_succ_cases (limits.withBudget m) target elapsed' n' s with
      ⟨hpop', -⟩ | ⟨i', frontier', hpop', hcases'⟩
    · rw [hpop] at hpop'
      cases hpop'
    rw [hpop] at hpop'
    cases hpop'
    rcases hcases with ⟨-, hrun, -⟩ | ⟨hover, s', rfl, hrun, -⟩
    · rw [hrun] at hexact ⊢
      rcases hcases' with ⟨-, hrun', -⟩ | ⟨hover', -⟩
      · exact hrun'
      · exact absurd ((best_of_isOver_eq_false hover').symm.trans hexact) (by simp)
    · have hgoes := isOver_withBudget hm h hover
      rw [hrun] at hexact ⊢
      rcases hcases' with ⟨hover', -⟩ | ⟨-, s'', rfl, hrun', -⟩
      · exact absurd (hover'.symm.trans hgoes) (by simp)
      · rw [hrun']
        refine run_withBudget_of_exact hm h _ (Nat.le_of_succ_le_succ hn) ?_ hexact
        rw [(visits_grows ..).best]
        exact best_of_isOver_eq_false hover

end Search

end Budget

section Searches

variable (limits : Limits α) (target : α) (elapsed : Nat → Nat)

theorem search_found_expansions :
    (search limits elapsed target).found
        = (taken limits target elapsed).foldl (Found.improve limits target)
          (Search.start limits target).found
      ∧ (search limits elapsed target).expansions = (taken limits target elapsed).length := by
  unfold search taken
  simp only []
  split
  · exact ⟨rfl, rfl⟩
  · obtain ⟨hfound, hexpansions⟩ := Search.run_found_expansions limits target elapsed
      (max 1 limits.maxExpansions) (Search.start_sound limits target)
    exact ⟨hfound, hexpansions.trans (Nat.zero_add _)⟩

theorem solution_eq (s : Search α) : s.solution
    = ⟨s.found.state.track.pattern, s.found.state.value, s.found.exact, s.found.residual⟩ := by
  rw [Search.solution, Arena.pattern_eq]
  rfl

variable {limits} {elapsed' : Nat → Nat} {m : Nat}

theorem taken_prefix (hm : limits.maxExpansions ≤ m) (h : ∀ n, elapsed' n < limits.timeoutMs) :
    taken limits target elapsed <+: taken (limits.withBudget m) target elapsed' := by
  unfold taken
  simp only []
  have hstart : Search.start (limits.withBudget m) target = Search.start limits target := rfl
  rw [hstart]
  split
  · exact List.nil_prefix
  · exact Search.takenIn_prefix hm h _ (max_le_max_left 1 hm)

theorem search_withBudget_of_exact (hm : limits.maxExpansions ≤ m)
    (h : ∀ n, elapsed' n < limits.timeoutMs)
    (hexact : (search limits elapsed target).best.exact = true) :
    search (limits.withBudget m) elapsed' target = search limits elapsed target := by
  unfold search at hexact ⊢
  simp only [] at hexact ⊢
  have hstart : Search.start (limits.withBudget m) target = Search.start limits target := rfl
  rw [hstart]
  split
  · rfl
  · rename_i hseed
    rw [if_neg hseed] at hexact
    exact Search.run_withBudget_of_exact hm h _ (max_le_max_left 1 hm) (by simpa using hseed) hexact

end Searches

section Five

theorem estimate_five_one : 0 < estimate (5.0 : Float) 1.0 0.5 := by
  have harrives : Arrives (Scalar.abs (5.0 : Float)) (Scalar.abs 1.0) 2 4.0 := by
    rw [Arrives, if_pos (by decide)]
    exact ⟨by decide, by decide, by decide⟩
  rw [(Returns.far (by decide) (by decide) harrives).estimate_eq]
  exact lt_min (by decide) (by omega)

theorem estimate_five_ten : 0 < estimate (5.0 : Float) 10.0 0.5 := by
  have harrives : Arrives (Scalar.abs (5.0 : Float)) (Scalar.abs 10.0) 0 10.0 := by
    rw [Arrives, if_neg (by decide)]
    exact ⟨by decide, by decide, by decide⟩
  have hcount : 0 < Scalar.count
      (Scalar.ceil (Scalar.divNat (Scalar.distance (Scalar.abs (5.0 : Float)) 10.0) 10)) := by
    decide +kernel
  rw [(Returns.far (by decide) (by decide) harrives).estimate_eq]
  exact lt_min (by decide) (by omega)

/-- Two states may be taken up, and half a unit is near enough. -/
def briefLimits : Limits Float := ⟨1, 4, 0.5, 2⟩

/-- On the way to five, the seed is taken up and then the state that is there. -/
theorem taken_five : taken briefLimits 5.0 (fun _ => 0)
    = [.seed .positive, (State.seed .positive).extend .positive .addFive] := by
  have hsign : Sign.ofTarget (5.0 : Float) = .positive := by decide
  obtain ⟨f, hpop, hnone⟩ := Frontier.pop?_push_empty 0 (Search.start briefLimits 5.0).best.index
  have hfresh : f.Fresh := (Frontier.empty_fresh.push _ _).of_pop? hpop
  have hfirst : (Search.start briefLimits 5.0).takenIn briefLimits 5.0 (fun _ => 0) 2
      = (Search.start briefLimits 5.0).arena.state 3
        :: Search.takenIn briefLimits 5.0 (fun _ => 0) 1 (Search.visits briefLimits 5.0 3 Move.all
          ((Search.start briefLimits 5.0).took briefLimits 5.0 3 f)) :=
    Search.takenIn_succ hpop rfl 1
  have hseed : (Search.start briefLimits 5.0).arena.state 3 = .seed (.ofTarget 5.0) :=
    Arena.state_seed (.ofTarget (5.0 : Float))
  have hzero : estimate (5.0 : Float) 5.0 0.5 = 0 := (Returns.near (by decide)).estimate_eq
  have hfrontier : (Search.visits briefLimits 5.0 3 Move.all
      ((Search.start briefLimits 5.0).took briefLimits 5.0 3 f)).frontier
        = ((f.push 0 4).push (estimate 5.0 1.0 0.5) 5).push (estimate 5.0 10.0 0.5) 6 := by
    rw [Search.visits_seed, ← hzero]
    rfl
  obtain ⟨f', hpop'⟩ := Frontier.exists_pop?_push hfresh hnone 4 5 6 estimate_five_one
    estimate_five_ten
  have hfar : (Search.start briefLimits 5.0).best.exact = false := by decide
  rw [taken, if_neg (by simp [hfar])]
  refine hfirst.trans ?_
  rw [Search.takenIn_one (hfrontier ▸ hpop'), Search.state_visits_seed, hseed, hsign]

end Five

/-- What a search returns is, in exact arithmetic and on doubles alike, the first of the states
nearest to the target among the seed and the states that it takes up. A search with a larger budget
and time enough takes up the same states first. What it returns is the same, or its residual is
smaller, and it is the same if the other search has found what it looked for. -/
theorem search_withBudget [Scalar.Ordered α] (limits : Limits α) (target : α)
    (elapsed elapsed' : Nat → Nat) (m : Nat) (hm : limits.maxExpansions ≤ m)
    (h : ∀ n, elapsed' n < limits.timeoutMs) :
    let found := (search limits elapsed target).solution
    let found' := (search (limits.withBudget m) elapsed' target).solution
    (∃ st, FirstNearest target (.seed (.ofTarget target) :: taken limits target elapsed) st
        ∧ found.pattern = st.track.pattern ∧ found.value = st.value
        ∧ found.residual = Scalar.distance st.value target
        ∧ found.exact = limits.accepts found.residual)
      ∧ (search limits elapsed target).expansions = (taken limits target elapsed).length
      ∧ taken limits target elapsed <+: taken (limits.withBudget m) target elapsed'
      ∧ (found' = found ∨ Scalar.lt found'.residual found.residual = true)
      ∧ (found.exact = true → found' = found) := by
  intro found found'
  obtain ⟨hfound, hexpansions⟩ := search_found_expansions limits target elapsed
  obtain ⟨hfound', -⟩ := search_found_expansions (limits.withBudget m) target elapsed'
  have hprefix := taken_prefix target elapsed hm h
  refine ⟨?_, hexpansions, hprefix, ?_, fun hexact => ?_⟩
  · have hseed := firstNearest_singleton target (.seed (.ofTarget target))
    obtain ⟨st, hst, hfold⟩ := hseed.foldl_improve limits (taken limits target elapsed)
    rw [found_start, hfold] at hfound
    refine ⟨st, hst, ?_⟩
    simp only [found, solution_eq, hfound]
    exact ⟨rfl, rfl, rfl, rfl⟩
  · obtain ⟨more, hmore⟩ := hprefix
    have hfold : (search (limits.withBudget m) elapsed' target).found
        = more.foldl (Found.improve limits target) (search limits elapsed target).found := by
      rw [hfound', ← hmore, List.foldl_append, hfound]
      rfl
    simp only [found, found', solution_eq, hfold]
    rcases foldl_improve_eq_or_lt limits target more (search limits elapsed target).found with h | h
    · exact .inl (by rw [h])
    · exact .inr h
  · simp only [found, found']
    rw [search_withBudget_of_exact target elapsed hm h hexact]

theorem search_withBudget_five :
    let still : Nat → Nat := fun _ => 0
    (search briefLimits still 5.0).solution = ⟨"aqaaq", 5.0, true, 0.0⟩
      ∧ (search briefLimits still 5.0).expansions = 2
      ∧ taken briefLimits 5.0 still <+: taken (briefLimits.withBudget 5) 5.0 still
      ∧ (search (briefLimits.withBudget 5) still 5.0).solution = ⟨"aqaaq", 5.0, true, 0.0⟩ := by
  intro still
  obtain ⟨-, hexpansions, hprefix, -, hsame⟩ := search_withBudget briefLimits 5.0 still still 5
    (by decide) fun _ => Nat.one_pos
  have hsolution : (search briefLimits still 5.0).solution = ⟨"aqaaq", 5.0, true, 0.0⟩ := by
    rw [solution_eq, (search_found_expansions briefLimits 5.0 still).1, taken_five, found_start,
      List.foldl_cons, Found.improve, if_neg (by decide), List.foldl_cons, Found.improve,
      if_pos (by decide), List.foldl_nil, Solution.mk.injEq]
    exact ⟨by decide, by decide, by decide, by decide⟩
  rw [taken_five] at hexpansions
  exact ⟨hsolution, hexpansions, hprefix, (hsame (by rw [hsolution])).trans hsolution⟩

end HexPatterns.Synthesis
