import Mathlib
import HexPatterns.Proofs.Estimate
import HexPatterns.Proofs.SearchSound

/-!
# A search overlooks nothing that is near enough

In exact arithmetic a state that is near enough to the target is let wait with score zero, and no
other state but the seed ever has that score. So it is taken up in the next round, before any budget
is looked at, and ends the search. Whenever a search ends, by itself or because a budget is spent,
it is exact just if one of the states that it made is near enough (`search_exact_iff`).
-/

namespace HexPatterns.Synthesis

open Grid

/-- All the states that a search makes, whether it takes them up or leaves them waiting: those on
the way through the header, the last of which is the seed, and all since. -/
def made {α : Type} [Scalar α] (limits : Limits α) (target : α) (elapsed : Nat → Nat) :
    List (State α) :=
  let s := search limits elapsed target
  (List.range s.arena.size).map s.arena.state

variable {limits : Limits Rat} {target : Rat} {elapsed : Nat → Nat} {i : Nat}

/-- A near enough state is better than one that is not. -/
theorem lt_of_accepts {x y : Rat} (hx : limits.accepts x = true) (hy : limits.accepts y = false)
    (hnonneg : 0 ≤ y) : x < y := by
  rw [← Bool.not_eq_true, Limits.accepts_rat, not_or, not_lt] at hy
  rcases (limits.accepts_rat x).1 hx with rfl | hx
  · exact lt_of_le_of_ne hnonneg (Ne.symm hy.1)
  · exact hx.trans_le hy.2

/-- Near enough to the target. -/
def Node.Exact (limits : Limits Rat) (target : Rat) (n : Node Rat) : Prop :=
  limits.accepts (Scalar.distance n.value target) = true

namespace Search

variable {s : Search Rat} {frontier : Frontier Nat}

/-- A near enough state is noticed: it waits, and of the waiting states just the near enough ones
have score zero; the best state is not near enough. -/
structure Alert (limits : Limits Rat) (target : Rat) (s : Search Rat) : Prop where
  away : target ≠ 0
  fresh : s.frontier.Fresh
  waiting : ∀ i ∈ s.frontier.states, i < s.arena.size
  side : ∀ i < s.arena.size, OnSide (.ofTarget target) (s.arena.get i).value
  score : ∀ (rank : Rank) i, s.frontier.waiting[rank]? = some i →
    (rank.score = 0 ↔ (s.arena.get i).Exact limits target)
  noticed : ∀ i < s.arena.size, (s.arena.get i).Exact limits target → i ∈ s.frontier.states
  nonneg : 0 ≤ s.best.residual
  best : limits.accepts s.best.residual = false

theorem Alert.make (hs : s.Alert limits target) {m : Move} (hi : i < s.arena.size)
    {child : Node Rat} (hchild : s.visited target i m = some child) :
    (s.make limits target child).Alert limits target := by
  have hside : OnSide (.ofTarget target) child.value := by
    rw [(of_visited hchild).1]
    exact (hs.side i hi).apply m
  have hext := s.arena.extends_push child
  have hsize : (s.arena.push child).size = s.arena.size + 1 := Arena.size_push ..
  refine ⟨hs.away, hs.fresh.push _ _, fun j hj => ?_, fun j hj => ?_, fun rank j hj => ?_,
    fun j hj hexact => ?_, hs.nonneg, hs.best⟩
  · rcases Frontier.mem_of_mem_push hj with rfl | hj
    · exact hsize ▸ Nat.lt_succ_self _
    · exact (hs.waiting j hj).trans_le hext.size_le
  · rcases Nat.lt_succ_iff_lt_or_eq.1 (hsize ▸ hj) with hj | rfl
    · exact (hext.get_eq j hj).symm ▸ hs.side j hj
    · exact (Arena.get_push_size s.arena child).symm ▸ hside
  · rcases hs.fresh.waiting_push.1 hj with ⟨rfl, rfl⟩ | hj
    · rw [Node.Exact, Search.make, Arena.get_push_size]
      exact estimate_eq_zero_iff_accepts limits hs.away (onSide_ofTarget target) hside
    · rw [Search.make, hext.get_eq j (hs.waiting j (Frontier.mem_states.2 ⟨rank, hj⟩))]
      exact hs.score rank j hj
  · refine hs.fresh.mem_push.2 ?_
    rcases Nat.lt_succ_iff_lt_or_eq.1 (hsize ▸ hj) with hj | rfl
    · rw [Search.make, hext.get_eq j hj] at hexact
      exact .inr (hs.noticed j hj hexact)
    · exact .inl rfl

theorem Alert.visits : ∀ (ms : List Move) {s : Search Rat}, s.Alert limits target →
    i < s.arena.size → (visits limits target i ms s).Alert limits target
  | [], _, hs, _ => hs
  | m :: ms, s, hs, hi => by
    have hfirst : (visit limits target i s m).Alert limits target := by
      rw [visit_eq]
      split
      · exact hs
      · exact hs.make hi ‹_›
    exact Alert.visits ms hfirst
      (hi.trans_le (visit_grows limits target i s m).arena.size_le)

/-- If a near enough state waits, one is taken up. -/
theorem Alert.exact_of_waiting (hs : s.Alert limits target)
    (hpop : s.frontier.pop? = some (i, frontier)) {j : Nat} (hj : j ∈ s.frontier.states)
    (hexact : (s.arena.get j).Exact limits target) : (s.arena.get i).Exact limits target := by
  obtain ⟨rank, hrank, hleast, -⟩ := Frontier.exists_rank_of_pop? hpop
  obtain ⟨rank', hrank'⟩ := Frontier.mem_states.1 hj
  have hle := hleast rank' j hrank'
  rw [(hs.score rank' j hrank').2 hexact] at hle
  exact (hs.score rank i hrank).1 (Nat.le_zero.1 hle)

/-- A near enough state that is taken up is the last one. -/
theorem Alert.best_of_exact (hs : s.Alert limits target) (frontier : Frontier Nat)
    (hexact : (s.arena.get i).Exact limits target) :
    (s.took limits target i frontier).best.exact = true := by
  have hlt : Scalar.lt (Scalar.distance (s.arena.get i).value target) s.best.residual = true :=
    (Scalar.lt_rat _ _).2 (lt_of_accepts hexact hs.best hs.nonneg)
  simp only [Search.took, Best.improve, hlt, if_true]
  exact hexact

/-- If the state just taken up is not the end of it, there is no near enough state at all. -/
theorem Alert.not_exact (hs : s.Alert limits target)
    (hpop : s.frontier.pop? = some (i, frontier))
    (hbest : (s.took limits target i frontier).best.exact = false) :
    ∀ j < s.arena.size, ¬ (s.arena.get j).Exact limits target := by
  intro j hj hexact
  have hi := hs.exact_of_waiting hpop (hs.noticed j hj hexact) hexact
  rw [hs.best_of_exact frontier hi] at hbest
  cases hbest

/-- Taking up a state that is not near enough leaves the search alert. -/
theorem Alert.took (hs : s.Alert limits target) (hpop : s.frontier.pop? = some (i, frontier))
    (hnone : ∀ j < s.arena.size, ¬ (s.arena.get j).Exact limits target) :
    (s.took limits target i frontier).Alert limits target := by
  obtain ⟨_, -, -, -, hold⟩ := Frontier.exists_rank_of_pop? hpop
  have hi := hs.waiting i (Frontier.mem_of_pop? hpop)
  refine ⟨hs.away, hs.fresh.of_pop? hpop,
    fun j hj => hs.waiting j (Frontier.mem_of_mem_pop? hpop hj), hs.side,
    fun rank j hj => hs.score rank j (hold rank j hj).2,
    fun j hj hexact => absurd hexact (hnone j hj), ?_, ?_⟩
  · simp only [Search.took, Best.improve]
    split
    · simp
    · exact hs.nonneg
  · simp only [Search.took, Best.improve]
    split
    · exact Bool.eq_false_iff.2 (hnone i hi)
    · exact hs.best

/-- After a round that is not the last, as many rounds are left as the budget can ask for. -/
theorem rounds_left {n : Nat}
    (hover : (s.took limits target i frontier).isOver limits elapsed = false)
    (hbudget : limits.maxExpansions ≤ s.expansions + (n + 1)) (ms : List Move) :
    0 < n ∧ limits.maxExpansions
      ≤ (visits limits target i ms (s.took limits target i frontier)).expansions + n := by
  have hgrows := visits_grows limits target i ms (s.took limits target i frontier)
  have hexpansions : (s.took limits target i frontier).expansions = s.expansions + 1 := rfl
  have hleft := lt_of_isOver_eq_false hover
  rw [hgrows.expansions]
  omega

/-- The rounds of an alert search make nothing near enough unless they end in it. -/
theorem Alert.run : ∀ {n : Nat} {s : Search Rat}, s.Alert limits target → 0 < n →
    limits.maxExpansions ≤ s.expansions + n →
    (run limits target elapsed n s).best.exact = false →
      ∀ j < (run limits target elapsed n s).arena.size,
        ¬ ((run limits target elapsed n s).arena.get j).Exact limits target
  | 0, _, _, hn, _, _ => absurd hn (Nat.lt_irrefl 0)
  | n + 1, s, hs, _, hbudget, hout => by
    rw [Search.run] at hout ⊢
    rcases round_cases limits target elapsed s with
      ⟨hpop, hround⟩ | ⟨i, frontier, hpop, ⟨-, hround⟩ | ⟨hover, hround⟩⟩
    · rw [hround]
      intro j hj hexact
      have hmem := hs.noticed j hj hexact
      rw [Frontier.isEmpty_of_pop? hpop] at hmem
      cases hmem
    · rw [hround] at hout ⊢
      exact hs.not_exact hpop hout
    · rw [hround] at hout ⊢
      have hnone := hs.not_exact hpop (best_of_isOver_eq_false hover)
      have hi := hs.waiting i (Frontier.mem_of_pop? hpop)
      obtain ⟨hn, hbudget⟩ := rounds_left hover hbudget (movesFrom limits (s.arena.get i))
      exact Alert.run (Alert.visits _ (hs.took hpop hnone) hi) hn hbudget hout

/-- A search whose seed is not near enough is alert once it has taken up the seed. -/
theorem alert_of_seed (hseed : (start limits target).best.exact = false) :
    ∃ i frontier, (start limits target).frontier.pop? = some (i, frontier)
      ∧ i < (start limits target).arena.size ∧ frontier.states = []
      ∧ ((start limits target).took limits target i frontier).Alert limits target := by
  have hsize : (start limits target).arena.size = 4 := Arena.size_seed _
  have hindex : (start limits target).best.index = 3 := Arena.index_seed _
  obtain ⟨frontier, hpop, hnone⟩ := Frontier.pop?_push_empty 0 (start limits target).best.index
  have hzero : ∀ i < 4, ((start limits target).arena.get i).value = 0 := fun i hi =>
    congrArg State.value (Arena.state_seed_of_lt (.ofTarget target) hi)
  have hresidual : (start limits target).best.residual = |target| := Scalar.abs_rat target
  have hfar : ∀ i < 4, ¬ ((start limits target).arena.get i).Exact limits target := by
    intro i hi hexact
    rw [Node.Exact, hzero i hi, Scalar.distance_rat, zero_sub, abs_neg, ← hresidual] at hexact
    exact Bool.eq_false_iff.1 hseed hexact
  have hbest : ((start limits target).took limits target (start limits target).best.index
      frontier).best = (start limits target).best := by
    rw [Search.took, hzero _ (by omega)]
    simp [Best.improve, hresidual]
  have haway : target ≠ 0 := by
    rintro rfl
    have hexact : (start limits 0).best.exact = true :=
      (Limits.accepts_rat limits _).2 (.inl (hresidual.trans abs_zero))
    rw [hexact] at hseed
    cases hseed
  have hstates : ∀ i, i ∉ frontier.states := by simp [hnone]
  refine ⟨_, frontier, hpop, by omega, hnone, haway, (Frontier.empty_fresh.push _ _).of_pop? hpop,
    fun i hi => absurd hi (hstates i), fun i hi => ?_,
    fun rank i hi => absurd (Frontier.mem_states.2 ⟨rank, hi⟩) (hstates i),
    fun i hi hexact => absurd hexact (hfar i (hsize ▸ hi)), ?_, ?_⟩
  · change OnSide _ ((start limits target).arena.get i).value
    rw [hzero i (hsize ▸ hi)]
    exact onSide_zero _
  · rw [hbest, hresidual]
    exact abs_nonneg target
  · rw [hbest]
    exact hseed

theorem not_exact_of_run_start {n : Nat} (hseed : (start limits target).best.exact = false)
    (hn : 0 < n) (hbudget : limits.maxExpansions ≤ n)
    (hout : (Search.run limits target elapsed n (start limits target)).best.exact = false) :
    ∀ j < (Search.run limits target elapsed n (start limits target)).arena.size,
      ¬ ((Search.run limits target elapsed n (start limits target)).arena.get j).Exact
        limits target := by
  obtain ⟨n, rfl⟩ := Nat.exists_eq_add_one.2 hn
  obtain ⟨i, frontier, hpop, hi, hnone, halert⟩ := alert_of_seed hseed
  rw [Search.run] at hout ⊢
  rcases round_cases limits target elapsed (start limits target) with
    ⟨hpop', -⟩ | ⟨_, _, hpop', hcases⟩
  · rw [hpop] at hpop'
    cases hpop'
  · rw [hpop] at hpop'
    cases hpop'
    rcases hcases with ⟨-, hround⟩ | ⟨hover, hround⟩
    · rw [hround]
      intro j hj hexact
      have hmem : j ∈ frontier.states := halert.noticed j hj hexact
      rw [hnone] at hmem
      cases hmem
    · rw [hround] at hout ⊢
      obtain ⟨hn, hbudget⟩ := rounds_left hover (hbudget.trans (Nat.le_add_left _ _))
        (movesFrom limits ((start limits target).arena.get i))
      exact Alert.run (Alert.visits _ halert hi) hn hbudget hout

end Search

/-- In exact arithmetic, whatever the limits and whenever time runs out, a search is exact just if
one of the states that it made is near enough to the target. -/
theorem search_exact_iff (limits : Limits Rat) (elapsed : Nat → Nat) (target : Rat) :
    (search limits elapsed target).solution.exact = true ↔
      ∃ st ∈ made limits target elapsed,
        limits.accepts (Scalar.distance st.value target) = true := by
  have hsound := search_isSound limits target elapsed
  constructor
  · intro hexact
    have hresidual : (search limits elapsed target).best.residual
        = Scalar.distance (search limits elapsed target).bestState.value target := by
      rcases hsound.residual with h | ⟨hstate, h⟩
      · exact h
      · have hzero : (State.seed (.ofTarget target) : State Rat).value = 0 := rfl
        rw [h, hstate, hzero]
        simp
    refine ⟨(search limits elapsed target).bestState, ?_, ?_⟩
    · exact List.mem_map.2 ⟨_, List.mem_range.2 hsound.best.2, rfl⟩
    · rw [← hresidual, ← hsound.exact]
      exact hexact
  · rintro ⟨st, hst, haccepts⟩
    obtain ⟨j, hj, rfl⟩ := List.mem_map.1 hst
    rw [List.mem_range] at hj
    by_contra hexact
    replace hexact := Bool.eq_false_iff.2 hexact
    change (search limits elapsed target).best.exact = false at hexact
    unfold search at hexact hj haccepts
    simp only [] at hexact hj haccepts
    split at hexact
    · rename_i hseed
      rw [hseed] at hexact
      cases hexact
    · rename_i hseed
      rw [if_neg hseed] at hj haccepts
      exact Search.not_exact_of_run_start (Bool.eq_false_iff.2 hseed) (by omega) (by omega) hexact
        j hj haccepts

end HexPatterns.Synthesis
