import Mathlib
import HexPatterns.Proofs.FloatLaws
import HexPatterns.Synthesis.Solver

/-!
# What a solver remembers

A search that time never stops depends on its limits and its target alone, and targets of one key
are searched alike: they are the same number, or both are a zero, which the seed spells. So as long
as time does not run out a solver gives every target the answer that a search of its own would give
(`Solver.Faithful.solve`), whatever it was asked before. Its counters tell the keys that it was
asked for apart from their repetitions (`Solver.Tallied`): it has searched one number of each key.
-/

namespace HexPatterns.Synthesis

section Time

variable {α : Type} [Scalar α] {limits : Limits α} {elapsed elapsed' : Nat → Nat}

theorem Search.round_eq_of_lt (h : ∀ n, elapsed n < limits.timeoutMs)
    (h' : ∀ n, elapsed' n < limits.timeoutMs) (target : α) (s : Search α) :
    s.round limits target elapsed = s.round limits target elapsed' := by
  unfold Search.round Search.isOver
  split
  · rfl
  · simp only [Nat.not_le.2 (h _), Nat.not_le.2 (h' _)]

theorem Search.run_eq_of_lt (h : ∀ n, elapsed n < limits.timeoutMs)
    (h' : ∀ n, elapsed' n < limits.timeoutMs) (target : α) :
    ∀ (n : Nat) (s : Search α), s.run limits target elapsed n = s.run limits target elapsed' n
  | 0, _ => rfl
  | n + 1, s => by
    rw [Search.run, Search.run, round_eq_of_lt h h']
    split
    · rfl
    · exact run_eq_of_lt h h' target n _

theorem search_eq_of_lt (h : ∀ n, elapsed n < limits.timeoutMs)
    (h' : ∀ n, elapsed' n < limits.timeoutMs) (target : α) :
    search limits elapsed target = search limits elapsed' target := by
  simp only [search, Search.run_eq_of_lt h h']

/-- The answer of a search that takes no time. -/
def answer (limits : Limits α) (target : α) : Solution α :=
  (search limits (fun _ => 0) target).solution

/-- How many states a search takes up that takes no time. -/
def effort (limits : Limits α) (target : α) : Nat :=
  (search limits (fun _ => 0) target).expansions

theorem solution_eq_answer (h : ∀ n, elapsed n < limits.timeoutMs) (target : α) :
    (search limits elapsed target).solution = answer limits target := by
  have h₀ : ∀ _ : Nat, 0 < limits.timeoutMs := fun n => Nat.zero_lt_of_lt (h n)
  rw [search_eq_of_lt h h₀, answer]

theorem expansions_eq_effort (h : ∀ n, elapsed n < limits.timeoutMs) (target : α) :
    (search limits elapsed target).expansions = effort limits target := by
  have h₀ : ∀ _ : Nat, 0 < limits.timeoutMs := fun n => Nat.zero_lt_of_lt (h n)
  rw [search_eq_of_lt h h₀, effort]

end Time

section Keys

variable (limits : Limits Float)

theorem ofTarget_of_isZero {x : Float} (hx : Scalar.isZero x = true) :
    Grid.Sign.ofTarget x = .positive :=
  if_pos (Scalar.zero_le_of_isZero hx)

/-- Targets of one key are searched alike. Of the two zeros no state is taken up. -/
theorem search_eq_of_key_eq (elapsed : Nat → Nat) {x y : Float}
    (h : Scalar.key x = Scalar.key y) : search limits elapsed x = search limits elapsed y := by
  rcases Scalar.eq_or_isZero_of_key_eq h with rfl | ⟨hx, hy⟩
  · rfl
  · have hzero : limits.accepts (Scalar.zero : Float) = true := rfl
    simp [search, Search.start, ofTarget_of_isZero hx, ofTarget_of_isZero hy,
      Scalar.abs_of_isZero hx, Scalar.abs_of_isZero hy, hzero]

end Keys

namespace Solver

/-- The solver works under the limits, time never runs out for it, and what it remembers of a number
is the answer to it. -/
structure Faithful (limits : Limits Float) (s : Solver Float) : Prop where
  limits_eq : s.limits = limits
  unhurried : ∀ k n, s.clock k n < limits.timeoutMs
  memo : ∀ x found, s.memo[Scalar.key x]? = some found → found = answer limits x

variable {limits : Limits Float}

theorem new_faithful {clock : Nat → Nat → Nat} (h : ∀ k n, clock k n < limits.timeoutMs) :
    (new limits clock).Faithful limits where
  limits_eq := rfl
  unhurried := h
  memo x found hx := by simp [new] at hx

theorem Faithful.solve {s : Solver Float} (h : s.Faithful limits) (x : Float) :
    (s.solve x).1 = answer limits x ∧ (s.solve x).2.Faithful limits := by
  unfold Solver.solve
  simp only []
  split
  · rename_i found hfound
    exact ⟨h.memo x found hfound, h.limits_eq, h.unhurried, h.memo⟩
  · have hx := solution_eq_answer (h.unhurried s.counters.searches) x
    rw [h.limits_eq]
    refine ⟨hx, rfl, h.unhurried, fun y found hy => ?_⟩
    simp only [Std.HashMap.getElem?_insert, beq_iff_eq] at hy
    split at hy
    · rename_i hkey
      rw [← Option.some.inj hy, hx, answer, search_eq_of_key_eq limits _ hkey, answer]
    · exact h.memo y found hy

/-- The solver, once it has been asked for some numbers in turn. -/
def after (s : Solver Float) (numbers : List Float) : Solver Float :=
  numbers.foldl (fun s x => (s.solve x).2) s

theorem Faithful.after {s : Solver Float} (h : s.Faithful limits) (numbers : List Float) :
    (s.after numbers).Faithful limits := by
  induction numbers generalizing s with
  | nil => exact h
  | cons x numbers ih => exact ih (h.solve x).2

/-- What a solver does: it remembers the answer, or it searches and remembers the answer from then
on. -/
theorem solve_cases {α : Type} [Scalar α] (s : Solver α) (x : α) :
    (∃ found, s.memo[Scalar.key x]? = some found
      ∧ s.solve x = (found, { s with counters.cacheHits := s.counters.cacheHits + 1 }))
    ∨ s.memo[Scalar.key x]? = none
      ∧ ∃ done, done = search s.limits (s.clock s.counters.searches) x
      ∧ s.solve x = (done.solution, { s with
          memo := s.memo.insert (Scalar.key x) done.solution
          counters := { s.counters with
            searches := s.counters.searches + 1
            expansions := s.counters.expansions + done.expansions } }) := by
  unfold solve
  rcases hx : s.memo[Scalar.key x]? with _ | found
  · exact .inr ⟨rfl, _, rfl, by simp only [hx]⟩
  · exact .inl ⟨found, rfl, by simp only [hx]⟩

/-- The answers to some numbers, asked for in turn. -/
def answers : Solver Float → List Float → List (Solution Float)
  | _, [] => []
  | s, x :: numbers => (s.solve x).1 :: (s.solve x).2.answers numbers

theorem Faithful.answers_eq : ∀ (numbers : List Float) {s : Solver Float}, s.Faithful limits →
    s.answers numbers = numbers.map (answer limits)
  | [], _, _ => rfl
  | x :: numbers, s, h => by
    obtain ⟨hx, hnext⟩ := h.solve x
    rw [answers, List.map_cons, hx, hnext.answers_eq numbers]

end Solver

/-- Of some numbers one for each key. -/
structure OnePerKey (numbers chosen : List Float) : Prop where
  subset : chosen ⊆ numbers
  nodup : (chosen.map Scalar.key).Nodup
  covers : ∀ x ∈ numbers, Scalar.key x ∈ chosen.map Scalar.key

namespace OnePerKey

variable {numbers chosen others : List Float}

theorem toFinset_eq (h : OnePerKey numbers chosen) :
    (chosen.map Scalar.key).toFinset = (numbers.map Scalar.key).toFinset := by
  ext k
  simp only [List.mem_toFinset, List.mem_map]
  constructor
  · rintro ⟨x, hx, rfl⟩
    exact ⟨x, h.subset hx, rfl⟩
  · rintro ⟨x, hx, rfl⟩
    exact List.mem_map.1 (h.covers x hx)

theorem length_eq (h : OnePerKey numbers chosen) :
    chosen.length = (numbers.map Scalar.key).toFinset.card := by
  rw [← h.toFinset_eq, List.toFinset_card_of_nodup h.nodup, List.length_map]

/-- What depends on the key alone adds up to the same, whichever numbers are chosen. -/
theorem sum_eq (h : OnePerKey numbers chosen) (h' : OnePerKey numbers others) {f : Float → Nat}
    (hf : ∀ x y, Scalar.key x = Scalar.key y → f x = f y) :
    (chosen.map f).sum = (others.map f).sum := by
  have hperm : (chosen.map Scalar.key).Perm (others.map Scalar.key) :=
    List.perm_of_nodup_nodup_toFinset_eq h.nodup h'.nodup (h.toFinset_eq.trans h'.toFinset_eq.symm)
  obtain ⟨g, hg⟩ : ∃ g : Scalar.Key Float → Nat, ∀ x, f x = g (Scalar.key x) :=
    ⟨Function.extend Scalar.key f 0, fun x =>
      (Function.FactorsThrough.extend_apply (fun x y hxy => hf x y hxy) 0 x).symm⟩
  have hmap : ∀ l : List Float, l.map f = (l.map Scalar.key).map g := by
    intro l
    rw [List.map_map]
    exact List.map_congr_left fun x _ => hg x
  rw [hmap, hmap, (hperm.map g).sum_eq]

theorem append_known (h : OnePerKey numbers chosen) {x : Float}
    (hx : Scalar.key x ∈ numbers.map Scalar.key) : OnePerKey (numbers ++ [x]) chosen := by
  have hkeys := h.toFinset_eq
  refine ⟨fun y hy => List.mem_append_left _ (h.subset hy), h.nodup, fun y hy => ?_⟩
  rcases List.mem_append.1 hy with hy | hy
  · exact h.covers y hy
  · rw [List.mem_singleton.1 hy, ← List.mem_toFinset, hkeys, List.mem_toFinset]
    exact hx

theorem append_new (h : OnePerKey numbers chosen) {x : Float}
    (hx : Scalar.key x ∉ numbers.map Scalar.key) :
    OnePerKey (numbers ++ [x]) (chosen ++ [x]) := by
  have hkeys := h.toFinset_eq
  refine ⟨fun y hy => ?_, ?_, fun y hy => ?_⟩
  · exact List.mem_append.2 ((List.mem_append.1 hy).imp_left fun hy => h.subset hy)
  · rw [List.map_append, List.nodup_append]
    refine ⟨h.nodup, by simp, fun k hk k' hk' heq => hx ?_⟩
    rw [List.map_singleton, List.mem_singleton] at hk'
    rw [← List.mem_toFinset, ← hkeys, List.mem_toFinset, ← hk', ← heq]
    exact hk
  · rw [List.map_append, List.mem_append]
    rcases List.mem_append.1 hy with hy | hy
    · exact .inl (h.covers y hy)
    · exact .inr (List.mem_map_of_mem hy)

end OnePerKey

namespace Solver

variable {limits : Limits Float} {asked : List Float} {s : Solver Float}

/-- The counters are those of a solver that was asked for these numbers: it knows just their keys,
and has searched one number of each. -/
structure Tallied (limits : Limits Float) (asked : List Float) (s : Solver Float) : Prop where
  faithful : s.Faithful limits
  known : ∀ x, s.memo[Scalar.key x]?.isSome = true ↔ Scalar.key x ∈ asked.map Scalar.key
  calls : s.counters.searches + s.counters.cacheHits = asked.length
  searched : ∃ chosen, OnePerKey asked chosen ∧ s.counters.searches = chosen.length
    ∧ s.counters.expansions = (chosen.map (effort limits)).sum

theorem new_tallied {clock : Nat → Nat → Nat} (h : ∀ k n, clock k n < limits.timeoutMs) :
    (new limits clock).Tallied limits [] where
  faithful := new_faithful h
  known x := by simp [new]
  calls := rfl
  searched := ⟨[], ⟨List.Subset.refl _, List.nodup_nil, by simp⟩, rfl, rfl⟩

theorem Tallied.solve (h : s.Tallied limits asked) (x : Float) :
    (s.solve x).2.Tallied limits (asked ++ [x]) := by
  have hfaithful := (h.faithful.solve x).2
  obtain ⟨chosen, hchosen, hsearches, hexpansions⟩ := h.searched
  have hcalls := h.calls
  rcases s.solve_cases x with ⟨found, hfound, heq⟩ | ⟨hnone, done, rfl, heq⟩
  · have hold : Scalar.key x ∈ asked.map Scalar.key := (h.known x).1 (by simp [hfound])
    rw [heq] at hfaithful ⊢
    refine ⟨hfaithful, fun y => ?_, ?_, chosen, hchosen.append_known hold, hsearches, hexpansions⟩
    · rw [h.known y, List.map_append, List.mem_append, List.map_singleton, List.mem_singleton]
      exact ⟨.inl, fun hy => hy.elim id fun hy => hy ▸ hold⟩
    · simp only [List.length_append, List.length_singleton]
      omega
  · have hnew : Scalar.key x ∉ asked.map Scalar.key := fun hx => by
      have hsome := (h.known x).2 hx
      simp [hnone] at hsome
    have heffort := expansions_eq_effort (h.faithful.unhurried s.counters.searches) x
    rw [heq] at hfaithful ⊢
    refine ⟨hfaithful, fun y => ?_, ?_, chosen ++ [x], hchosen.append_new hnew, ?_, ?_⟩
    · rw [List.map_append, List.mem_append, ← h.known y, List.map_singleton, List.mem_singleton,
        Std.HashMap.getElem?_insert]
      split
      · rename_i hkey
        simp [eq_comm.1 (beq_iff_eq.1 hkey)]
      · rename_i hkey
        simp [Ne.symm (by simpa using hkey : Scalar.key x ≠ Scalar.key y)]
    · simp only [List.length_append, List.length_singleton]
      omega
    · simp [hsearches]
    · simp only [h.faithful.limits_eq, heffort, hexpansions, List.map_append, List.sum_append,
        List.map_singleton, List.sum_singleton]

theorem Tallied.after : ∀ (numbers : List Float) {asked : List Float} {s : Solver Float},
    s.Tallied limits asked → (s.after numbers).Tallied limits (asked ++ numbers)
  | [], asked, s, h => by
    rw [List.append_nil]
    exact h
  | x :: numbers, asked, s, h => by
    have hnext := Tallied.after numbers (h.solve x)
    rw [List.append_assoc] at hnext
    exact hnext

theorem expansions_solve_new {clock : Nat → Nat → Nat} (h : ∀ k n, clock k n < limits.timeoutMs)
    (x : Float) : ((new limits clock).solve x).2.counters.expansions = effort limits x := by
  rcases (new limits clock).solve_cases x with ⟨found, hfound, -⟩ | ⟨-, done, rfl, heq⟩
  · simp [new] at hfound
  · rw [heq]
    exact (Nat.zero_add _).trans (expansions_eq_effort (h 0) x)

end Solver

/-- As long as time does not run out, a solver that is asked for numbers in turn answers each of
them as a new solver would that is asked for this number alone. Whenever it is asked it searches or
it remembers. It searches once for each key, and only the two zeros have the same one. Its searches
take up as many states as those of new solvers do together for one number of each key, whichever
these are. -/
theorem answers_eq_alone (limits : Limits Float) (clock clock' : Nat → Nat → Nat)
    (h : ∀ k n, clock k n < limits.timeoutMs) (h' : ∀ k n, clock' k n < limits.timeoutMs)
    (numbers : List Float) :
    let alone := fun x => (Solver.new limits clock').solve x
    let counters := ((Solver.new limits clock).after numbers).counters
    (Solver.new limits clock).answers numbers = numbers.map (fun x => (alone x).1)
      ∧ counters.searches + counters.cacheHits = numbers.length
      ∧ counters.searches = (numbers.map Scalar.key).toFinset.card
      ∧ (∀ x y : Float, Scalar.key x = Scalar.key y ↔
        x = y ∨ Scalar.isZero x = true ∧ Scalar.isZero y = true)
      ∧ (∃ chosen, OnePerKey numbers chosen)
      ∧ ∀ chosen, OnePerKey numbers chosen →
        counters.expansions = (chosen.map fun x => (alone x).2.counters.expansions).sum := by
  intro alone counters
  have htallied := (Solver.new_tallied h).after numbers
  rw [List.nil_append] at htallied
  obtain ⟨searched, hsearched, hsearches, hexpansions⟩ := htallied.searched
  refine ⟨?_, htallied.calls, hsearches.trans hsearched.length_eq,
    fun x y => Scalar.key_eq_key_iff, ⟨searched, hsearched⟩, fun chosen hchosen => ?_⟩
  · rw [(Solver.new_faithful h).answers_eq numbers]
    exact List.map_congr_left fun x _ => ((Solver.new_faithful h').solve x).1.symm
  · have heffort : ∀ x y, Scalar.key x = Scalar.key y → effort limits x = effort limits y :=
      fun x y hkey => by rw [effort, search_eq_of_key_eq limits _ hkey, effort]
    simp only [alone, Solver.expansions_solve_new h']
    exact hexpansions.trans (hsearched.sum_eq hchosen heffort)

/-- Asked for one, for both zeros and for one again, a solver searches twice and remembers twice. -/
theorem answers_eq_alone_zeros :
    let limits : Limits Float := ⟨1, 4, 0.5, 10⟩
    let counters := ((Solver.new limits fun _ _ => 0).after [1.0, 0.0, -0.0, 1.0]).counters
    counters.searches = 2 ∧ counters.cacheHits = 2
      ∧ counters.expansions = effort limits 1.0 + effort limits 0.0 := by
  intro limits
  have hclock : ∀ _ _ : Nat, 0 < limits.timeoutMs := fun _ _ => Nat.one_pos
  have hkeys : (([1.0, 0.0, -0.0, 1.0] : List Float).map Scalar.key).toFinset.card = 2 := by decide
  have hchosen : OnePerKey [1.0, 0.0, -0.0, 1.0] [1.0, 0.0] := ⟨by decide, by decide, by decide⟩
  obtain ⟨-, hcalls, hsearches, -, -, hexpansions⟩ :=
    answers_eq_alone limits (fun _ _ => 0) (fun _ _ => 0) hclock hclock [1.0, 0.0, -0.0, 1.0]
  have hexpansions := hexpansions _ hchosen
  rw [hkeys] at hsearches
  simp only [hsearches, List.length_cons, List.length_nil] at hcalls
  simp only [Solver.expansions_solve_new hclock, List.map_cons, List.map_nil, List.sum_cons,
    List.sum_nil] at hexpansions
  exact ⟨hsearches, Nat.add_left_cancel hcalls, hexpansions⟩

end HexPatterns.Synthesis
