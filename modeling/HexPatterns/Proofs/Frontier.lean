import Mathlib
import HexPatterns.Synthesis.Frontier

/-!
# What waits in a frontier

A frontier is read as the list of its states in the order in which they are taken up. A state that
is pushed joins the others, and the state that is popped was one of them, so whatever holds of every
state that was ever pushed holds of every state that is popped.
-/

namespace HexPatterns.Synthesis

namespace Rank

instance : Std.TransCmp Rank.cmp :=
  inferInstanceAs (Std.TransCmp (compareLex _ _))

instance : Std.LawfulEqCmp Rank.cmp where
  eq_of_compare {a b} h := by
    simp only [Rank.cmp, compareLex_eq_eq, compareOn, Nat.compare_eq_eq] at h
    cases a
    cases b
    simp_all

theorem score_le_of_cmp_eq_lt {a b : Rank} (h : Rank.cmp a b = .lt) : a.score ≤ b.score := by
  simp only [Rank.cmp, compareLex, compareOn, Ordering.then_eq_lt, Nat.compare_eq_lt,
    Nat.compare_eq_eq] at h
  omega

end Rank

/-- The least entry of an ordered map is the first of its list. -/
theorem minEntry?_eq_head?_toList {κ β : Type} {cmp : κ → κ → Ordering}
    (t : Std.TreeMap κ β cmp) : t.minEntry? = t.toList.head? := by
  have h : ∀ l : Std.DTreeMap.Internal.Impl κ fun _ => β,
      Std.DTreeMap.Internal.Impl.Const.minEntry? l
        = (Std.DTreeMap.Internal.Impl.Const.toList l).head? := by
    intro l
    rw [Std.DTreeMap.Internal.Impl.Const.toList_eq_toListModel_map]
    induction l using Std.DTreeMap.Internal.Impl.Const.minEntry?.induct_unfolding with
    | case1 => rfl
    | case2 => simp
    | case3 => simp_all
  exact h t.inner.inner

namespace Frontier

variable {σ : Type} {f f' : Frontier σ} {s st : σ}

/-- The waiting states, in the order in which they are taken up. -/
def states (f : Frontier σ) : List σ :=
  f.waiting.toList.map Prod.snd

theorem mem_states : st ∈ f.states ↔ ∃ rank : Rank, f.waiting[rank]? = some st := by
  simp only [states, List.mem_map, Prod.exists, exists_eq_right,
    Std.TreeMap.mem_toList_iff_getElem?_eq_some]

@[simp] theorem states_empty : (empty : Frontier σ).states = [] := rfl

theorem mem_of_mem_push {score : Nat} (h : st ∈ (f.push score s).states) :
    st = s ∨ st ∈ f.states := by
  obtain ⟨rank, h⟩ := mem_states.1 h
  simp only [push, Std.TreeMap.getElem?_insert] at h
  split at h
  · exact .inl (Option.some.inj h).symm
  · exact .inr (mem_states.2 ⟨rank, h⟩)

theorem mem_of_pop? (h : f.pop? = some (s, f')) : s ∈ f.states := by
  simp only [pop?, minEntry?_eq_head?_toList, Option.map_eq_some_iff] at h
  obtain ⟨⟨rank, s'⟩, hhead, heq⟩ := h
  obtain ⟨rfl, -⟩ := Prod.mk.inj heq
  exact List.mem_map.2 ⟨_, List.mem_of_mem_head? hhead, rfl⟩

theorem mem_of_mem_pop? (h : f.pop? = some (s, f')) (hst : st ∈ f'.states) : st ∈ f.states := by
  simp only [pop?, Option.map_eq_some_iff] at h
  obtain ⟨⟨rank, s'⟩, -, heq⟩ := h
  obtain ⟨-, rfl⟩ := Prod.mk.inj heq
  obtain ⟨rank', hst⟩ := mem_states.1 hst
  rw [Std.TreeMap.getElem?_erase] at hst
  split at hst
  · exact absurd hst (by simp)
  · exact mem_states.2 ⟨rank', hst⟩

/-- What popping does: it takes out one rank, whose score is the least of all. -/
theorem exists_rank_of_pop? (h : f.pop? = some (s, f')) :
    ∃ rank : Rank, f.waiting[rank]? = some s
      ∧ (∀ (rank' : Rank) st', f.waiting[rank']? = some st' → rank.score ≤ rank'.score)
      ∧ f'.next = f.next
      ∧ ∀ (rank' : Rank) st', f'.waiting[rank']? = some st' →
        rank' ≠ rank ∧ f.waiting[rank']? = some st' := by
  simp only [pop?, minEntry?_eq_head?_toList, Option.map_eq_some_iff] at h
  obtain ⟨⟨rank, s'⟩, hhead, heq⟩ := h
  obtain ⟨rfl, rfl⟩ := Prod.mk.inj heq
  refine ⟨rank, Std.TreeMap.mem_toList_iff_getElem?_eq_some.1 (List.mem_of_mem_head? hhead), ?_,
    rfl, ?_⟩
  · intro rank' st' hst'
    obtain ⟨rest, hrest⟩ := List.head?_eq_some_iff.1 hhead
    have hsorted := Std.TreeMap.ordered_keys_toList (t := f.waiting)
    have hmem := Std.TreeMap.mem_toList_iff_getElem?_eq_some.2 hst'
    rw [hrest] at hsorted hmem
    rcases List.mem_cons.1 hmem with heq | hmem
    · rw [(Prod.mk.inj heq).1]
    · exact Rank.score_le_of_cmp_eq_lt (List.rel_of_pairwise_cons hsorted hmem)
  · intro rank' st' hst'
    simp only [Std.TreeMap.getElem?_erase, Std.LawfulEqCmp.compare_eq_iff_eq] at hst'
    split at hst'
    · exact absurd hst' (by simp)
    · rename_i hne
      exact ⟨Ne.symm hne, hst'⟩

theorem isEmpty_of_pop? (h : f.pop? = none) : f.states = [] := by
  rw [pop?, minEntry?_eq_head?_toList, Option.map_eq_none_iff, List.head?_eq_none_iff] at h
  rw [states, h, List.map_nil]

/-- Every turn that was given lies before the next one, so that no push displaces a state. -/
def Fresh (f : Frontier σ) : Prop :=
  ∀ (rank : Rank) st, f.waiting[rank]? = some st → rank.turn < f.next

theorem empty_fresh : (empty : Frontier σ).Fresh := by
  intro rank st h
  simp [empty] at h

theorem Fresh.waiting_push (h : f.Fresh) {score : Nat} {rank : Rank} :
    (f.push score s).waiting[rank]? = some st ↔
      rank = ⟨score, f.next⟩ ∧ st = s ∨ f.waiting[rank]? = some st := by
  simp only [push, Std.TreeMap.getElem?_insert, Std.LawfulEqCmp.compare_eq_iff_eq]
  split
  · rename_i hrank
    have hnone : f.waiting[rank]? ≠ some st := fun hold => by
      have hlt := h rank st hold
      rw [← hrank] at hlt
      exact absurd hlt (lt_irrefl _)
    simp only [hrank, true_and, hnone, or_false, Option.some.injEq, eq_comm]
  · rename_i hrank
    simp [Ne.symm hrank]

theorem Fresh.push (h : f.Fresh) (score : Nat) (s : σ) : (f.push score s).Fresh := by
  intro rank st hst
  rcases h.waiting_push.1 hst with ⟨rfl, -⟩ | hst
  · exact Nat.lt_succ_self _
  · exact (h rank st hst).trans (Nat.lt_succ_self _)

theorem Fresh.of_pop? (hf : f.Fresh) (h : f.pop? = some (s, f')) : f'.Fresh := by
  obtain ⟨_, -, -, hnext, hold⟩ := exists_rank_of_pop? h
  intro rank st hst
  rw [hnext]
  exact hf rank st (hold rank st hst).2

/-- The only state there is can be popped, and leaves none. -/
theorem pop?_push_empty (score : Nat) (s : σ) :
    ∃ f', (empty.push score s).pop? = some (s, f') ∧ f'.states = [] := by
  have hpush : ∀ {rank : Rank} {st : σ}, (empty.push score s).waiting[rank]? = some st →
      rank = ⟨score, 0⟩ ∧ st = s := by
    intro rank st hst
    rcases empty_fresh.waiting_push.1 hst with h | h
    · exact h
    · simp [empty] at h
  rcases hpop : (empty.push score s).pop? with _ | ⟨st, f'⟩
  · have hmem : s ∈ (empty.push score s).states :=
      mem_states.2 ⟨_, empty_fresh.waiting_push.2 (.inl ⟨rfl, rfl⟩)⟩
    rw [isEmpty_of_pop? hpop] at hmem
    cases hmem
  · obtain ⟨rank, hrank, -, -, hold⟩ := exists_rank_of_pop? hpop
    obtain ⟨rfl, rfl⟩ := hpush hrank
    refine ⟨f', rfl, List.eq_nil_iff_forall_not_mem.2 fun st' hst' => ?_⟩
    obtain ⟨rank', hrank'⟩ := mem_states.1 hst'
    obtain ⟨hne, hrank'⟩ := hold rank' st' hrank'
    exact hne (hpush hrank').1

theorem Fresh.mem_push (h : f.Fresh) {score : Nat} :
    st ∈ (f.push score s).states ↔ st = s ∨ st ∈ f.states := by
  refine ⟨mem_of_mem_push, fun hst => mem_states.2 ?_⟩
  rcases hst with rfl | hst
  · exact ⟨_, h.waiting_push.2 (.inl ⟨rfl, rfl⟩)⟩
  · obtain ⟨rank, hst⟩ := mem_states.1 hst
    exact ⟨rank, h.waiting_push.2 (.inr hst)⟩

/-- A pair that is put in under a new key joins the list. -/
theorem toList_insert_of_new {t : Std.TreeMap Rank σ Rank.cmp} {rank : Rank}
    (h : t[rank]? = none) : (t.insert rank s).toList.Perm ((rank, s) :: t.toList) := by
  have hold : t.toList.filter (fun x => decide ¬ (rank == x.1) = true) = t.toList := by
    refine List.filter_eq_self.2 fun x hx => ?_
    have hfound := Std.TreeMap.mem_toList_iff_getElem?_eq_some.1 hx
    have hne : rank ≠ x.1 := by
      rintro rfl
      rw [h] at hfound
      cases hfound
    simpa using hne
  have hperm := Std.TreeMap.toList_insert_perm (t := t) (k := rank) (v := s)
  rwa [hold] at hperm

theorem Fresh.states_push (h : f.Fresh) (score : Nat) (s : σ) :
    (f.push score s).states.Perm (s :: f.states) := by
  have hnew : f.waiting[(⟨score, f.next⟩ : Rank)]? = none := by
    rcases hfound : f.waiting[(⟨score, f.next⟩ : Rank)]? with _ | st
    · rfl
    · exact absurd (h _ st hfound) (Nat.lt_irrefl _)
  exact (toList_insert_of_new hnew).map Prod.snd

theorem states_of_pop? (h : f.pop? = some (s, f')) : f.states.Perm (s :: f'.states) := by
  simp only [pop?, minEntry?_eq_head?_toList, Option.map_eq_some_iff] at h
  obtain ⟨⟨rank, s'⟩, hhead, heq⟩ := h
  obtain ⟨rfl, rfl⟩ := Prod.mk.inj heq
  have hfound : f.waiting[rank]? = some s' :=
    Std.TreeMap.mem_toList_iff_getElem?_eq_some.1 (List.mem_of_mem_head? hhead)
  have hsame : f.waiting.Equiv ((f.waiting.erase rank).insert rank s') := by
    refine Std.TreeMap.Equiv.of_forall_constGet?_eq fun k => ?_
    simp only [Std.TreeMap.getElem?_insert, Std.TreeMap.getElem?_erase,
      Std.LawfulEqCmp.compare_eq_iff_eq]
    split
    · rename_i hk
      rw [← hk, hfound]
    · rfl
  have hnone : (f.waiting.erase rank)[rank]? = none := by simp
  exact (hsame.toList_eq ▸ toList_insert_of_new hnone).map Prod.snd

/-- Of three states that come to wait where none did, the first is taken up if it alone has score
zero. -/
theorem exists_pop?_push (hfresh : f.Fresh) (hnone : f.states = []) (a b c : σ) {n k : Nat}
    (hn : 0 < n) (hk : 0 < k) :
    ∃ f', (((f.push 0 a).push n b).push k c).pop? = some (a, f') := by
  have hfirst := hfresh.push 0 a
  have hsecond := hfirst.push n b
  rcases hpop : (((f.push 0 a).push n b).push k c).pop? with _ | ⟨s, f'⟩
  · have hmem : c ∈ (((f.push 0 a).push n b).push k c).states := hsecond.mem_push.2 (.inl rfl)
    rw [isEmpty_of_pop? hpop] at hmem
    cases hmem
  obtain ⟨rank, hrank, hleast, -⟩ := exists_rank_of_pop? hpop
  have hzero := hleast _ _ (hsecond.waiting_push.2 (.inr (hfirst.waiting_push.2 (.inr
    (hfresh.waiting_push.2 (.inl ⟨rfl, rfl⟩))))))
  rcases hsecond.waiting_push.1 hrank with ⟨rfl, -⟩ | hrank
  · exact absurd hzero (Nat.not_le.2 hk)
  rcases hfirst.waiting_push.1 hrank with ⟨rfl, -⟩ | hrank
  · exact absurd hzero (Nat.not_le.2 hn)
  rcases hfresh.waiting_push.1 hrank with ⟨-, rfl⟩ | hrank
  · exact ⟨f', rfl⟩
  · have hmem := mem_states.2 ⟨rank, hrank⟩
    rw [hnone] at hmem
    cases hmem

end Frontier

end HexPatterns.Synthesis
