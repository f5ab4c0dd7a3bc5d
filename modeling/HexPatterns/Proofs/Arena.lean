import Mathlib
import HexPatterns.Proofs.Walk
import HexPatterns.Synthesis.Arena

/-!
# The walks in an arena

A node stands for a walk, which is read back along the parents (`Arena.state`). A node that is
pushed leaves the walks of the nodes before it as they were, since reading one back goes to smaller
indices only (`Arena.state_push_of_lt`), and the walk of the new node is the walk of its parent with
one more move (`Arena.state_push_child`). All that later modules say of a search they say of these
walks.
-/

namespace HexPatterns.Synthesis

open Grid

variable {α : Type} [Scalar α]

/-- A walk with the number it has come to. -/
structure State (α : Type) where
  track : Track
  value : α
  /-- The moves behind the header. -/
  depth : Nat

namespace State

/-- The walk of the header, which counts for nothing. -/
def seed (s : Sign) : State α :=
  ⟨.ofMoves s s.header, Scalar.zero, 0⟩

def extend (s : Sign) (st : State α) (m : Move) : State α :=
  ⟨st.track.extend m, m.apply s st.value, st.depth + 1⟩

def stance (st : State α) : Stance (Scalar.Key α) :=
  ⟨st.track.walker.position, st.track.walker.facing, Scalar.key st.value⟩

end State

namespace Arena

/-- The walk that ends in node number `i`. -/
def state (a : Arena α) (i : Nat) : State α :=
  ⟨⟨(a.get i).walker, (a.ancestry i).map Node.step⟩, (a.get i).value, (a.get i).depth⟩

variable {a b : Arena α} {i : Nat}

omit [Scalar α] in
@[simp] theorem size_push (a : Arena α) (n : Node α) : (a.push n).size = a.size + 1 :=
  Array.size_push n

theorem get_push_of_lt (n : Node α) (h : i < a.size) : (a.push n).get i = a.get i := by
  have hne : i ≠ a.nodes.size := h.ne
  simp only [get, push, getElem!_def, Array.getElem?_push, if_neg hne]

@[simp] theorem get_push_size (a : Arena α) (n : Node α) : (a.push n).get a.size = n := by
  simp [get, push, size]

theorem ancestry_push_of_lt (n : Node α) (h : i < a.size) :
    (a.push n).ancestry i = a.ancestry i := by
  induction i using Nat.strong_induction_on with
  | _ i ih =>
    rw [ancestry, ancestry, get_push_of_lt n h]
    rcases (a.get i).parent with _ | p
    · rfl
    · by_cases hp : p < i
      · simp only [if_pos hp, ih p hp (hp.trans h)]
      · simp only [if_neg hp]

theorem ancestry_of_parent {p : Nat} (hparent : (a.get i).parent = some p) (hp : p < i) :
    a.ancestry i = a.get i :: a.ancestry p := by
  rw [ancestry, hparent]
  exact congrArg _ (if_pos hp)

theorem state_push_of_lt (n : Node α) (h : i < a.size) : (a.push n).state i = a.state i := by
  rw [state, state, get_push_of_lt n h, ancestry_push_of_lt n h]

/-- The walk of a new node: that of its parent, and one more move. -/
theorem state_push_child (s : Sign) (m : Move) (h : i < a.size) :
    (a.push ((a.get i).child s i m)).state a.size = (a.state i).extend s m := by
  have hnode := get_push_size a ((a.get i).child s i m)
  have hparent : ((a.push ((a.get i).child s i m)).get a.size).parent = some i := by
    rw [hnode]
    rfl
  rw [state, ancestry_of_parent hparent h, hnode, ancestry_push_of_lt _ h]
  rfl

theorem uses_eq (a : Arena α) (i : Nat) (e : Edge) : a.uses i e = (a.state i).track.uses e := by
  rw [uses, Track.uses, state, List.any_map]
  rfl

theorem pattern_eq (a : Arena α) (i : Nat) : a.pattern i = (a.state i).track.pattern := by
  rw [pattern, Track.pattern, state, List.map_map]
  rfl

/-- The nodes of the one arena are the first ones of the other. -/
structure Extends (a b : Arena α) : Prop where
  size_le : a.size ≤ b.size
  get_eq : ∀ i < a.size, b.get i = a.get i
  state_eq : ∀ i < a.size, b.state i = a.state i

theorem Extends.refl (a : Arena α) : a.Extends a :=
  ⟨le_rfl, fun _ _ => rfl, fun _ _ => rfl⟩

theorem Extends.trans {c : Arena α} (h : a.Extends b) (h' : b.Extends c) : a.Extends c where
  size_le := h.size_le.trans h'.size_le
  get_eq i hi := (h'.get_eq i (hi.trans_le h.size_le)).trans (h.get_eq i hi)
  state_eq i hi := (h'.state_eq i (hi.trans_le h.size_le)).trans (h.state_eq i hi)

theorem extends_push (a : Arena α) (n : Node α) : a.Extends (a.push n) where
  size_le := by simp
  get_eq _ hi := get_push_of_lt n hi
  state_eq _ hi := state_push_of_lt n hi

/-- The node is a state of the search: the last node of the header, or one made since. -/
def IsState (a : Arena α) (i : Nat) : Prop :=
  3 ≤ i ∧ i < a.size

theorem Extends.isState (h : a.Extends b) (hi : a.IsState i) : b.IsState i :=
  ⟨hi.1, hi.2.trans_le h.size_le⟩

/-- Every node was made by a move and knows the node before it: the first node comes from where
walks of the sign start, every other one from its parent, which is a node before it. -/
structure Linked (s : Sign) (a : Arena α) : Prop where
  root : (a.get 0).parent = none ∧ a.ancestry 0 = [a.get 0]
    ∧ ∃ m, (a.state 0).track = (Track.start s).extend m
  step : ∀ i < a.size, 0 < i → ∃ p < i, (a.get i).parent = some p
    ∧ a.ancestry i = a.get i :: a.ancestry p
    ∧ ∃ m, (a.state i).track = (a.state p).track.extend m

theorem Linked.push_child {s : Sign} (h : a.Linked s) (m : Move) (hi : i < a.size) :
    (a.push ((a.get i).child s i m)).Linked s := by
  have hext := a.extends_push ((a.get i).child s i m)
  have hpos : 0 < a.size := Nat.zero_lt_of_lt hi
  refine ⟨?_, fun j hj hj0 => ?_⟩
  · rw [hext.get_eq 0 hpos, hext.state_eq 0 hpos, ancestry_push_of_lt _ hpos]
    exact h.root
  · rw [size_push] at hj
    rcases Nat.lt_succ_iff_lt_or_eq.1 hj with hj | rfl
    · obtain ⟨p, hp, hparent, hancestry, m, htrack⟩ := h.step j hj hj0
      refine ⟨p, hp, ?_, ?_, m, ?_⟩
      · rw [hext.get_eq j hj, hparent]
      · rw [hext.get_eq j hj, ancestry_push_of_lt _ hj, ancestry_push_of_lt _ (hp.trans hj),
          hancestry]
      · rw [hext.state_eq j hj, hext.state_eq p (hp.trans hj), htrack]
    · have hparent : ((a.push ((a.get i).child s i m)).get a.size).parent = some i := by
        rw [get_push_size]
        rfl
      refine ⟨i, hi, hparent, ancestry_of_parent hparent hi, m, ?_⟩
      rw [state_push_child s m hi, hext.state_eq i hi]
      rfl

section Seed

variable (s : Sign)

theorem size_seed : (seed s : Arena α × Nat).1.size = 4 := by
  cases s <;> rfl

theorem index_seed : (seed s : Arena α × Nat).2 = 3 := by
  cases s <;> rfl

theorem ancestry_seed : (seed s : Arena α × Nat).1.ancestry 0 = [(seed s).1.get 0]
    ∧ ∀ i < 3, ((seed s : Arena α × Nat).1.get (i + 1)).parent = some i
      ∧ (seed s : Arena α × Nat).1.ancestry (i + 1)
        = (seed s).1.get (i + 1) :: (seed s).1.ancestry i := by
  constructor
  · rw [ancestry]
    cases s <;> rfl
  · intro i hi
    have hparent : ((seed s : Arena α × Nat).1.get (i + 1)).parent = some i := by
      interval_cases i <;> cases s <;> rfl
    exact ⟨hparent, ancestry_of_parent hparent i.lt_succ_self⟩

/-- The nodes of the seed walk through the header. -/
theorem state_seed_of_lt (hi : i < 4) :
    (seed s : Arena α × Nat).1.state i = ⟨.ofMoves s (s.header.take (i + 1)), Scalar.zero, 0⟩ := by
  obtain ⟨hfirst, hnext⟩ := ancestry_seed (α := α) s
  rw [state]
  interval_cases i
  · rw [hfirst]
    cases s <;> rfl
  · rw [(hnext 0 (by decide)).2, hfirst]
    cases s <;> rfl
  · rw [(hnext 1 (by decide)).2, (hnext 0 (by decide)).2, hfirst]
    cases s <;> rfl
  · rw [(hnext 2 (by decide)).2, (hnext 1 (by decide)).2, (hnext 0 (by decide)).2, hfirst]
    cases s <;> rfl

theorem state_seed : (seed s : Arena α × Nat).1.state 3 = .seed s := by
  rw [state_seed_of_lt s (by decide)]
  cases s <;> rfl

theorem seed_linked : (seed s : Arena α × Nat).1.Linked s := by
  obtain ⟨hfirst, hnext⟩ := ancestry_seed (α := α) s
  refine ⟨⟨by cases s <;> rfl, hfirst, ?_⟩, fun i hi hi0 => ?_⟩
  · rw [state_seed_of_lt s (by decide)]
    cases s <;> exact ⟨_, rfl⟩
  · rw [size_seed] at hi
    obtain ⟨p, rfl⟩ := Nat.exists_eq_add_one.2 hi0
    obtain ⟨hparent, hancestry⟩ := hnext p (by omega)
    refine ⟨p, p.lt_succ_self, hparent, hancestry, ?_⟩
    rw [state_seed_of_lt s hi, state_seed_of_lt s (by omega)]
    have hp : p < 3 := by omega
    interval_cases p <;> cases s <;> exact ⟨_, rfl⟩

end Seed

end Arena

end HexPatterns.Synthesis
