import Mathlib
import HexPatterns.Grid.Walk

/-!
# Patterns and their walks

Writing down the moves of a walk and walking the pattern again gives the walk back
(`replay_header_append`): a sign's header tells the sign, symbols tell moves, and the moves behind
the header count. A walk takes no edge twice exactly when its edges have no duplicates
(`allNew_empty_iff`), and a step along an edge that the walk does not use keeps it so.
-/

namespace HexPatterns.Grid

theorem Move.ofSymbol?_symbol (m : Move) : Move.ofSymbol? m.symbol = some m := by
  cases m <;> rfl

/-- A move turns the walker by the same amount from every facing: that by which it turns one that
faces the first direction. -/
theorem Move.turn_eq_add (m : Move) (f : Facing) : m.turn f = f + m.turn 0 := by
  cases m <;> revert f <;> decide

theorem mapM_ofSymbol?_symbol :
    ∀ ms : List Move, (ms.map Move.symbol).mapM Move.ofSymbol? = some ms
  | [] => rfl
  | m :: ms => by
    rw [List.map_cons, List.mapM_cons, Move.ofSymbol?_symbol, mapM_ofSymbol?_symbol ms]
    rfl

namespace Sign

/-- The two headers differ in their first symbol, so at most one of them heads a pattern. -/
theorem ofPattern?_header_append (s : Sign) (ms : List Move) :
    ofPattern? ((s.header ++ ms).map Move.symbol) = some s := by
  cases s <;> simp [ofPattern?, header, Move.symbol]

end Sign

namespace Track

variable (t : Track) (s : Sign) (ms : List Move) (m : Move)

@[simp] theorem edges_extend : (t.extend m).edges = t.edges ++ [t.walker.edge m] := by
  simp [edges, extend]

theorem uses_iff (e : Edge) : t.uses e = true ↔ e ∈ t.edges := by
  simp [uses, edges]

theorem ofMoves_concat : ofMoves s (ms ++ [m]) = (ofMoves s ms).extend m := by
  simp [ofMoves]

theorem moves_foldl_extend (ms : List Move) :
    ((ms.foldl extend t).steps.map Step.move).reverse
      = (t.steps.map Step.move).reverse ++ ms := by
  induction ms generalizing t with
  | nil => simp
  | cons m ms ih => simp [ih, extend]

theorem pattern_ofMoves : (ofMoves s ms).pattern = String.ofList (ms.map Move.symbol) := by
  have h : ((ofMoves s ms).steps.map Step.move).reverse = ms := by
    rw [ofMoves, moves_foldl_extend]
    rfl
  have hmap : (ofMoves s ms).steps.map (·.move.symbol)
      = ((ofMoves s ms).steps.map Step.move).map Move.symbol := by
    rw [List.map_map]
    rfl
  rw [pattern, hmap, ← List.map_reverse, h]

theorem nodup_edges_header : (ofMoves s s.header).edges.Nodup := by
  cases s <;> decide

/-- A step along a new edge takes no edge twice if the walk before it did not. -/
theorem nodup_edges_extend (h : t.edges.Nodup) (hm : t.uses (t.walker.edge m) = false) :
    (t.extend m).edges.Nodup := by
  have hnew : t.walker.edge m ∉ t.edges := by
    rw [← uses_iff, hm]
    simp
  rw [edges_extend, ← List.concat_eq_append]
  exact h.concat hnew

end Track

theorem allNew_iff : ∀ (es : List Edge) (seen : Std.HashSet Edge),
    allNew seen es = true ↔ es.Nodup ∧ ∀ e ∈ es, e ∉ seen
  | [], seen => by simp [allNew]
  | e :: es, seen => by
    simp only [allNew, Bool.and_eq_true, Bool.not_eq_true', allNew_iff es, List.nodup_cons,
      List.forall_mem_cons, Std.HashSet.mem_insert, beq_iff_eq, not_or,
      ← Std.HashSet.contains_eq_false_iff_not_mem]
    constructor
    · rintro ⟨he, hes, hall⟩
      exact ⟨⟨fun hmem => (hall e hmem).1 rfl, hes⟩, he, fun x hx => (hall x hx).2⟩
    · rintro ⟨⟨hmem, hes⟩, he, hall⟩
      exact ⟨he, hes, fun x hx => ⟨fun h => hmem (h ▸ hx), hall x hx⟩⟩

theorem allNew_empty_iff (es : List Edge) : allNew ∅ es = true ↔ es.Nodup := by
  simp [allNew_iff]

section Replay

variable {α : Type} [Scalar α]

theorem valueOf_concat (s : Sign) (ms : List Move) (m : Move) :
    (valueOf s (ms ++ [m]) : α) = m.apply s (valueOf s ms) := by
  simp [valueOf]

/-- Walking the symbols of a header and of moves behind it. -/
theorem replay_header_append (s : Sign) (ms : List Move) :
    replay (α := α) ((s.header ++ ms).map Move.symbol)
      = some ⟨s, valueOf s ms, .ofMoves s (s.header ++ ms)⟩ := by
  rw [replay, Sign.ofPattern?_header_append, mapM_ofSymbol?_symbol]
  simp

end Replay

end HexPatterns.Grid
