import Mathlib
import HexPatterns.Scalar.Float

/-!
# Zero and the sign of a double

Two facts of binary floating point. The distance of a number from zero is its magnitude, also when
the subtraction turns its sign (`distance_zero`). And a key tells numbers apart except for the two
zeros: adding zero changes no number but the negative zero (`eq_or_isZero_of_key_eq`).

Arithmetic unpacks its arguments and packs its result, so both rest on what packing keeps: a finite
number that is packed with the other sign is unpacked with the other sign and is otherwise the same.
-/

namespace HexPatterns.Scalar

open Float.Model (UnpackedFloat Format)
open Float.Model.UnpackedFloat

section Packing

/-- The sign of a packed number is a field of its own. -/
theorem exists_pack_finite (m : Nat) (e : Int) (hm : 0 < m) :
    ∃ exponent mantissa, ∀ s,
      pack .binary64 (.finite s m e hm) = packComponents .binary64 s exponent mantissa := by
  simp only [pack, packedInfinity]
  split_ifs
  · exact ⟨_, _, fun _ => rfl⟩
  · exact ⟨_, _, fun _ => rfl⟩
  · exact ⟨_, _, fun _ => rfl⟩

theorem unpack_packComponents_sign {s s' : Sign} {exponent : BitVec 11} {mantissa : BitVec 52}
    {m : Nat} {e : Int} {hm : 0 < m}
    (h : unpack .binary64 (packComponents .binary64 s exponent mantissa) = .finite s m e hm) :
    unpack .binary64 (packComponents .binary64 s' exponent mantissa) = .finite s' m e hm := by
  simp only [unpack, unpackExponent_packComponents, unpackMantissa_packComponents,
    unpackSign_packComponents, Sign.ofBitVec_toBitVec] at h ⊢
  split_ifs at h ⊢ with h1 h2 h3
  · simp_all
  · simp_all

/-- Packing and unpacking a finite number with any sign, if it was unpacked with one. -/
theorem unpack_pack_finite {b : BitVec Format.binary64.numBits} (hb : Format.binary64.Valid b)
    {s s' : Sign} {m : Nat} {e : Int} {hm : 0 < m} (h : unpack .binary64 b = .finite s m e hm) :
    unpack .binary64 (pack .binary64 (.finite s' m e hm)) = .finite s' m e hm := by
  obtain ⟨exponent, mantissa, hpack⟩ := exists_pack_finite m e hm
  have hself : b = packComponents .binary64 s exponent mantissa := by
    rw [← hpack, ← h, pack_unpack_of_valid hb]
  rw [hpack]
  exact unpack_packComponents_sign (hself ▸ h)

end Packing

section Laws

theorem unpack_zero : (zero : Float).toModel.unpack = .zero .positive := rfl

theorem unpack_packedInfinity (s : Sign) :
    unpack .binary64 (packedInfinity .binary64 s) = .infinity s := by
  cases s <;> rfl

/-- The distance of a number from zero is its magnitude. -/
theorem distance_zero (x : Float) : distance zero x = abs x := by
  have hx := x.toModel.valid
  change Float.ofModel (.pack (UnpackedFloat.abs (unpack .binary64 (pack .binary64
    (UnpackedFloat.sub .binary64 (zero : Float).toModel.unpack x.toModel.unpack))))) =
      Float.ofModel (.pack (UnpackedFloat.abs x.toModel.unpack))
  rw [unpack_zero]
  rcases hu : x.toModel.unpack with s | _ | s | ⟨s, m, e, hm⟩
  · simp only [UnpackedFloat.sub, pack, unpack_packedInfinity, UnpackedFloat.abs]
  · simp only [UnpackedFloat.sub, pack, unpack_packedNaN, UnpackedFloat.abs]
  · cases s <;> rfl
  · simp only [UnpackedFloat.sub, unpack_pack_finite hx hu, UnpackedFloat.abs]

theorem isZero_iff (x : Float) : isZero x = true ↔ ∃ s, x.toModel.unpack = .zero s := by
  change x.toModel.unpack.beq (zero : Float).toModel.unpack = true ↔ _
  rw [unpack_zero]
  rcases x.toModel.unpack with s | _ | s | ⟨s, m, e, hm⟩
  · cases s <;> simp [UnpackedFloat.beq, UnpackedFloat.compare]
  · simp [UnpackedFloat.beq, UnpackedFloat.compare]
  · simp [UnpackedFloat.beq, UnpackedFloat.compare]
  · cases s <;> simp [UnpackedFloat.beq, UnpackedFloat.compare]

theorem abs_of_isZero {x : Float} (h : isZero x = true) : abs x = zero := by
  obtain ⟨s, hs⟩ := (isZero_iff x).1 h
  change Float.ofModel (.pack (UnpackedFloat.abs x.toModel.unpack)) = _
  rw [hs]
  rfl

theorem zero_le_of_isZero {x : Float} (h : isZero x = true) : le zero x = true := by
  obtain ⟨s, hs⟩ := (isZero_iff x).1 h
  have heq : eq zero x = true := by
    change UnpackedFloat.beq (zero : Float).toModel.unpack x.toModel.unpack = true
    rw [hs, unpack_zero]
    rfl
  rw [le, heq, Bool.or_true]

/-- Adding zero changes no number that is not zero. -/
theorem add_zero_of_not_isZero {x : Float} (h : isZero x = false) : x + 0.0 = x := by
  have hadd : UnpackedFloat.add .binary64 x.toModel.unpack (.zero .positive)
      = x.toModel.unpack := by
    rcases hu : x.toModel.unpack with s | _ | s | ⟨s, m, e, hm⟩
    · rfl
    · rfl
    · exact absurd ((isZero_iff x).2 ⟨s, hu⟩) (by simp [h])
    · rfl
  rw [← Float.toBits_inj, ← UInt64.toBitVec_inj]
  change pack .binary64 (UnpackedFloat.add .binary64 x.toModel.unpack
    (0.0 : Float).toModel.unpack) = x.toModel.toBits.toBitVec
  rw [show (0.0 : Float).toModel.unpack = .zero .positive from rfl, hadd]
  exact pack_unpack_of_valid x.toModel.valid

/-- The two zeros become one when zero is added to them. -/
theorem add_zero_of_isZero {x : Float} (h : isZero x = true) : x + 0.0 = zero := by
  obtain ⟨s, hs⟩ := (isZero_iff x).1 h
  change Float.ofModel (.pack (UnpackedFloat.add .binary64 x.toModel.unpack
    (0.0 : Float).toModel.unpack)) = _
  rw [hs]
  cases s <;> rfl

/-- Numbers with the same key are equal, or both are zero. -/
theorem eq_or_isZero_of_key_eq {x y : Float} (h : key x = key y) :
    x = y ∨ isZero x = true ∧ isZero y = true := by
  have hsum : x + 0.0 = y + 0.0 := Float.toBits_inj.1 h
  have hzero : isZero (zero : Float) = true := rfl
  rcases hx : isZero x with _ | _ <;> rcases hy : isZero y with _ | _
  · rw [add_zero_of_not_isZero hx, add_zero_of_not_isZero hy] at hsum
    exact .inl hsum
  · rw [add_zero_of_not_isZero hx, add_zero_of_isZero hy] at hsum
    rw [hsum, hzero] at hx
    exact absurd hx (by simp)
  · rw [add_zero_of_isZero hx, add_zero_of_not_isZero hy] at hsum
    rw [← hsum, hzero] at hy
    exact absurd hy (by simp)
  · exact .inr ⟨rfl, rfl⟩

/-- A key tells all numbers apart but the two zeros. -/
theorem key_eq_key_iff {x y : Float} :
    key x = key y ↔ x = y ∨ isZero x = true ∧ isZero y = true := by
  refine ⟨eq_or_isZero_of_key_eq, ?_⟩
  rintro (rfl | ⟨hx, hy⟩)
  · rfl
  · change (x + 0.0).toBits = (y + 0.0).toBits
    rw [add_zero_of_isZero hx, add_zero_of_isZero hy]

end Laws

end HexPatterns.Scalar
