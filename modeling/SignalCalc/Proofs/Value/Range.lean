import Mathlib.Algebra.Group.Nat.Defs
import Mathlib.Algebra.Ring.Int.Defs
import SignalCalc.DataType

namespace SignalCalc

def SignedOf (bytes : Nat) (v : Value) : Prop :=
  v.width.toNat = bytes ∧ ∃ i : Int64, v.scalar = .signed i ∧
    -(2 ^ (8 * bytes - 1)) ≤ i.toInt ∧ i.toInt < 2 ^ (8 * bytes - 1)

def UnsignedOf (bytes : Nat) (v : Value) : Prop :=
  v.width.toNat = bytes ∧ ∃ n : UInt64, v.scalar = .unsigned n ∧ n.toNat < 2 ^ (8 * bytes)

def RealOf (bytes : Nat) (v : Value) : Prop :=
  v.width.toNat = bytes ∧ ∃ d : Float, v.scalar = .real d

/-- The values that a variable of a type can hold. -/
def DataType.Holds : DataType → Value → Prop
  | .int8 => SignedOf 1
  | .int16 => SignedOf 2
  | .int32 => SignedOf 4
  | .int64 => SignedOf 8
  | .uint8 => UnsignedOf 1
  | .uint16 => UnsignedOf 2
  | .uint32 => UnsignedOf 4
  | .uint64 => UnsignedOf 8
  | .single => RealOf 4
  | .double | .undeclared => RealOf 8

namespace Value

/-! ## Limits -/

theorem clampInt64_range {lo hi : Int64} (h : lo.toInt ≤ hi.toInt) (i : Int64) :
    lo.toInt ≤ (clampInt64 lo hi i).toInt ∧ (clampInt64 lo hi i).toInt ≤ hi.toInt := by
  unfold clampInt64
  simp only [Int64.lt_iff_toInt_lt]
  split
  · omega
  · split <;> omega

/-- An unsigned word up to a signed one that is not negative is the same number as a signed word. -/
theorem toInt_toInt64 {n : UInt64} {hi : Int64} (hhi : 0 ≤ hi.toInt) (h : n ≤ hi.toUInt64) :
    n.toInt64.toInt = n.toNat ∧ n.toInt64.toInt ≤ hi.toInt := by
  have hbits : n.toInt64.toInt = n.toBitVec.toInt ∧ hi.toInt = hi.toUInt64.toBitVec.toInt :=
    ⟨rfl, rfl⟩
  have hle : n.toBitVec.toNat ≤ hi.toUInt64.toBitVec.toNat := h
  have hnat : n.toNat = n.toBitVec.toNat := rfl
  rw [hbits.2] at hhi
  rw [hbits.1, hbits.2, hnat]
  simp only [BitVec.toInt_eq_toNat_cond] at hhi ⊢
  split at hhi
  · split <;> omega
  · omega

theorem clampSigned_range (v : Value) {lo hi : Int64} (h : lo.toInt ≤ hi.toInt)
    (hhi : 0 ≤ hi.toInt) :
    lo.toInt ≤ (v.clampSigned lo hi).toInt ∧ (v.clampSigned lo hi).toInt ≤ hi.toInt := by
  obtain ⟨scalar, width⟩ := v
  cases scalar with
  | signed i => exact clampInt64_range h i
  | real d => exact clampInt64_range h _
  | unsigned n =>
    simp only [clampSigned]
    split
    · exact ⟨h, Int.le_refl _⟩
    · next hle =>
      have hn := toInt_toInt64 hhi (UInt64.not_lt.mp hle)
      have hmax : max n.toInt64 lo = if n.toInt64 ≤ lo then lo else n.toInt64 := rfl
      rw [hmax]
      simp only [Int64.le_iff_toInt_le]
      split <;> omega

theorem clampUnsigned_le (v : Value) (hi : UInt64) : v.clampUnsigned hi ≤ hi := by
  have hmin : ∀ n : UInt64, min n hi ≤ hi := fun n => Std.min_le_right
  obtain ⟨scalar, width⟩ := v
  cases scalar with
  | signed i =>
    simp only [clampUnsigned]
    split
    · exact UInt64.zero_le
    · exact hmin _
  | unsigned n => exact hmin n
  | real d => exact hmin _

end Value

/-! ## Types -/

namespace DataType

/-- The widths of integers. -/
def IsWidth (bytes : UInt8) : Prop := bytes = 1 ∨ bytes = 2 ∨ bytes = 4 ∨ bytes = 8

theorem signedRange_toInt {bytes : UInt8} (h : IsWidth bytes) :
    (signedRange bytes).1.toInt = -(2 ^ (8 * bytes.toNat - 1)) ∧
      (signedRange bytes).2.toInt = 2 ^ (8 * bytes.toNat - 1) - 1 := by
  rcases h with rfl | rfl | rfl | rfl <;> decide

theorem widthMask_toNat {bytes : UInt8} (h : IsWidth bytes) :
    (widthMask bytes).toNat = 2 ^ (8 * bytes.toNat) - 1 := by
  rcases h with rfl | rfl | rfl | rfl <;> decide

theorem signedOf_coerceSigned {bytes : UInt8} (h : IsWidth bytes) (v : Value) :
    SignedOf bytes.toNat (coerceSigned bytes v) := by
  obtain ⟨hlo, hhi⟩ := signedRange_toInt h
  have hpos : (0 : Int) < 2 ^ (8 * bytes.toNat - 1) := Int.pow_pos (by decide)
  have hrange : (signedRange bytes).1.toInt ≤ _ ∧ _ ≤ (signedRange bytes).2.toInt :=
    v.clampSigned_range (by omega) (by omega)
  refine ⟨rfl, v.clampSigned (signedRange bytes).1 (signedRange bytes).2, rfl, ?_, ?_⟩ <;> omega

theorem unsignedOf_coerceUnsigned {bytes : UInt8} (h : IsWidth bytes) (v : Value) :
    UnsignedOf bytes.toNat (coerceUnsigned bytes v) := by
  have hmask := widthMask_toNat h
  have hle : (v.clampUnsigned (widthMask bytes)).toNat ≤ (widthMask bytes).toNat :=
    v.clampUnsigned_le (widthMask bytes)
  have hpos : 0 < 2 ^ (8 * bytes.toNat) := Nat.two_pow_pos _
  exact ⟨rfl, _, rfl, by omega⟩

theorem holds_coerce (type : DataType) (v : Value) : type.Holds (type.coerce v) := by
  cases type with
  | int8 => exact signedOf_coerceSigned (.inl rfl) v
  | int16 => exact signedOf_coerceSigned (.inr (.inl rfl)) v
  | int32 => exact signedOf_coerceSigned (.inr (.inr (.inl rfl))) v
  | int64 => exact signedOf_coerceSigned (.inr (.inr (.inr rfl))) v
  | uint8 => exact unsignedOf_coerceUnsigned (.inl rfl) v
  | uint16 => exact unsignedOf_coerceUnsigned (.inr (.inl rfl)) v
  | uint32 => exact unsignedOf_coerceUnsigned (.inr (.inr (.inl rfl))) v
  | uint64 => exact unsignedOf_coerceUnsigned (.inr (.inr (.inr rfl))) v
  | single | double | undeclared => exact ⟨rfl, _, rfl⟩

end DataType

end SignalCalc
