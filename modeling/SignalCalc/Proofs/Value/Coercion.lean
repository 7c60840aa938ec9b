import SignalCalc.Proofs.Value.Clamping
import SignalCalc.Proofs.Value.RawBits

namespace SignalCalc.DataType

def least (type : DataType) : Int :=
  if type.isSigned then -(2 ^ (8 * type.width.toNat - 1)) else 0

def greatest (type : DataType) : Int :=
  if type.isSigned then 2 ^ (8 * type.width.toNat - 1) - 1 else 2 ^ (8 * type.width.toNat) - 1

def domain (type : DataType) : Domain := if type.isSigned then .signed else .unsigned

variable {type : DataType}

/-- A value of an integer type has its domain and width, and is an integer in its range. -/
theorem Holds.bounded (h : type.isReal = false) {v : Value} (hv : type.Holds v) :
    v.domain = type.domain ∧ v.width = type.width ∧
      ∃ x, v.integer? = some x ∧ type.least ≤ x ∧ x ≤ type.greatest := by
  unfold domain least greatest
  cases hsigned : type.isSigned with
  | true =>
    obtain ⟨i, rfl, hlow, hhigh⟩ := (holds_signed_iff hsigned).mp hv
    exact ⟨rfl, rfl, i.toInt, rfl, hlow, Int.le_sub_one_of_lt hhigh⟩
  | false =>
    obtain ⟨n, rfl, hn⟩ := (holds_unsigned_iff h hsigned).mp hv
    refine ⟨rfl, rfl, n.toNat, rfl, Int.natCast_nonneg _, Int.le_sub_one_of_lt ?_⟩
    exact_mod_cast hn

/-- Integers are brought into the range of the type. -/
theorem integer?_coerce (h : type.isReal = false) {v : Value} {x : Int} (hx : v.integer? = some x) :
    (type.coerce v).integer? = some (max type.least (min x type.greatest)) := by
  rw [coerce_eq h]
  cases hsigned : type.isSigned with
  | true =>
    obtain ⟨hlow, hhigh⟩ := signedRange_toInt (isWidth_width h)
    have hpos : (0 : Int) < 2 ^ (8 * type.width.toNat - 1) := Int.pow_pos (by decide)
    have hle : (signedRange type.width).1 ≤ (signedRange type.width).2 := by
      rw [Int64.le_iff_toInt_le]
      omega
    -- the range of a signed type reaches zero, so that its view is exact
    have hclamp := (Value.clampSigned_exact_iff hx hle).mpr (.inr (.inl (by omega)))
    rw [hlow, hhigh] at hclamp
    simp only [if_true, least, greatest, hsigned, ← hclamp]
    rfl
  | false =>
    have hclamp := Value.toNat_clampUnsigned hx (widthMask type.width)
    have hpos : 1 ≤ 2 ^ (8 * type.width.toNat) := Nat.one_le_two_pow
    rw [widthMask_toNat (isWidth_width h)] at hclamp
    push_cast [hpos] at hclamp
    simp only [Bool.false_eq_true, if_false, least, greatest, hsigned, ← hclamp]
    rfl

/-- Coercion to an integer type. Any value becomes one of the type, with its domain and width and in
its range. An integer is brought into the range, and what is in the type stays as it is. The raw bits
of the type stand for its values: a coerced value comes back from its bits, and bits come back from
the value that they stand for, up to the width of the type. -/
theorem coercion_retracts (h : type.isReal = false) :
    (∀ v, (type.coerce v).domain = type.domain ∧ (type.coerce v).width = type.width ∧
      (∃ x, (type.coerce v).integer? = some x ∧ type.least ≤ x ∧ x ≤ type.greatest) ∧
      (∀ x, v.integer? = some x →
        (type.coerce v).integer? = some (max type.least (min x type.greatest))) ∧
      type.coerce (type.coerce v) = type.coerce v ∧
      type.ofBits (type.toBits (type.coerce v)) = type.coerce v) ∧
    ∀ bits, (type.toBits (type.ofBits bits)).toNat = bits.toNat % 2 ^ (8 * type.width.toNat) ∧
      type.coerce (type.ofBits bits) = type.ofBits bits := by
  constructor
  · intro v
    have hholds := type.holds_coerce v
    obtain ⟨hdomain, hwidth, hrange⟩ := hholds.bounded h
    exact ⟨hdomain, hwidth, hrange, fun x hx => integer?_coerce h hx, coerce_of_holds h hholds,
      ofBits_toBits h hholds⟩
  · exact fun bits => ⟨toBits_ofBits h bits, coerce_of_holds h (holds_ofBits h bits)⟩

theorem coercion_retracts_byte :
    int8.isReal = false ∧ int8.least = -128 ∧ int8.greatest = 127 ∧
    (int8.coerce (.ofUInt64 0xFFFFFFFFFFFFFFFF)).integer? = some 127 ∧
    (int8.coerce (.ofFloat (0.0 / 0.0))).domain = .signed ∧
    (int8.toBits (int8.ofBits 0x1FF)).toNat = 0xFF ∧
    int8.coerce (int8.ofBits 0x1FF) = int8.ofBits 0x1FF := by
  have hbyte : int8.isReal = false := rfl
  obtain ⟨hvalues, hbits⟩ := coercion_retracts hbyte
  obtain ⟨-, -, -, hexact, -, -⟩ := hvalues (.ofUInt64 0xFFFFFFFFFFFFFFFF)
  obtain ⟨hdomain, -⟩ := hvalues (.ofFloat (0.0 / 0.0))
  exact ⟨rfl, rfl, rfl, hexact _ rfl, hdomain, (hbits 0x1FF).1, (hbits 0x1FF).2⟩

end SignalCalc.DataType
