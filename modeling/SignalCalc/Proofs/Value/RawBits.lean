import Mathlib.Algebra.Order.Group.Unbundled.Int
import SignalCalc.Proofs.Value.Range

namespace SignalCalc

/-- The unsigned view of an integer is the integer up to the size of a word. -/
theorem Value.toUInt64_of_integer? {v : Value} {x : Int} (h : v.integer? = some x) :
    (v.toUInt64.toNat : Int) = x % 2 ^ 64 := by
  obtain ⟨scalar, width⟩ := v
  cases scalar with
  | signed i =>
    obtain rfl : i.toInt = x := Option.some.inj h
    have hbits : i.toInt = (i.toUInt64.toNat : Int).bmod (2 ^ 64) := BitVec.toInt_eq_toNat_bmod _
    have hmod : (i.toUInt64.toNat : Int).bmod (2 ^ 64) % (2 ^ 64 : Nat) =
        i.toUInt64.toNat % (2 ^ 64 : Nat) := Int.bmod_emod
    have hword := i.toUInt64.toNat_lt
    rw [← hbits] at hmod
    simp only [toUInt64]
    omega
  | unsigned n =>
    obtain rfl : (n.toNat : Int) = x := Option.some.inj h
    have hword := n.toNat_lt
    simp only [toUInt64]
    omega
  | real d => cases h

namespace DataType

variable {type : DataType}

theorem isWidth_width (h : type.isReal = false) : IsWidth type.width := by
  cases type <;> simp_all [isReal, width, IsWidth]

theorem IsWidth.bits_le {bytes : UInt8} (h : IsWidth bytes) : 8 * bytes.toNat ≤ 64 := by
  rcases h with rfl | rfl | rfl | rfl <;> decide

/-- Half of the bit patterns of a width have the sign. -/
theorem IsWidth.two_pow_eq {bytes : UInt8} (h : IsWidth bytes) :
    (2 : Int) ^ (8 * bytes.toNat) = 2 * 2 ^ (8 * bytes.toNat - 1) := by
  rcases h with rfl | rfl | rfl | rfl <;> decide

theorem holds_signed_iff (h : type.isSigned = true) {v : Value} :
    type.Holds v ↔ ∃ i : Int64, v = ⟨.signed i, type.width⟩ ∧
      -(2 ^ (8 * type.width.toNat - 1)) ≤ i.toInt ∧ i.toInt < 2 ^ (8 * type.width.toNat - 1) := by
  have hkind : type.Holds v ↔ SignedOf type.width.toNat v := by
    cases type with
    | int8 | int16 | int32 | int64 => rfl
    | _ => cases h
  obtain ⟨scalar, bytes⟩ := v
  simp only [hkind, SignedOf, UInt8.toNat_inj, Value.mk.injEq]
  constructor
  · rintro ⟨rfl, i, rfl, hi⟩
    exact ⟨i, ⟨rfl, rfl⟩, hi⟩
  · rintro ⟨i, ⟨rfl, rfl⟩, hi⟩
    exact ⟨rfl, i, rfl, hi⟩

theorem holds_unsigned_iff (hreal : type.isReal = false) (hsigned : type.isSigned = false)
    {v : Value} :
    type.Holds v ↔ ∃ n : UInt64, v = ⟨.unsigned n, type.width⟩ ∧
      n.toNat < 2 ^ (8 * type.width.toNat) := by
  have hkind : type.Holds v ↔ UnsignedOf type.width.toNat v := by
    cases type with
    | uint8 | uint16 | uint32 | uint64 => rfl
    | single | double | undeclared => cases hreal
    | int8 | int16 | int32 | int64 => cases hsigned
  obtain ⟨scalar, bytes⟩ := v
  simp only [hkind, UnsignedOf, UInt8.toNat_inj, Value.mk.injEq]
  constructor
  · rintro ⟨rfl, n, rfl, hn⟩
    exact ⟨n, ⟨rfl, rfl⟩, hn⟩
  · rintro ⟨n, ⟨rfl, rfl⟩, hn⟩
    exact ⟨rfl, n, rfl, hn⟩

/-! ## Bits of values -/

theorem toNat_and_widthMask {bytes : UInt8} (h : IsWidth bytes) (n : UInt64) :
    (n &&& widthMask bytes).toNat = n.toNat % 2 ^ (8 * bytes.toNat) := by
  rw [UInt64.toNat_and, widthMask_toNat h, Nat.and_two_pow_sub_one_eq_mod]

theorem toNat_not_and_widthMask {bytes : UInt8} (h : IsWidth bytes) {n : UInt64}
    (hn : n.toNat < 2 ^ (8 * bytes.toNat)) :
    (~~~n &&& widthMask bytes).toNat = 2 ^ (8 * bytes.toNat) - 1 - n.toNat := by
  rw [toNat_and_widthMask h, UInt64.toNat_not]
  rcases h with rfl | rfl | rfl | rfl <;>
    simp only [UInt8.reduceToNat, Nat.reduceMul, Nat.reducePow, UInt64.size] at hn ⊢ <;> omega

theorem toNat_toBits (h : type.isReal = false) (v : Value) :
    (type.toBits v).toNat = v.toUInt64.toNat % 2 ^ (8 * type.width.toNat) := by
  have hbits : type.toBits v = v.toUInt64 &&& widthMask type.width := by
    cases type with
    | single | double | undeclared => cases h
    | _ => rfl
  rw [hbits, toNat_and_widthMask (isWidth_width h)]

/-- The raw bits of an integer are the integer up to the width of the type. -/
theorem toBits_of_integer? (h : type.isReal = false) {v : Value} {x : Int}
    (hx : v.integer? = some x) :
    ((type.toBits v).toNat : Int) = x % (2 ^ (8 * type.width.toNat) : Nat) := by
  have hdvd : ((2 ^ (8 * type.width.toNat) : Nat) : Int) ∣ (2 ^ 64 : Nat) :=
    Int.natCast_dvd_natCast.mpr (Nat.pow_dvd_pow 2 (isWidth_width h).bits_le)
  rw [toNat_toBits h, Int.natCast_emod, Value.toUInt64_of_integer? hx]
  exact Int.emod_emod_of_dvd x hdvd

/-! ## Values of bits -/

/-- In a signed type bits are extended by their sign. -/
theorem ofBits_signed (h : type.isSigned = true) (bits : UInt64) :
    ∃ i : Int64, type.ofBits bits = ⟨.signed i, type.width⟩ ∧
      i.toInt = (bits.toNat : Int).bmod (2 ^ (8 * type.width.toNat)) := by
  cases type with
  | int8 => exact ⟨_, rfl, by simp [width, Int8.toInt, BitVec.toInt_setWidth]⟩
  | int16 => exact ⟨_, rfl, by simp [width, Int16.toInt, BitVec.toInt_setWidth]⟩
  | int32 => exact ⟨_, rfl, by simp [width, Int32.toInt, BitVec.toInt_setWidth]⟩
  | int64 => exact ⟨_, rfl, BitVec.toInt_eq_toNat_bmod _⟩
  | _ => cases h

/-- In an unsigned type the bits above the width are cut off. -/
theorem ofBits_unsigned (hreal : type.isReal = false) (hsigned : type.isSigned = false)
    (bits : UInt64) :
    ∃ n : UInt64, type.ofBits bits = ⟨.unsigned n, type.width⟩ ∧
      n.toNat = bits.toNat % 2 ^ (8 * type.width.toNat) := by
  cases type with
  | uint8 | uint16 | uint32 => exact ⟨_, rfl, toNat_and_widthMask (isWidth_width hreal) bits⟩
  | uint64 => exact ⟨_, rfl, (Nat.mod_eq_of_lt bits.toNat_lt).symm⟩
  | single | double | undeclared => cases hreal
  | int8 | int16 | int32 | int64 => cases hsigned

/-- What raw bits stand for is an integer that is the same up to the width of the type. -/
theorem exists_integer_ofBits (h : type.isReal = false) (bits : UInt64) :
    ∃ x, (type.ofBits bits).integer? = some x ∧
      x % (2 ^ (8 * type.width.toNat) : Nat) = bits.toNat % (2 ^ (8 * type.width.toNat) : Nat) := by
  cases hsigned : type.isSigned with
  | true =>
    obtain ⟨i, hi, hvalue⟩ := ofBits_signed hsigned bits
    exact ⟨i.toInt, by rw [hi]; rfl, by rw [hvalue]; exact Int.bmod_emod⟩
  | false =>
    obtain ⟨n, hn, hvalue⟩ := ofBits_unsigned h hsigned bits
    exact ⟨n.toNat, by rw [hn]; rfl, by rw [hvalue]; simp⟩

theorem holds_ofBits (h : type.isReal = false) (bits : UInt64) : type.Holds (type.ofBits bits) := by
  cases hsigned : type.isSigned with
  | true =>
    obtain ⟨i, hi, hvalue⟩ := ofBits_signed hsigned bits
    have hpos : 0 < 2 ^ (8 * type.width.toNat) := Nat.two_pow_pos _
    have hlow := Int.le_bmod (x := bits.toNat) hpos
    have hhigh := Int.bmod_lt (x := bits.toNat) hpos
    have hhalf := (isWidth_width h).two_pow_eq
    rw [← hvalue] at hlow hhigh
    push_cast at hlow hhigh
    exact (holds_signed_iff hsigned).mpr ⟨i, hi, by omega⟩
  | false =>
    obtain ⟨n, hn, hvalue⟩ := ofBits_unsigned h hsigned bits
    refine (holds_unsigned_iff h hsigned).mpr ⟨n, hn, ?_⟩
    rw [hvalue]
    exact Nat.mod_lt _ (Nat.two_pow_pos _)

/-! ## There and back again -/

/-- Bits that were stored come back up to the width of the type. -/
theorem toBits_ofBits (h : type.isReal = false) (bits : UInt64) :
    (type.toBits (type.ofBits bits)).toNat = bits.toNat % 2 ^ (8 * type.width.toNat) := by
  obtain ⟨x, hx, hmod⟩ := exists_integer_ofBits h bits
  have hbits := toBits_of_integer? h hx
  rw [hmod] at hbits
  exact_mod_cast hbits

/-- No two values of a type have the same raw bits. -/
theorem Holds.eq_of_toBits (h : type.isReal = false) {a b : Value} (ha : type.Holds a)
    (hb : type.Holds b) (heq : type.toBits a = type.toBits b) : a = b := by
  have hmod : ∀ {x y : Int}, a.integer? = some x → b.integer? = some y →
      x % (2 ^ (8 * type.width.toNat) : Nat) = y % (2 ^ (8 * type.width.toNat) : Nat) := by
    intro x y hx hy
    rw [← toBits_of_integer? h hx, ← toBits_of_integer? h hy, heq]
  -- integers in the range of a type that agree up to its width are the same
  cases hsigned : type.isSigned with
  | true =>
    obtain ⟨i, rfl, hi⟩ := (holds_signed_iff hsigned).mp ha
    obtain ⟨j, rfl, hj⟩ := (holds_signed_iff hsigned).mp hb
    have hsame : i.toInt % _ = j.toInt % _ := hmod rfl rfl
    have hhalf := (isWidth_width h).two_pow_eq
    have hint : i.toInt - j.toInt = 0 := by
      apply Int.eq_zero_of_abs_lt_dvd 
        (Int.dvd_of_emod_eq_zero (Int.emod_eq_emod_iff_emod_sub_eq_zero.mp hsame))
      push_cast
      exact abs_lt.mpr ⟨by omega, by omega⟩
    rw [Int64.toInt_inj.mp (Int.sub_eq_zero.mp hint)]
  | false =>
    obtain ⟨n, rfl, hn⟩ := (holds_unsigned_iff h hsigned).mp ha
    obtain ⟨m, rfl, hm⟩ := (holds_unsigned_iff h hsigned).mp hb
    have hsame : (n.toNat : Int) % _ = m.toNat % _ := hmod rfl rfl
    have hnat : n.toNat = m.toNat := by
      rw [← Nat.mod_eq_of_lt hn, ← Nat.mod_eq_of_lt hm]
      exact_mod_cast hsame
    rw [UInt64.toNat_inj.mp hnat]

/-- A value of an integer type comes back from its raw bits. -/
theorem ofBits_toBits (h : type.isReal = false) {v : Value} (hv : type.Holds v) :
    type.ofBits (type.toBits v) = v := by
  apply (holds_ofBits h _).eq_of_toBits h hv
  apply UInt64.toNat_inj.mp
  rw [toBits_ofBits h, toNat_toBits h, Nat.mod_mod]

/-- An integer type limits a value by its width. -/
theorem coerce_eq (h : type.isReal = false) (v : Value) :
    type.coerce v =
      if type.isSigned then coerceSigned type.width v else coerceUnsigned type.width v := by
  cases type with
  | single | double | undeclared => cases h
  | _ => rfl

/-- A type keeps its own values as they are. -/
theorem coerce_of_holds (h : type.isReal = false) {v : Value} (hv : type.Holds v) :
    type.coerce v = v := by
  cases hsigned : type.isSigned with
  | true =>
    obtain ⟨i, rfl, hi⟩ := (holds_signed_iff hsigned).mp hv
    obtain ⟨hlow, hhigh⟩ := signedRange_toInt (isWidth_width h)
    have hkeep : Value.clampInt64 (signedRange type.width).1 (signedRange type.width).2 i = i := by
      simp only [Value.clampInt64, Int64.lt_iff_toInt_lt]
      rw [if_neg (by omega), if_neg (by omega)]
    simp [coerce_eq h, hsigned, coerceSigned, Value.clampSigned, hkeep]
  | false =>
    obtain ⟨n, rfl, hn⟩ := (holds_unsigned_iff h hsigned).mp hv
    have hmask := widthMask_toNat (isWidth_width h)
    have hle : n ≤ widthMask type.width := by
      rw [UInt64.le_iff_toNat_le]
      omega
    have hkeep : min n (widthMask type.width) = n := if_pos hle
    simp [coerce_eq h, hsigned, coerceUnsigned, Value.clampUnsigned, hkeep]

end DataType

end SignalCalc
