import Mathlib.Algebra.Order.Ring.Int
import SignalCalc.Value.Arithmetic

/-! # Integer arithmetic

Two integers are combined in signed words of 128 bits, and the result is brought into the range of
values. The words are wide enough for everything but a product, and where a product does not fit, its
sign tells which end of the range it lies beyond. So the result is always the exact one, brought into
the range.
-/

namespace SignalCalc.Value

/-- The range of values: from the least signed to the greatest unsigned word. -/
def InRange (r : Int) : Prop := -2 ^ 63 ≤ r ∧ r ≤ 2 ^ 64 - 1

def limited (r : Int) : Int := max (-2 ^ 63) (min r (2 ^ 64 - 1))

/-- The value stands for an exact result: it is that integer brought into the range, signed exactly
if the result is negative and else unsigned, in eight bytes. -/
structure Limited (v : Value) (r : Int) : Prop where
  integer : v.integer? = some (limited r)
  domain : v.domain = if r < 0 then .signed else .unsigned
  width : v.width = 8

theorem limited_of_inRange {r : Int} (h : InRange r) : limited r = r := by
  unfold InRange at h
  unfold limited
  omega

theorem limited_ofInt (r : Int) : Limited (ofInt r) r := by
  unfold ofInt
  by_cases hneg : r < 0
  · simp only [if_pos hneg]
    refine ⟨?_, by simp [domain, ofInt64, hneg], rfl⟩
    have hword : (Int64.ofInt (max r (-0x8000000000000000))).toInt = max r (-0x8000000000000000) :=
      Int64.toInt_ofInt_of_le (by omega) (by omega)
    simp only [integer?, ofInt64, hword, limited]
    congr 1
    omega
  · simp only [if_neg hneg]
    refine ⟨?_, by simp [domain, ofUInt64, hneg], rfl⟩
    have hword : (UInt64.ofNat (min r 0xFFFFFFFFFFFFFFFF).toNat).toNat =
        (min r 0xFFFFFFFFFFFFFFFF).toNat :=
      UInt64.toNat_ofNat_of_lt' (by simp only [UInt64.size]; omega)
    simp only [integer?, ofUInt64, hword, limited]
    congr 1
    omega

/-- Beyond the range nothing but the sign of a result counts. -/
theorem limited_of_overflow {r : Int} (h : 2 ^ 64 ≤ r ∨ r < -2 ^ 64) :
    Limited (if r < 0 then ofInt64 Int64.minValue else ofUInt64 0xFFFFFFFFFFFFFFFF) r := by
  by_cases hneg : r < 0
  · have hlimit : limited r = -2 ^ 63 := by
      unfold limited
      omega
    rw [if_pos hneg]
    exact ⟨by simp [hlimit, integer?, ofInt64], by simp [hneg, domain, ofInt64], rfl⟩
  · have hlimit : limited r = 2 ^ 64 - 1 := by
      unfold limited
      omega
    rw [if_neg hneg]
    exact ⟨by simp [hlimit, integer?, ofUInt64], by simp [hneg, domain, ofUInt64], rfl⟩

/-! ## Words -/

theorem inRange_of_integer? {v : Value} {x : Int} (h : v.integer? = some x) : InRange x := by
  obtain ⟨scalar, width⟩ := v
  cases scalar with
  | signed i =>
    obtain rfl : i.toInt = x := Option.some.inj h
    have hlow := i.le_toInt
    have hhigh := i.toInt_lt
    unfold InRange
    omega
  | unsigned n =>
    obtain rfl : (n.toNat : Int) = x := Option.some.inj h
    have hhigh := n.toNat_lt
    unfold InRange
    omega
  | real d => cases h

theorem toInt_wide {x : Int} (h : InRange x) : (BitVec.ofInt 128 x : Wide).toInt = x := by
  unfold InRange at h
  exact BitVec.toInt_ofInt_eq_self (by decide) (by omega) (by omega)

/-- The words of two integers are the same numbers. -/
theorem exists_widePair? {a b : Value} {x y : Int} (ha : a.integer? = some x)
    (hb : b.integer? = some y) :
    ∃ v w : Wide, widePair? a b = some (v, w) ∧ v.toInt = x ∧ w.toInt = y :=
  ⟨.ofInt 128 x, .ofInt 128 y, by simp [widePair?, exactPair?, ha, hb],
    toInt_wide (inRange_of_integer? ha), toInt_wide (inRange_of_integer? hb)⟩

section Overflow

variable {v w : Wide} (hv : InRange v.toInt) (hw : InRange w.toInt)
include hv

include hw in
theorem saddOverflow_of_inRange : v.saddOverflow w = false := by
  unfold InRange at hv hw
  simp only [BitVec.saddOverflow, Bool.or_eq_false_iff, decide_eq_false_iff_not]
  omega

include hw in
theorem ssubOverflow_of_inRange : v.ssubOverflow w = false := by
  unfold InRange at hv hw
  simp only [BitVec.ssubOverflow, Bool.or_eq_false_iff, decide_eq_false_iff_not]
  omega

theorem sdivOverflow_of_inRange : v.sdivOverflow w = false := by
  have habs := Int.natAbs_ediv_le_natAbs v.toInt w.toInt
  unfold InRange at hv
  simp only [BitVec.sdivOverflow, Bool.or_eq_false_iff, decide_eq_false_iff_not]
  omega

/-- The one quotient that no word holds starts from the least word, far below any value. -/
theorem ne_intMin_of_inRange : v ≠ BitVec.intMin 128 := by
  rintro rfl
  have hmin : (BitVec.intMin 128).toInt = -2 ^ 127 := by decide
  unfold InRange at hv
  omega

end Overflow

/-- A remainder lies between 0 and the dividend. -/
theorem InRange.tmod {x : Int} (h : InRange x) (y : Int) : InRange (x.tmod y) := by
  have habs : (x.tmod y).natAbs ≤ x.natAbs := by
    rw [Int.natAbs_tmod]
    exact Nat.mod_le _ _
  unfold InRange at h ⊢
  by_cases hx : 0 ≤ x
  · have hsign := Int.tmod_nonneg y hx
    omega
  · omega

/-- The signs of two words differ exactly if their product is negative, unless it is 0. -/
theorem msb_bne_iff {v w : Wide} (h : v.toInt * w.toInt ≠ 0) :
    (v.msb != w.msb) = true ↔ v.toInt * w.toInt < 0 := by
  have hv : v.toInt ≠ 0 := left_ne_zero_of_mul h
  have hw : w.toInt ≠ 0 := right_ne_zero_of_mul h
  simp only [BitVec.msb_eq_toInt, bne_iff_ne, ne_eq, decide_eq_decide, mul_neg_iff]
  omega

/-! ## Operations -/

section Operations

variable {a b : Value} {v w : Wide} (h : widePair? a b = some (v, w))
include h

theorem limited_add (hv : InRange v.toInt) (hw : InRange w.toInt) :
    Limited (a.add b) (v.toInt + w.toInt) := by
  have hfits := Bool.eq_false_iff.mp (saddOverflow_of_inRange hv hw)
  simp only [add, h, BitVec.toInt_add_of_not_saddOverflow hfits]
  exact limited_ofInt _

theorem limited_sub (hv : InRange v.toInt) (hw : InRange w.toInt) :
    Limited (a.sub b) (v.toInt - w.toInt) := by
  have hfits := Bool.eq_false_iff.mp (ssubOverflow_of_inRange hv hw)
  simp only [sub, h, BitVec.toInt_sub_of_not_ssubOverflow hfits]
  exact limited_ofInt _

/-- The product, with and without overflow. -/
theorem limited_mul : Limited (a.mul b) (v.toInt * w.toInt) := by
  simp only [mul, h]
  by_cases hover : v.smulOverflow w = true
  · rw [if_pos hover]
    simp only [BitVec.smulOverflow, Bool.or_eq_true, decide_eq_true_eq] at hover
    simp only [msb_bne_iff (v := v) (w := w) (by omega)]
    exact limited_of_overflow (by omega)
  · rw [if_neg hover, BitVec.toInt_mul_of_not_smulOverflow hover]
    exact limited_ofInt _

theorem limited_div (hv : InRange v.toInt) (hw : w ≠ 0) :
    Limited (a.div b) (v.toInt.tdiv w.toInt) := by
  simp only [div, h, if_neg hw, BitVec.toInt_sdiv_of_ne_or_ne v w (.inl (ne_intMin_of_inRange hv))]
  exact limited_ofInt _

theorem limited_mod (hw : w ≠ 0) : Limited (a.mod b) (v.toInt.tmod w.toInt) := by
  simp only [mod, h, if_neg hw, BitVec.toInt_srem]
  exact limited_ofInt _

end Operations

/-- Integer arithmetic is exact up to the range of values. Take two integers of any domain and width.
Sum, difference, product, quotient toward zero and remainder with the sign of the dividend are the
exact results brought into the range, signed if negative and else unsigned, in eight bytes. A
remainder is in the range by itself, and with a quotient in the range it gives the dividend back.
Of the words in which all of this is computed only a product ever overflows. -/
theorem integer_arithmetic_exact {a b : Value} {x y : Int} (ha : a.integer? = some x)
    (hb : b.integer? = some y) :
    Limited (a.add b) (x + y) ∧ Limited (a.sub b) (x - y) ∧ Limited (a.mul b) (x * y) ∧
      (y ≠ 0 →
        Limited (a.div b) (x.tdiv y) ∧ Limited (a.mod b) (x.tmod y) ∧
        (a.mod b).integer? = some (x.tmod y) ∧
        (InRange (x.tdiv y) → ∀ q r, (a.div b).integer? = some q →
          (a.mod b).integer? = some r → x = q * y + r)) ∧
      ∃ v w : Wide, widePair? a b = some (v, w) ∧ v.toInt = x ∧ w.toInt = y ∧
        v.saddOverflow w = false ∧ v.ssubOverflow w = false ∧ v.sdivOverflow w = false := by
  have hx := inRange_of_integer? ha
  have hy := inRange_of_integer? hb
  obtain ⟨v, w, hpair, rfl, rfl⟩ := exists_widePair? ha hb
  refine ⟨limited_add hpair hx hy, limited_sub hpair hx hy, limited_mul hpair, fun hzero => ?_,
    v, w, hpair, rfl, rfl, saddOverflow_of_inRange hx hy, ssubOverflow_of_inRange hx hy,
    sdivOverflow_of_inRange hx⟩
  have hw : w ≠ 0 := fun h => hzero (by rw [h]; rfl)
  have hquotient := limited_div hpair hx hw
  have hremainder := limited_mod hpair hw
  have hexact : (a.mod b).integer? = some (v.toInt.tmod w.toInt) := by
    rw [hremainder.integer, limited_of_inRange (hx.tmod _)]
  refine ⟨hquotient, hremainder, hexact, fun hrange q r hq hr => ?_⟩
  rw [hquotient.integer, limited_of_inRange hrange] at hq
  rw [hexact] at hr
  cases hq
  cases hr
  rw [Int.mul_comm]
  exact (Int.mul_tdiv_add_tmod _ _).symm

/-- The greatest value, squared and divided by -1: the square overflows its word, and the quotient is
below the range. -/
theorem integer_arithmetic_exact_limits :
    let a : Value := ofUInt64 0xFFFFFFFFFFFFFFFF
    let b : Value := ⟨.signed (-1), 1⟩
    (BitVec.ofInt 128 (2 ^ 64 - 1) : Wide).smulOverflow (.ofInt 128 (2 ^ 64 - 1)) = true ∧
      (a.mul a).integer? = some (2 ^ 64 - 1) ∧ Limited (a.div b) (-(2 ^ 64 - 1)) ∧
      (a.div b).integer? = some (-2 ^ 63) := by
  intro a b
  have ha : a.integer? = some (2 ^ 64 - 1) := by decide
  have hb : b.integer? = some (-1) := by decide
  have hproduct := (integer_arithmetic_exact ha ha).2.2.1
  have hquotient := ((integer_arithmetic_exact ha hb).2.2.2.1 (by decide)).1
  exact ⟨by decide, hproduct.integer, hquotient, hquotient.integer⟩

end SignalCalc.Value
