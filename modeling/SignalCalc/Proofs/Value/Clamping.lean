import SignalCalc.Proofs.Value.Range

/-! # Limited views of integers

The limited views bring an integer into a range. The unsigned one always does. The signed one holds
an unsigned number against its upper limit as an unsigned word, so that it misses ranges that lie
below zero altogether: there a negative limit is a large word, and most numbers pass it.
-/

namespace SignalCalc.Value

/-! ## Words and their numbers -/

theorem toNat_toUInt64 (i : Int64) :
    (i.toUInt64.toNat : Int) = if 0 ≤ i.toInt then i.toInt else i.toInt + 2 ^ 64 := by
  have hlt := i.toUInt64.toNat_lt
  have hbits : i.toInt = i.toUInt64.toBitVec.toInt := rfl
  have hnat : i.toUInt64.toNat = i.toUInt64.toBitVec.toNat := rfl
  rw [hbits, hnat, BitVec.toInt_eq_toNat_cond]
  split <;> split <;> omega

theorem toInt_toInt64_cases (n : UInt64) :
    n.toInt64.toInt = if n.toNat < 2 ^ 63 then (n.toNat : Int) else n.toNat - 2 ^ 64 := by
  have hbits : n.toInt64.toInt = n.toBitVec.toInt := rfl
  have hnat : n.toNat = n.toBitVec.toNat := rfl
  rw [hbits, hnat, BitVec.toInt_eq_toNat_cond]
  split <;> split <;> omega

theorem toInt_max (i j : Int64) : (max i j).toInt = max i.toInt j.toInt := by
  have hmax : max i j = if i ≤ j then j else i := rfl
  rw [hmax]
  simp only [Int64.le_iff_toInt_le]
  split <;> omega

theorem toNat_min (n m : UInt64) : (min n m).toNat = min n.toNat m.toNat := by
  have hmin : min n m = if n ≤ m then n else m := rfl
  rw [hmin]
  simp only [UInt64.le_iff_toNat_le]
  split <;> omega

/-! ## The views -/

theorem toInt_clampInt64 {lo hi : Int64} (h : lo ≤ hi) (i : Int64) :
    (clampInt64 lo hi i).toInt = max lo.toInt (min i.toInt hi.toInt) := by
  rw [Int64.le_iff_toInt_le] at h
  simp only [clampInt64, Int64.lt_iff_toInt_lt]
  split
  · omega
  · split <;> omega

/-- An unsigned number beyond the word of the upper limit becomes the limit, any other one the
greater of its signed reading and the lower limit. -/
theorem toInt_clampSigned_unsigned (n : UInt64) (width : UInt8) (lo hi : Int64) :
    (clampSigned ⟨.unsigned n, width⟩ lo hi).toInt =
      if (hi.toUInt64.toNat : Int) < n.toNat then hi.toInt else max n.toInt64.toInt lo.toInt := by
  simp only [clampSigned, UInt64.lt_iff_toNat_lt, Int.ofNat_lt]
  split
  · rfl
  · rw [toInt_max]

/-- The signed view of an integer, brought into a range. It is the exact integer brought into it for
a signed number and for a range that reaches zero, and otherwise only for the largest words, or for
the upper half of the words where the range is a single number. -/
theorem clampSigned_exact_iff {v : Value} {x : Int} (hx : v.integer? = some x) {lo hi : Int64}
    (h : lo ≤ hi) :
    (v.clampSigned lo hi).toInt = max lo.toInt (min x hi.toInt) ↔
      v.domain = .signed ∨ 0 ≤ hi.toInt ∨ 2 ^ 64 + hi.toInt ≤ x ∨ lo = hi ∧ 2 ^ 63 ≤ x := by
  obtain ⟨scalar, width⟩ := v
  cases scalar with
  | signed i =>
    obtain rfl : i.toInt = x := Option.some.inj hx
    exact iff_of_true (toInt_clampInt64 h i) (.inl rfl)
  | unsigned n =>
    obtain rfl : (n.toNat : Int) = x := Option.some.inj hx
    have hlimit := toNat_toUInt64 hi
    have hsigned := toInt_toInt64_cases n
    have hword := n.toNat_lt
    have hlo := lo.le_toInt
    have hhi := hi.toInt_lt
    have hdomain : (⟨.unsigned n, width⟩ : Value).domain ≠ .signed := nofun
    rw [Int64.le_iff_toInt_le] at h
    rw [toInt_clampSigned_unsigned, ← Int64.toInt_inj]
    simp only [hdomain, false_or]
    by_cases hpos : 0 ≤ hi.toInt
    · -- the limit is the same number as a word, and a number up to it the same one when signed
      rw [if_pos hpos] at hlimit
      refine iff_of_true ?_ (.inl hpos)
      split
      · rw [Int.min_eq_right (by omega), Int.max_eq_right h]
      · rw [Int.min_eq_left (by omega), Int.max_comm]
        split at hsigned <;> omega
    · -- the exact result is the limit, which few numbers are brought to
      rw [if_neg hpos] at hlimit
      rw [Int.min_eq_right (by omega), Int.max_eq_right h]
      split
      · exact iff_of_true rfl (by omega)
      · split at hsigned <;> omega
  | real d => cases hx

theorem toNat_clampUnsigned {v : Value} {x : Int} (hx : v.integer? = some x) (hi : UInt64) :
    ((v.clampUnsigned hi).toNat : Int) = max 0 (min x hi.toNat) := by
  obtain ⟨scalar, width⟩ := v
  cases scalar with
  | signed i =>
    obtain rfl : i.toInt = x := Option.some.inj hx
    have hword := toNat_toUInt64 i
    simp only [clampUnsigned, Int64.lt_iff_toInt_lt, Int64.toInt_zero]
    by_cases hneg : i.toInt < 0
    · rw [if_pos hneg, UInt64.toNat_zero]
      omega
    · rw [if_neg hneg, toNat_min]
      rw [if_pos (by omega)] at hword
      omega
  | unsigned n =>
    obtain rfl : (n.toNat : Int) = x := Option.some.inj hx
    simp only [clampUnsigned, toNat_min]
    omega
  | real d => cases hx

/-- Both limited views of an integer `x`. The unsigned one is `x` brought into `[0, hi]`. The signed
one is `x` brought into `[lo, hi]` in just the cases of `clampSigned_exact_iff`. In all others the
number is unsigned, and its signed reading is held against the lower limit alone. -/
theorem clamped_views {v : Value} {x : Int} (hx : v.integer? = some x) :
    (∀ hi, ((v.clampUnsigned hi).toNat : Int) = max 0 (min x hi.toNat)) ∧
    ∀ lo hi, lo ≤ hi →
      ((v.clampSigned lo hi).toInt = max lo.toInt (min x hi.toInt) ↔
        v.domain = .signed ∨ 0 ≤ hi.toInt ∨ 2 ^ 64 + hi.toInt ≤ x ∨ lo = hi ∧ 2 ^ 63 ≤ x) ∧
      ((v.clampSigned lo hi).toInt ≠ max lo.toInt (min x hi.toInt) →
        v.domain = .unsigned ∧ v.clampSigned lo hi = max v.toInt64 lo) := by
  refine ⟨toNat_clampUnsigned hx, fun lo hi h => ⟨clampSigned_exact_iff hx h, fun hne => ?_⟩⟩
  rw [ne_eq, clampSigned_exact_iff hx h] at hne
  simp only [not_or] at hne
  obtain ⟨hdomain, hneg, hword, -⟩ := hne
  obtain ⟨scalar, width⟩ := v
  cases scalar with
  | signed i => exact absurd rfl hdomain
  | unsigned n =>
    obtain rfl : (n.toNat : Int) = x := Option.some.inj hx
    have hlimit := toNat_toUInt64 hi
    rw [if_neg hneg] at hlimit
    refine ⟨rfl, ?_⟩
    simp only [clampSigned, UInt64.lt_iff_toNat_lt, toInt64]
    rw [if_neg (by omega)]
  | real d => cases hx

theorem clamped_views_five :
    (ofUInt64 5).integer? = some 5 ∧ ((ofUInt64 5).clampUnsigned 3).toNat = 3 ∧
    ((ofUInt64 5).clampSigned (-10) 3).toInt = 3 ∧
    (ofUInt64 5).clampSigned (-10) (-5) = max 5 (-10) := by
  obtain ⟨hunsigned, hsigned⟩ := clamped_views (v := ofUInt64 5) (x := 5) rfl
  obtain ⟨hexact, -⟩ := hsigned (-10) 3 (by decide)
  obtain ⟨hnone, hother⟩ := hsigned (-10) (-5) (by decide)
  refine ⟨rfl, ?_, hexact.mpr (.inr (.inl (by decide))), (hother ?_).2⟩
  · exact Int.ofNat.inj (hunsigned 3)
  · rw [ne_eq, hnone]
    decide

/-- The signed view of an unsigned 5 in the range from -10 to -5 is 5, above the range. -/
theorem clampSigned_escapes_range :
    (ofUInt64 5).integer? = some 5 ∧ (-10 : Int64) ≤ -5 ∧
    ((ofUInt64 5).clampSigned (-10) (-5)).toInt = 5 ∧
    max (-10 : Int64).toInt (min 5 (-5 : Int64).toInt) = -5 :=
  ⟨rfl, by decide, by decide, by decide⟩

end SignalCalc.Value
