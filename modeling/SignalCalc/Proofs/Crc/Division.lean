import Mathlib
import SignalCalc.Proofs.Crc.Agreement

/-! # Checksums as polynomial division

The bits of a register are the coefficients of a polynomial over the field of two elements, and a
step of the register multiplies by `X` and takes off a multiple of the generator. So the register
holds, at every moment, the remainder of what has entered so far.
-/

namespace SignalCalc.Crc

open Polynomial

variable {w : Nat}

/-! ## Registers -/

/-- The polynomial whose coefficients are the bits of a register, the lowest bit at the constant
term. -/
noncomputable def polynomial (x : BitVec w) : (ZMod 2)[X] :=
  ∑ i ∈ Finset.range w, if x.getLsbD i then X ^ i else 0

theorem coeff_polynomial (x : BitVec w) (n : Nat) :
    (polynomial x).coeff n = if x.getLsbD n then 1 else 0 := by
  have hterm : ∀ i, (if x.getLsbD i then (X : (ZMod 2)[X]) ^ i else 0).coeff n =
      if n = i then (if x.getLsbD n then 1 else 0) else 0 := by
    intro i
    by_cases hi : n = i
    · subst hi
      cases x.getLsbD n <;> simp
    · cases x.getLsbD i <;> simp [coeff_X_pow, hi]
  simp only [polynomial, finsetSum_coeff, hterm, Finset.sum_ite_eq, Finset.mem_range]
  by_cases hn : n < w
  · simp [hn]
  · simp [hn, BitVec.getLsbD_of_ge x n (Nat.le_of_not_lt hn)]

/-- A register is known by its polynomial. -/
theorem polynomial_injective : Function.Injective (polynomial (w := w)) := by
  intro x y h
  apply BitVec.eq_of_getLsbD_eq
  intro i _
  have hcoeff := congrArg (·.coeff i) h
  simp only [coeff_polynomial] at hcoeff
  cases hx : x.getLsbD i <;> cases hy : y.getLsbD i <;> simp_all

theorem degree_polynomial_lt (x : BitVec w) : (polynomial x).degree < w := by
  rw [degree_lt_iff_coeff_zero]
  intro n hn
  simp [coeff_polynomial, BitVec.getLsbD_of_ge x n hn]

@[simp] theorem polynomial_zero : polynomial (0#w) = 0 := by
  ext n
  simp [coeff_polynomial]

theorem polynomial_xor (x y : BitVec w) : polynomial (x ^^^ y) = polynomial x + polynomial y := by
  ext n
  simp only [coeff_polynomial, coeff_add, BitVec.getLsbD_xor]
  cases x.getLsbD n <;> cases y.getLsbD n <;> decide

/-- A shift pushes out the bit that goes to the power `w`. -/
theorem X_mul_polynomial (x : BitVec w) :
    X * polynomial x = polynomial (x <<< 1) + if x.msb then X ^ w else 0 := by
  ext n
  have hout : (if x.msb then (X : (ZMod 2)[X]) ^ w else 0).coeff n =
      if n = w ∧ x.msb then 1 else 0 := by
    cases x.msb <;> simp [coeff_X_pow]
  rw [coeff_add, hout, coeff_polynomial, BitVec.getLsbD_shiftLeft]
  cases n with
  | zero =>
    have hmsb : ¬ (0 = w ∧ x.msb) := by
      rintro ⟨rfl, hmsb⟩
      simp [BitVec.eq_nil x] at hmsb
    simp [hmsb]
  | succ n =>
    rw [coeff_X_mul, coeff_polynomial]
    rcases Nat.lt_trichotomy (n + 1) w with hlt | rfl | hgt
    · simp [hlt, Nat.ne_of_lt hlt]
    · simp [BitVec.msb_eq_getLsbD_last]
    · simp [Nat.not_lt_of_gt hgt, Nat.ne_of_gt hgt, BitVec.getLsbD_of_ge x n (by omega)]

/-! ## Steps -/

/-- The polynomial by which a register with `poly` in it divides. -/
noncomputable def generator (poly : BitVec w) : (ZMod 2)[X] := X ^ w + polynomial poly

theorem generator_monic (poly : BitVec w) : (generator poly).Monic :=
  monic_X_pow_add (degree_polynomial_lt poly)

theorem degree_generator (poly : BitVec w) : (generator poly).degree = w := by
  have hlt : (polynomial poly).degree < ((X : (ZMod 2)[X]) ^ w).degree := by
    rw [degree_X_pow]
    exact degree_polynomial_lt poly
  rw [generator, degree_add_eq_left_of_degree_lt hlt, degree_X_pow]

def coefficient (bit : Bool) : ZMod 2 := if bit then 1 else 0

/-- A step of the register, up to a multiple of the generator, multiplies by `X`. -/
theorem polynomial_advance (poly reg : BitVec w) :
    polynomial (advance poly reg) =
      X * polynomial reg + C (coefficient reg.msb) * generator poly := by
  rw [X_mul_polynomial]
  cases hmsb : reg.msb with
  | false => simp [advance, hmsb, coefficient]
  | true =>
    -- the power that was pushed out stands twice and cancels
    have htwice : (X : (ZMod 2)[X]) ^ w + X ^ w = 0 := CharTwo.add_self_eq_zero _
    simp only [advance, hmsb, if_true, polynomial_xor, coefficient, generator, C_1, one_mul]
    linear_combination -htwice

theorem X_mul_polynomial_high (bit : Bool) (hw : 0 < w) :
    X * polynomial (high w bit) = C (coefficient bit) * X ^ w := by
  have hmsb : (high w bit).msb = bit := by
    simp [BitVec.msb_eq_getMsbD_zero, getMsbD_high, hw]
  have hrest : high w bit <<< 1 = 0#w := by
    apply BitVec.eq_of_getMsbD_eq
    intro i _
    simp [BitVec.getMsbD_shiftLeft, getMsbD_high]
  rw [X_mul_polynomial, hmsb, hrest, polynomial_zero, zero_add]
  cases bit <;> simp [coefficient]

/-- A message bit that enters against the top of the register comes in at the power `w`. -/
theorem polynomial_absorb (poly reg : BitVec w) (bit : Bool) (hw : 0 < w) :
    ∃ q, polynomial (absorb poly reg bit) =
      X * polynomial reg + C (coefficient bit) * X ^ w + q * generator poly := by
  refine ⟨C (coefficient (reg ^^^ high w bit).msb), ?_⟩
  rw [absorb, polynomial_advance, polynomial_xor, mul_add, X_mul_polynomial_high bit hw]

/-! ## Messages -/

/-- The polynomial of some bits, the first of them at the highest power. -/
noncomputable def bitsPolynomial : List Bool → (ZMod 2)[X]
  | [] => 0
  | bit :: bits => C (coefficient bit) * X ^ bits.length + bitsPolynomial bits

/-- The register, up to a multiple of the generator, after some bits have entered. -/
theorem polynomial_foldl_absorb (poly : BitVec w) (hw : 0 < w) (bits : List Bool)
    (reg : BitVec w) :
    ∃ q, polynomial (bits.foldl (absorb poly) reg) =
      polynomial reg * X ^ bits.length + bitsPolynomial bits * X ^ w + q * generator poly := by
  induction bits generalizing reg with
  | nil => exact ⟨0, by simp [bitsPolynomial]⟩
  | cons bit bits ih =>
    -- the multiple that the first bit takes off is shifted by the bits behind it
    obtain ⟨q, hq⟩ := ih (absorb poly reg bit)
    obtain ⟨q', hq'⟩ := polynomial_absorb poly reg bit hw
    refine ⟨q' * X ^ bits.length + q, ?_⟩
    rw [List.foldl_cons, hq, hq', bitsPolynomial, List.length_cons]
    ring

/-- The bits of a message, byte by byte and the most significant bit of each byte first, after every
byte has been reversed if it is to be. -/
def messageBits (reflected : Bool) (data : List UInt8) : List Bool :=
  data.flatMap fun byte => highFirst (if reflected then reverseByte byte else byte)

theorem length_messageBits (reflected : Bool) (data : List UInt8) :
    (messageBits reflected data).length = 8 * data.length := by
  induction data with
  | nil => rfl
  | cons byte data ih =>
    simp only [messageBits, List.flatMap_cons, List.length_append, List.length_cons] at ih ⊢
    rw [ih]
    simp [highFirst]
    omega

theorem foldl_feed_eq_absorb (p : Params w) (hw : 8 ≤ w) (reg : BitVec w) (data : List UInt8) :
    data.foldl p.feed reg = (messageBits p.reflectIn data).foldl (absorb p.poly) reg := by
  have horder : ∀ byte : UInt8,
      highFirst (if p.reflectIn then reverseByte byte else byte) = inOrder p.reflectIn byte := by
    intro byte
    cases p.reflectIn <;> simp [inOrder, highFirst_reverseByte]
  simp only [foldl_feed p hw, messageBits, List.foldl_flatMap, horder]

noncomputable def messagePolynomial (reflected : Bool) (data : List UInt8) : (ZMod 2)[X] :=
  bitsPolynomial (messageBits reflected data)

/-- After a message the register holds the remainder of all that has entered. -/
theorem polynomial_foldl_feed (p : Params w) (hw : 8 ≤ w) (reg : BitVec w) (data : List UInt8) :
    polynomial (data.foldl p.feed reg) =
      (polynomial reg * X ^ (8 * data.length) + messagePolynomial p.reflectIn data * X ^ w) %ₘ
        generator p.poly := by
  obtain ⟨q, hq⟩ := polynomial_foldl_absorb p.poly (by omega) (messageBits p.reflectIn data) reg
  rw [← foldl_feed_eq_absorb p hw, length_messageBits] at hq
  have hdegree : (polynomial (data.foldl p.feed reg)).degree < (generator p.poly).degree := by
    rw [degree_generator]
    exact degree_polynomial_lt _
  -- a polynomial of that degree which differs by a multiple of the generator is the remainder
  refine (div_modByMonic_unique (-q) _ (generator_monic p.poly) ⟨?_, hdegree⟩).2.symm
  rw [hq, messagePolynomial]
  ring

/-- The check of a message is polynomial division. What is divided is the initial register followed
by as many places as the message has bits, plus the message followed by `w` places; the divisor is
`X ^ w` plus the polynomial of the parameters. The remainder, reversed if the parameters say so,
plus their last constant is the check. -/
theorem checksum_remainder (p : Params w) (hw : 8 ≤ w) (data : List UInt8) :
    ∃! r : BitVec w,
      polynomial r =
          (polynomial p.init * X ^ (8 * data.length) +
            messagePolynomial p.reflectIn data * X ^ w) %ₘ (X ^ w + polynomial p.poly) ∧
        p.checksum data = (if p.reflectOut then r.reverse else r) ^^^ p.xorOut := by
  have hremainder := polynomial_foldl_feed p hw p.init data
  refine ⟨data.foldl p.feed p.init, ⟨hremainder, rfl⟩, ?_⟩
  rintro r ⟨hr, -⟩
  exact polynomial_injective (hr.trans hremainder.symm)

/-- A check of sixteen bits over the nine digits. -/
theorem checksum_remainder_digits :
    let p : Params 16 :=
      { poly := 0x1021, init := 0xFFFF, xorOut := 0, reflectIn := false, reflectOut := false }
    let digits : List UInt8 := [0x31, 0x32, 0x33, 0x34, 0x35, 0x36, 0x37, 0x38, 0x39]
    p.checksum digits = 0x29B1 ∧
      ∃! r : BitVec 16,
        polynomial r =
            (polynomial p.init * X ^ (8 * digits.length) +
              messagePolynomial p.reflectIn digits * X ^ 16) %ₘ (X ^ 16 + polynomial p.poly) ∧
          p.checksum digits = (if p.reflectOut then r.reverse else r) ^^^ p.xorOut := by
  intro p digits
  exact ⟨by decide +kernel, checksum_remainder p (by decide) digits⟩

end SignalCalc.Crc
