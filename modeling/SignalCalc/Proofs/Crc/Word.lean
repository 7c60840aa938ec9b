import SignalCalc.Proofs.Crc.Register

/-! # Registers in words

The parameterised check runs in the lower bits of a word of 32 bits. Each step leaves zeros above
the register, so that the word is the register widened, and the check is the one in a register of its
own width. The parameters count with their lower bits only.
-/

namespace SignalCalc.Crc

namespace WordParams

variable {p : WordParams}

/-- The same check in a register of its own width. -/
def narrowed (p : WordParams) : Params p.width where
  poly := p.poly.setWidth p.width
  init := p.init.setWidth p.width
  xorOut := p.xorOut.setWidth p.width
  reflectIn := p.reflectIn
  reflectOut := p.reflectOut

theorem mask_eq (hwidth : p.width ≤ 32) : p.mask = (BitVec.allOnes p.width).setWidth 32 := by
  unfold mask
  split
  · next hfull =>
    obtain hwidth : p.width = 32 := by omega
    rw [hwidth, BitVec.setWidth_eq]
  · next hpart =>
    have hpow : 2 ^ p.width < 2 ^ 32 := Nat.pow_lt_pow_right (by decide) (by omega)
    have htop : (BitVec.twoPow 32 p.width).toNat = 2 ^ p.width :=
      BitVec.toNat_twoPow_of_lt (by omega)
    have hpos : 1 ≤ BitVec.twoPow 32 p.width := by
      rw [BitVec.le_def, htop]
      exact Nat.two_pow_pos p.width
    apply BitVec.eq_of_toNat_eq
    rw [← BitVec.twoPow_eq, BitVec.toNat_sub_of_le hpos, htop, BitVec.toNat_setWidth,
      BitVec.toNat_allOnes, Nat.mod_eq_of_lt (by omega)]
    rfl

theorem and_mask (hwidth : p.width ≤ 32) (x : BitVec 32) :
    x &&& p.mask = (x.setWidth p.width).setWidth 32 := by
  rw [mask_eq hwidth]
  ext i hi
  simp only [BitVec.getElem_and, BitVec.getElem_setWidth, BitVec.getLsbD_allOnes,
    BitVec.getLsbD_setWidth, BitVec.getLsbD_eq_getElem hi]
  exact Bool.and_comm _ _

theorem setWidth_back {w : Nat} (hw : w ≤ 32) (reg : BitVec w) :
    (reg.setWidth 32).setWidth w = reg := by
  rw [BitVec.setWidth_setWidth_of_le _ hw, BitVec.setWidth_eq]

theorem and_topBit (hpos : 0 < p.width) (hwidth : p.width ≤ 32) (reg : BitVec p.width) :
    (reg.setWidth 32 &&& p.topBit != 0) = reg.msb := by
  have htop : BitVec.twoPow 32 (p.width - 1) ≠ 0 := by
    intro hzero
    have hbit := BitVec.getLsbD_twoPow (w := 32) (p.width - 1) (p.width - 1)
    rw [hzero] at hbit
    simp [show p.width - 1 < 32 by omega] at hbit
  have hmsb : (reg.setWidth 32).getLsbD (p.width - 1) = reg.msb := by
    rw [BitVec.msb_eq_getLsbD_last, BitVec.getLsbD_setWidth]
    simp [show p.width - 1 < 32 by omega]
  rw [topBit, ← BitVec.twoPow_eq, BitVec.and_twoPow, hmsb]
  cases reg.msb
  · rfl
  · simpa using htop

theorem advance_setWidth (hpos : 0 < p.width) (hwidth : p.width ≤ 32) (reg : BitVec p.width) :
    p.advance (reg.setWidth 32) = (Crc.advance p.narrowed.poly reg).setWidth 32 := by
  unfold advance Crc.advance
  rw [and_topBit hpos hwidth]
  cases reg.msb
  · simp only [Bool.false_eq_true, if_false]
    rw [and_mask hwidth, BitVec.setWidth_shiftLeft_of_le hwidth,
      setWidth_back hwidth]
  · simp only [if_true]
    rw [and_mask hwidth, BitVec.setWidth_xor, BitVec.setWidth_shiftLeft_of_le hwidth,
      setWidth_back hwidth]
    rfl

theorem iterate_advance_setWidth (hpos : 0 < p.width) (hwidth : p.width ≤ 32) (n : Nat)
    (reg : BitVec p.width) :
    iterate p.advance n (reg.setWidth 32) =
      (iterate (Crc.advance p.narrowed.poly) n reg).setWidth 32 := by
  induction n generalizing reg with
  | zero => rfl
  | succ n ih => simp only [iterate, advance_setWidth hpos hwidth, ih]

/-- A byte at the top of the register stays in it. -/
theorem byte_setWidth {w : Nat} (hlow : 8 ≤ w) (byte : BitVec 8) :
    byte.setWidth 32 <<< (w - 8) = (byte.setWidth w <<< (w - 8)).setWidth 32 := by
  apply BitVec.eq_of_getLsbD_eq
  intro i hi
  simp only [BitVec.getLsbD_shiftLeft, BitVec.getLsbD_setWidth, hi, decide_true, Bool.true_and]
  by_cases hinside : i < w
  · have hbit : i - (w - 8) < w ∧ i - (w - 8) < 32 := by omega
    simp [hinside, hbit]
  · -- above the register both are past the end of the byte
    have hend : byte.getLsbD (i - (w - 8)) = false := BitVec.getLsbD_of_ge _ _ (by omega)
    simp [hinside, hend]

theorem feed_setWidth (hlow : 8 ≤ p.width) (hhigh : p.width ≤ 32) (reg : BitVec p.width)
    (byte : UInt8) :
    p.feed (reg.setWidth 32) byte = (p.narrowed.feed reg byte).setWidth 32 := by
  unfold feed Params.feed
  dsimp only
  rw [byte_setWidth hlow, ← BitVec.setWidth_xor, iterate_advance_setWidth (by omega) hhigh]
  rfl

theorem reverse_setWidth {w : Nat} (hw : w ≤ 32) (reg : BitVec w) :
    (reg.setWidth 32).reverse >>> (32 - w) = reg.reverse.setWidth 32 := by
  apply BitVec.eq_of_getLsbD_eq
  intro i hi
  have hplace : 32 - w + i + w - 32 = i := by omega
  rw [BitVec.getLsbD_ushiftRight, BitVec.getLsbD_reverse, BitVec.getLsbD_setWidth,
    BitVec.getLsbD_reverse, BitVec.getMsbD_setWidth, hplace]
  simp [hi]

/-- The check in a word is the check in a register of its own width, and zeros above it. -/
theorem checksum_eq (hlow : 8 ≤ p.width) (hhigh : p.width ≤ 32) (data : List UInt8) :
    p.checksum data = (p.narrowed.checksum data).setWidth 32 := by
  have hfed : data.foldl p.feed (p.init &&& p.mask) =
      (data.foldl p.narrowed.feed p.narrowed.init).setWidth 32 := by
    rw [and_mask hhigh]
    exact List.foldl_hom _ fun reg byte => feed_setWidth hlow hhigh reg byte
  unfold checksum Params.checksum
  dsimp only
  rw [hfed, and_mask hhigh, BitVec.setWidth_xor]
  congr 2
  cases hreflect : p.reflectOut with
  | false =>
    simp only [narrowed, hreflect, Bool.false_eq_true, if_false]
    exact setWidth_back hhigh _
  | true =>
    simp only [narrowed, hreflect, if_true]
    rw [reverse_setWidth hhigh]
    exact setWidth_back hhigh _

end WordParams

namespace Params

variable {w : Nat}

def inWord (p : Params w) : WordParams where
  width := w
  poly := p.poly.setWidth 32
  init := p.init.setWidth 32
  xorOut := p.xorOut.setWidth 32
  reflectIn := p.reflectIn
  reflectOut := p.reflectOut

theorem narrowed_inWord (hw : w ≤ 32) (p : Params w) : p.inWord.narrowed = p := by
  obtain ⟨poly, init, xorOut, reflectIn, reflectOut⟩ := p
  simp [inWord, WordParams.narrowed, BitVec.setWidth_setWidth_of_le _ hw]

theorem checksum_inWord (hlow : 8 ≤ w) (hhigh : w ≤ 32) (p : Params w) (data : List UInt8) :
    p.inWord.checksum data = (p.checksum data).setWidth 32 := by
  have hword := WordParams.checksum_eq (p := p.inWord) hlow hhigh data
  rw [narrowed_inWord hhigh] at hword
  exact hword

example :
    let p : Params 32 := { poly := 0x04C11DB7, init := 0xFFFFFFFF, xorOut := 0xFFFFFFFF,
                           reflectIn := true, reflectOut := true }
    p.inWord.checksum [0x31, 0x32, 0x33, 0x34, 0x35, 0x36, 0x37, 0x38, 0x39] = 0xCBF43926 := by
  decide +kernel

end Params

end SignalCalc.Crc
