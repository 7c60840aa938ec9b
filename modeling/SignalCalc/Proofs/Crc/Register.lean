import SignalCalc.Crc

/-! # The shift register of a checksum

A step of the register is linear over the field of two elements, and until a bit reaches the top it
is a plain shift. From these two facts follows how a message can enter: a byte added to the top and
then eight steps, or bit by bit against the top, is the same.
-/

namespace SignalCalc.Crc

variable {w : Nat}

/-! ## Steps -/

theorem iterate_succ' {α : Type} (f : α → α) (n : Nat) (a : α) :
    iterate f (n + 1) a = f (iterate f n a) := by
  induction n generalizing a with
  | zero => rfl
  | succ n ih => exact ih (f a)

theorem xor_cancel_right (a b c : BitVec w) : a ^^^ c ^^^ (b ^^^ c) = a ^^^ b := by
  rw [BitVec.xor_assoc, BitVec.xor_comm b c, ← BitVec.xor_assoc c, BitVec.xor_self,
    BitVec.zero_xor]

theorem advance_xor (poly a b : BitVec w) :
    advance poly (a ^^^ b) = advance poly a ^^^ advance poly b := by
  simp only [advance, BitVec.msb_xor, BitVec.shiftLeft_xor_distrib]
  cases ha : a.msb <;> cases hb : b.msb
  · simp
  · simp [BitVec.xor_assoc]
  · have hcomm : a <<< 1 ^^^ b <<< 1 ^^^ poly = a <<< 1 ^^^ poly ^^^ b <<< 1 := by ac_rfl
    simp [hcomm]
  · -- both registers are reduced, so that the polynomial cancels
    simp [xor_cancel_right]

theorem iterate_advance_xor (poly a b : BitVec w) (n : Nat) :
    iterate (advance poly) n (a ^^^ b) =
      iterate (advance poly) n a ^^^ iterate (advance poly) n b := by
  induction n generalizing a b with
  | zero => rfl
  | succ n ih => simp only [iterate, advance_xor, ih]

theorem advance_of_msb {reg : BitVec w} (poly : BitVec w) (h : reg.msb = false) :
    advance poly reg = reg <<< 1 := by
  simp [advance, h]

/-! ## Message bits -/

def low (w : Nat) (bit : Bool) : BitVec w := (BitVec.ofBool bit).setWidth w

def high (w : Nat) (bit : Bool) : BitVec w := low w bit <<< (w - 1)

/-- Takes one message bit into the register, against its top. -/
def absorb (poly reg : BitVec w) (bit : Bool) : BitVec w := advance poly (reg ^^^ high w bit)

theorem getMsbD_low (bit : Bool) (i : Nat) :
    (low w bit).getMsbD i = (decide (i + 1 = w) && bit) := by
  simp only [low, BitVec.getMsbD_setWidth]
  rcases Nat.lt_trichotomy (i + 1) w with h | rfl | h
  · simp [Nat.ne_of_lt h, show ¬ w - 1 ≤ i by omega]
  · cases bit <;> simp
  · simp [Nat.ne_of_gt h, BitVec.getMsbD_of_ge (BitVec.ofBool bit) (i + 1 - w) (by omega)]

theorem getMsbD_high (bit : Bool) (i : Nat) :
    (high w bit).getMsbD i = (decide (i = 0 ∧ 0 < w) && bit) := by
  simp only [high, BitVec.getMsbD_shiftLeft, getMsbD_low]
  congr 2
  rw [eq_iff_iff]
  omega

/-- While the message bit is on its way up, nothing is reduced. -/
theorem iterate_advance_low (poly : BitVec w) (bit : Bool) {n : Nat} (hn : n < w) :
    iterate (advance poly) n (low w bit) = low w bit <<< n := by
  induction n with
  | zero => simp [iterate]
  | succ n ih =>
    have hmsb : (low w bit <<< n).msb = false := by
      simp [BitVec.msb_eq_getMsbD_zero, getMsbD_low]
      omega
    rw [iterate_succ', ih (by omega), advance_of_msb poly hmsb, ← BitVec.shiftLeft_add]

/-- A whole turn of the register takes a message bit from the bottom through the top. -/
theorem iterate_advance_turn (poly : BitVec w) (bit : Bool) (hw : 0 < w) :
    iterate (advance poly) w (low w bit) = advance poly (high w bit) := by
  obtain ⟨n, rfl⟩ : ∃ n, w = n + 1 := ⟨w - 1, by omega⟩
  rw [iterate_succ', iterate_advance_low poly bit (Nat.lt_succ_self n)]
  rfl

/-- The register has the bits at its top, the first one topmost, and zeros below them. -/
structure Tops (bits : List Bool) (x : BitVec w) : Prop where
  fits : bits.length ≤ w
  getMsbD : ∀ i, x.getMsbD i = bits.getD i false

theorem Tops.eq_zero {x : BitVec w} (h : Tops [] x) : x = 0#w := by
  apply BitVec.eq_of_getMsbD_eq
  intro i _
  simp [h.getMsbD]

/-- A step takes the topmost bit out. -/
theorem Tops.tail {bit : Bool} {bits : List Bool} {x : BitVec w} (h : Tops (bit :: bits) x) :
    Tops bits (x <<< 1) where
  fits := Nat.le_of_succ_le h.fits
  getMsbD i := by simp [BitVec.getMsbD_shiftLeft, h.getMsbD]

theorem Tops.advance {bit : Bool} {bits : List Bool} {x : BitVec w} (h : Tops (bit :: bits) x)
    (poly : BitVec w) : advance poly (x ^^^ high w bit) = x <<< 1 := by
  have hw : 0 < w := Nat.lt_of_lt_of_le (Nat.succ_pos _) h.fits
  have hmsb : (x ^^^ high w bit).msb = false := by
    simp [BitVec.msb_eq_getMsbD_zero, getMsbD_high, h.getMsbD, hw]
  rw [advance_of_msb poly hmsb]
  apply BitVec.eq_of_getMsbD_eq
  intro i _
  simp [BitVec.getMsbD_shiftLeft, getMsbD_high]

/-- Bits that enter one by one have the effect of all of them added to the top at once, followed by
as many steps. -/
theorem foldl_absorb (poly : BitVec w) {bits : List Bool} {x : BitVec w} (h : Tops bits x)
    (reg : BitVec w) :
    bits.foldl (absorb poly) reg = iterate (Crc.advance poly) bits.length (reg ^^^ x) := by
  induction bits generalizing reg x with
  | nil => simp [iterate, h.eq_zero]
  | cons bit bits ih =>
    -- the bits below the topmost one wait in `x`, and the step moves them up
    have hstep : absorb poly reg bit ^^^ (x <<< 1) = Crc.advance poly (reg ^^^ x) := by
      rw [← h.advance poly, absorb, ← advance_xor, xor_cancel_right]
    rw [List.foldl_cons, ih h.tail, hstep]
    rfl

/-! ## Bytes -/

theorem tops_highFirst (b : UInt8) (hw : 8 ≤ w) :
    Tops (highFirst b) (b.toBitVec.setWidth w <<< (w - 8)) where
  fits := by simpa [highFirst] using hw
  getMsbD i := by
    have hindex : i + (w - 8) + 8 - w = i := by omega
    simp only [highFirst, BitVec.getMsbD_shiftLeft, BitVec.getMsbD_setWidth, hindex,
      List.getD_eq_getElem?_getD, List.getElem?_map]
    by_cases hi : i < 8
    · simp [hi]
    · simp [hi, BitVec.getMsbD_of_ge b.toBitVec i (by omega)]

theorem highFirst_reverseByte (b : UInt8) : highFirst (reverseByte b) = lowFirst b := by
  simp [highFirst, lowFirst, reverseByte, BitVec.getMsbD_reverse]

/-- The bits of a byte in the order in which they enter. -/
def inOrder (reflected : Bool) (b : UInt8) : List Bool :=
  if reflected then lowFirst b else highFirst b

theorem feed_eq_absorb (p : Params w) (hw : 8 ≤ w) (reg : BitVec w) (byte : UInt8) :
    p.feed reg byte = (inOrder p.reflectIn byte).foldl (absorb p.poly) reg := by
  have hfeed : ∀ b : UInt8, (highFirst b).foldl (absorb p.poly) reg =
      iterate (advance p.poly) 8 (reg ^^^ (b.toBitVec.setWidth w <<< (w - 8))) := by
    intro b
    rw [foldl_absorb p.poly (tops_highFirst b hw)]
    simp [highFirst]
  cases hreflect : p.reflectIn with
  | false => simp [Params.feed, inOrder, hreflect, hfeed]
  | true => simp [Params.feed, inOrder, hreflect, ← highFirst_reverseByte, hfeed]

end SignalCalc.Crc
