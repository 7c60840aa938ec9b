import SignalCalc.Proofs.Crc.Register

/-! # Checksums agree

The three special checksums are instances of the parameterised one. The complemented check differs
in its last step only. The check of a frame takes the bits of a byte one by one where the
parameterised check takes the byte as a whole. The augmented check shifts the message in from below
and starts its division a whole turn of the register later, so that its seed counts as one that has
made that turn already.
-/

namespace SignalCalc.Crc

/-- The register after a message, bit by bit. -/
theorem foldl_feed {w : Nat} (p : Params w) (hw : 8 ≤ w) (reg : BitVec w) (data : List UInt8) :
    data.foldl p.feed reg =
      data.foldl (fun reg byte => (inOrder p.reflectIn byte).foldl (absorb p.poly) reg) reg := by
  congr 1
  funext reg byte
  exact feed_eq_absorb p hw reg byte

/-! ## Eight bits -/

theorem complemented8_eq_checksum (seed poly : BitVec 8) (data : List UInt8) :
    complemented8 seed poly data =
      Params.checksum { poly, init := seed, xorOut := 0xFF, reflectIn := false, reflectOut := false }
        data := by
  have hfeed : Params.feed
      { poly, init := seed, xorOut := 0xFF, reflectIn := false, reflectOut := false } =
        fun reg byte => iterate (advance poly) 8 (reg ^^^ byte.toBitVec) := by
    funext reg byte
    simp [Params.feed]
  have hcomplement : ∀ x : BitVec 8, x ^^^ 0xFF = ~~~x := fun _ => BitVec.xor_allOnes
  simp only [complemented8, Params.checksum, hfeed, hcomplement, Bool.false_eq_true, if_false]

theorem compareIn_eq_absorb (poly : BitVec 8) : compareIn poly = absorb poly := by
  funext reg bit
  have hmsb : (reg ^^^ high 8 bit).msb = (bit != reg.msb) := by
    simp [BitVec.msb_eq_getMsbD_zero, getMsbD_high, Bool.xor_comm]
  have hshift : (reg ^^^ high 8 bit) <<< 1 = reg <<< 1 := by
    apply BitVec.eq_of_getMsbD_eq
    intro i _
    simp [getMsbD_high]
  simp only [compareIn, absorb, advance, hmsb, hshift]

/-- A position that the count has left behind is not met again. -/
theorem foldl_zipIdx_behind {α β : Type} (f : β → α → β) (init : β) (l : List α)
    {start skip : Nat} (h : skip < start) :
    (l.zipIdx start).foldl (fun acc entry => if entry.2 = skip then acc else f acc entry.1) init =
      l.foldl f init := by
  induction l generalizing init start with
  | nil => rfl
  | cons a l ih => simp [List.zipIdx_cons, Nat.ne_of_gt h, ih _ (Nat.lt_succ_of_lt h)]

theorem foldl_zipIdx_skip {α β : Type} (f : β → α → β) (init : β) (l : List α) (start skip : Nat) :
    (l.zipIdx start).foldl (fun acc entry => if entry.2 = start + skip then acc else f acc entry.1)
      init = (l.eraseIdx skip).foldl f init := by
  induction l generalizing init start skip with
  | nil => rfl
  | cons a l ih =>
    cases skip with
    | zero => simp [List.zipIdx_cons, foldl_zipIdx_behind f init l (Nat.lt_succ_self start)]
    | succ skip =>
      have hnext := ih (f init a) (start + 1) skip
      rw [Nat.add_right_comm, Nat.add_assoc] at hnext
      simp [List.zipIdx_cons, hnext]

theorem frame8_eq_checksum (data : List UInt8) (poly : BitVec 8) (skip : Nat)
    (reverseIn reverseOut : Bool) :
    frame8 data poly skip reverseIn reverseOut =
      Params.checksum
        { poly, init := 0, xorOut := 0, reflectIn := reverseIn, reflectOut := reverseOut }
        (data.eraseIdx skip) := by
  have hskip := foldl_zipIdx_skip
    (fun reg byte => (inOrder reverseIn byte).foldl (absorb poly) reg) 0 data 0 skip
  rw [Nat.zero_add] at hskip
  simp only [frame8, compareIn_eq_absorb, Params.checksum, foldl_feed _ (Nat.le_refl 8), ← hskip]
  simp [inOrder]

/-! ## Sixteen bits -/

theorem shiftIn_eq_advance (poly reg : BitVec 16) (bit : Bool) :
    shiftIn poly reg bit = advance poly reg ^^^ low 16 bit := by
  have hor : reg <<< 1 ||| low 16 bit = reg <<< 1 ^^^ low 16 bit := by
    -- the shift has cleared the place of the message bit
    apply BitVec.eq_of_getMsbD_eq
    intro i _
    by_cases hi : i + 1 = 16
    · simp [getMsbD_low, hi]
    · simp [getMsbD_low, hi]
  have hshifted : reg <<< 1 ||| (BitVec.ofBool bit).setWidth 16 = reg <<< 1 ^^^ low 16 bit := hor
  simp only [shiftIn, advance, hshifted]
  cases reg.msb
  · rfl
  · simp only [if_true]
    ac_rfl

/-- A whole turn of the register takes a bit that was shifted in from below to where a bit held
against the top is. -/
theorem turn_shiftIn (poly reg : BitVec 16) (bit : Bool) :
    iterate (advance poly) 16 (shiftIn poly reg bit) =
      absorb poly (iterate (advance poly) 16 reg) bit := by
  rw [shiftIn_eq_advance, iterate_advance_xor, iterate_advance_turn poly bit (by decide), absorb,
    advance_xor, ← iterate_succ' (advance poly)]
  rfl

theorem augmented16_eq_checksum (seed poly : BitVec 16) (data : List UInt8) :
    augmented16 seed poly data =
      Params.checksum
        { poly, init := iterate (fun reg => shiftIn poly reg false) 16 seed, xorOut := 0,
          reflectIn := true, reflectOut := true }
        data := by
  have hzero : (fun reg => shiftIn poly reg false) = advance poly := by
    funext reg
    simp [shiftIn_eq_advance, low]
  -- the turn after the message is made before it, byte by byte
  have hturn : ∀ reg : BitVec 16,
      data.foldl (fun reg byte => (lowFirst byte).foldl (absorb poly) reg)
          (iterate (advance poly) 16 reg) =
        iterate (advance poly) 16
          (data.foldl (fun reg byte => (lowFirst byte).foldl (shiftIn poly) reg) reg) := by
    intro reg
    refine List.foldl_hom _ fun reg byte => ?_
    exact List.foldl_hom _ fun reg bit => (turn_shiftIn poly reg bit).symm
  simp only [augmented16, Params.checksum, foldl_feed _ (show 8 ≤ 16 by decide), hzero, inOrder,
    if_true, hturn]
  exact BitVec.xor_zero.symm

/-! ## All three -/

/-- For every message the special checksums are those of the parameterised check: the complemented
one with all ones added at the end, the one of a frame over the message without the byte at `skip`,
if there is one, and the augmented one with a seed that has made sixteen steps without a message. -/
theorem checksums_agree (data : List UInt8) :
    (∀ seed poly : BitVec 8, complemented8 seed poly data =
      Params.checksum { poly, init := seed, xorOut := 0xFF, reflectIn := false, reflectOut := false }
        data) ∧
    (∀ (poly : BitVec 8) (skip : Nat) (reverseIn reverseOut : Bool),
      frame8 data poly skip reverseIn reverseOut =
        Params.checksum
          { poly, init := 0, xorOut := 0, reflectIn := reverseIn, reflectOut := reverseOut }
          (data.eraseIdx skip)) ∧
    ∀ seed poly : BitVec 16, augmented16 seed poly data =
      Params.checksum
        { poly, init := iterate (fun reg => shiftIn poly reg false) 16 seed, xorOut := 0,
          reflectIn := true, reflectOut := true }
        data :=
  ⟨fun seed poly => complemented8_eq_checksum seed poly data,
    fun poly skip reverseIn reverseOut => frame8_eq_checksum data poly skip reverseIn reverseOut,
    fun seed poly => augmented16_eq_checksum seed poly data⟩

end SignalCalc.Crc
