import SignalCalc.Proofs.Crc.Agreement

/-! # Detection of corrupted bytes

With an odd polynomial a step of the register loses nothing: what leaves at the top comes back at
the bottom. So two registers that differ once differ for ever after, and a single byte that differs
makes two registers differ. Neither the reversal nor the constant at the end brings them together
again.
-/

namespace SignalCalc.Crc

variable {w : Nat}

/-! ## Steps -/

/-- With an odd polynomial only the zero register is led to zero. -/
theorem eq_zero_of_advance {poly reg : BitVec w} (hodd : poly.toNat % 2 = 1)
    (h : advance poly reg = 0#w) : reg = 0#w := by
  have hlow : poly.getLsbD 0 = true := by simp [BitVec.getLsbD, hodd]
  cases hmsb : reg.msb with
  | true =>
    -- the shift leaves the lowest place free, and the polynomial fills it
    have hbit := congrArg (·.getLsbD 0) h
    simp [advance, hmsb, hlow] at hbit
  | false =>
    rw [advance_of_msb poly hmsb] at h
    apply BitVec.eq_of_getMsbD_eq
    intro i _
    cases i with
    | zero => simpa [BitVec.msb_eq_getMsbD_zero] using hmsb
    | succ i =>
      have hbit := congrArg (·.getMsbD i) h
      simpa [BitVec.getMsbD_shiftLeft] using hbit

theorem advance_injective {poly : BitVec w} (hodd : poly.toNat % 2 = 1) :
    Function.Injective (advance poly) := by
  intro a b hab
  have hzero : advance poly (a ^^^ b) = 0#w := by rw [advance_xor, hab, BitVec.xor_self]
  exact BitVec.xor_eq_zero_iff.mp (eq_zero_of_advance hodd hzero)

theorem iterate_injective {α : Type} {f : α → α} (hf : Function.Injective f) (n : Nat) :
    Function.Injective (iterate f n) := by
  induction n with
  | zero => exact fun _ _ h => h
  | succ n ih => exact fun _ _ h => hf (ih h)

/-! ## Bytes -/

theorem reverseByte_injective : Function.Injective reverseByte := by
  intro a b h
  have hbits : a.toBitVec.reverse = b.toBitVec.reverse := congrArg UInt8.toBitVec h
  rw [← UInt8.toBitVec_inj, ← BitVec.reverse_reverse_eq (x := a.toBitVec), hbits,
    BitVec.reverse_reverse_eq]

/-- A byte at the top of the register can be read there. -/
theorem top_injective (hw : 8 ≤ w) :
    Function.Injective fun b : UInt8 => b.toBitVec.setWidth w <<< (w - 8) := by
  have hread : ∀ (b : UInt8) (i : Nat), i < 8 →
      (b.toBitVec.setWidth w <<< (w - 8)).getMsbD i = b.toBitVec.getMsbD i := by
    intro b i hi
    rw [(tops_highFirst b hw).getMsbD]
    simp [highFirst, hi]
  intro a b h
  apply UInt8.toBitVec_inj.mp
  apply BitVec.eq_of_getMsbD_eq
  intro i hi
  rw [← hread a i hi, ← hread b i hi]
  exact congrArg (·.getMsbD i) h

namespace Params

variable {p : Params w}

/-- A byte leaves no doubt about the register that it entered. -/
theorem feed_register_injective (hodd : p.poly.toNat % 2 = 1) (byte : UInt8) :
    Function.Injective fun reg => p.feed reg byte := by
  intro a b h
  exact (BitVec.xor_left_inj _).mp (iterate_injective (advance_injective hodd) 8 h)

theorem feed_byte_injective (hw : 8 ≤ w) (hodd : p.poly.toNat % 2 = 1) (reg : BitVec w) :
    Function.Injective (p.feed reg) := by
  intro a b h
  -- the steps and the register are the same, so the bytes at the top of it are
  have htop := (BitVec.xor_right_inj _).mp (iterate_injective (advance_injective hodd) 8 h)
  have hbytes := top_injective hw htop
  cases hreflect : p.reflectIn with
  | false => simpa [hreflect] using hbytes
  | true =>
    simp only [hreflect, if_true] at hbytes
    exact reverseByte_injective hbytes

theorem foldl_feed_injective (hodd : p.poly.toNat % 2 = 1) (data : List UInt8) :
    Function.Injective (data.foldl p.feed) := by
  induction data with
  | nil => exact fun _ _ h => h
  | cons byte data ih => exact fun _ _ h => feed_register_injective hodd byte (ih h)

/-- The end of a check, reversal and constant, keeps different registers apart. -/
theorem checksum_eq_iff {a b : List UInt8} :
    p.checksum a = p.checksum b ↔ a.foldl p.feed p.init = b.foldl p.feed p.init := by
  have hreverse : ∀ x y : BitVec w, x.reverse = y.reverse ↔ x = y := by
    refine fun x y => ⟨fun h => ?_, fun h => h ▸ rfl⟩
    rw [← BitVec.reverse_reverse_eq (x := x), h, BitVec.reverse_reverse_eq]
  simp only [checksum, BitVec.xor_left_inj]
  cases p.reflectOut with
  | false => simp
  | true => simp [hreverse]

theorem checksum_ne (hw : 8 ≤ w) (hodd : p.poly.toNat % 2 = 1) {x y : UInt8} (hxy : x ≠ y)
    (before after : List UInt8) :
    p.checksum (before ++ x :: after) ≠ p.checksum (before ++ y :: after) := by
  intro h
  rw [checksum_eq_iff, List.foldl_append, List.foldl_append] at h
  exact hxy (feed_byte_injective hw hodd _ (foldl_feed_injective hodd after h))

end Params

/-! ## Messages -/

/-- Two messages of the same length that differ in the byte at a position and in no other. -/
structure DifferAt (k : Nat) (a b : List UInt8) : Prop where
  length : a.length = b.length
  differ : a[k]? ≠ b[k]?
  agree : ∀ i, i ≠ k → a[i]? = b[i]?

/-- Such messages are the same before and after the position. -/
theorem DifferAt.split {k : Nat} {a b : List UInt8} (h : DifferAt k a b) :
    ∃ before x y after, before.length = k ∧ x ≠ y ∧ a = before ++ x :: after ∧
      b = before ++ y :: after := by
  have hk : k < a.length := by
    apply Nat.lt_of_not_le
    intro hle
    exact h.differ (by rw [List.getElem?_eq_none hle, List.getElem?_eq_none (h.length ▸ hle)])
  have hk' : k < b.length := h.length ▸ hk
  have hbefore : b.take k = a.take k := by
    apply List.ext_getElem?
    intro i
    rw [List.getElem?_take, List.getElem?_take]
    split
    · next hi => exact (h.agree i (Nat.ne_of_lt hi)).symm
    · rfl
  have hafter : b.drop (k + 1) = a.drop (k + 1) := by
    apply List.ext_getElem?
    intro i
    rw [List.getElem?_drop, List.getElem?_drop]
    exact (h.agree (k + 1 + i) (by omega)).symm
  refine ⟨a.take k, a[k], b[k], a.drop (k + 1), by simp; omega, ?_, ?_, ?_⟩
  · intro heq
    exact h.differ (by rw [List.getElem?_eq_getElem hk, List.getElem?_eq_getElem hk', heq])
  · rw [List.getElem_cons_drop, List.take_append_drop]
  · rw [← hbefore, ← hafter, List.getElem_cons_drop, List.take_append_drop]

/-- Removing another position leaves the one at which the messages differ. -/
theorem eraseIdx_append_cons {α : Type} {before : List α} {skip : Nat} (h : before.length ≠ skip) :
    ∃ before' : List α, ∃ erase : List α → List α, ∀ (x : α) (after : List α),
      (before ++ x :: after).eraseIdx skip = before' ++ x :: erase after := by
  rcases Nat.lt_or_gt_of_ne h with hlt | hgt
  · -- the position that is removed lies behind the other one
    obtain ⟨n, hn⟩ : ∃ n, skip - before.length = n + 1 := ⟨skip - before.length - 1, by omega⟩
    refine ⟨before, (·.eraseIdx n), fun x after => ?_⟩
    rw [List.eraseIdx_append_of_length_le (Nat.le_of_lt hlt), hn, List.eraseIdx_cons_succ]
  · refine ⟨before.eraseIdx skip, fun after => after, fun x after => ?_⟩
    rw [List.eraseIdx_append_of_lt_length hgt]

/-- Every checksum with an odd polynomial detects that one byte of a message was changed, whatever
its other parameters are and however long the message is; the checksum of a frame does so unless the
byte is the one that it passes over. -/
theorem corrupted_byte_detected {k : Nat} {data other : List UInt8} (h : DifferAt k data other) :
    (∀ (w : Nat) (p : Params w), 8 ≤ w → p.poly.toNat % 2 = 1 →
      p.checksum data ≠ p.checksum other) ∧
    (∀ seed poly : BitVec 8, poly.toNat % 2 = 1 →
      complemented8 seed poly data ≠ complemented8 seed poly other) ∧
    ∀ (poly : BitVec 8) (skip : Nat) (reverseIn reverseOut : Bool), poly.toNat % 2 = 1 → k ≠ skip →
      frame8 data poly skip reverseIn reverseOut ≠ frame8 other poly skip reverseIn reverseOut := by
  obtain ⟨before, x, y, after, rfl, hxy, rfl, rfl⟩ := h.split
  refine ⟨fun w p hw hodd => p.checksum_ne hw hodd hxy before after, ?_, ?_⟩
  · intro seed poly hodd
    rw [complemented8_eq_checksum, complemented8_eq_checksum]
    exact Params.checksum_ne (by decide) hodd hxy before after
  · intro poly skip reverseIn reverseOut hodd hskip
    obtain ⟨before', erase, herase⟩ := eraseIdx_append_cons hskip
    rw [frame8_eq_checksum, frame8_eq_checksum, herase, herase]
    exact Params.checksum_ne (by decide) hodd hxy before' (erase after)

/-- One bit of a frame's payload that is changed ahead of the check byte. -/
theorem corrupted_byte_detected_bit :
    let data : List UInt8 := [0x12, 0x34, 0x56, 0x00]
    let other : List UInt8 := [0x12, 0x35, 0x56, 0x00]
    let crc32 : Params 32 :=
      { poly := 0x04C11DB7, init := 0xFFFFFFFF, xorOut := 0xFFFFFFFF, reflectIn := true,
        reflectOut := true }
    DifferAt 1 data other ∧ crc32.checksum data ≠ crc32.checksum other ∧
      complemented8 0xFF 0x1D data ≠ complemented8 0xFF 0x1D other ∧
      frame8 data 0x1D 3 true false ≠ frame8 other 0x1D 3 true false := by
  intro data other crc32
  have h : DifferAt 1 data other := by
    refine ⟨rfl, by decide, fun i hi => ?_⟩
    match i with
    | 0 => rfl
    | 1 => exact absurd rfl hi
    | 2 | 3 => rfl
    | i + 4 => rfl
  obtain ⟨hchecksum, hcomplemented, hframe⟩ := corrupted_byte_detected h
  exact ⟨h, hchecksum 32 crc32 (by decide) (by decide), hcomplemented 0xFF 0x1D (by decide),
    hframe 0x1D 3 true false (by decide) (by decide)⟩

end SignalCalc.Crc
