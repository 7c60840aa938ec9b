import Mathlib.Data.Nat.Bitwise
import SignalCalc.BitField

/-! # The algebra of bit fields

Every operation on a field is known by the bits of its result. A bit inside the field comes from the
field's own bits and from those it is combined with, and a bit outside it is left alone.

The shift of a word reads its amount modulo the word's length, so that an amount of 64 would pass
unseen. The checked operations fail there instead, and are shown not to.
-/

namespace SignalCalc

/-! ## Bits of words -/

namespace Word

theorem testBit_eq_false (word : UInt64) {i : Nat} (h : 64 ≤ i) : word.toNat.testBit i = false :=
  Nat.testBit_lt_two_pow (word.toNat_lt.trans_le (Nat.pow_le_pow_right (by decide) h))

theorem testBit_and (a b : UInt64) (i : Nat) :
    (a &&& b).toNat.testBit i = (a.toNat.testBit i && b.toNat.testBit i) := by
  rw [UInt64.toNat_and, Nat.testBit_and]

theorem testBit_or (a b : UInt64) (i : Nat) :
    (a ||| b).toNat.testBit i = (a.toNat.testBit i || b.toNat.testBit i) := by
  rw [UInt64.toNat_or, Nat.testBit_or]

theorem testBit_xor (a b : UInt64) (i : Nat) :
    (a ^^^ b).toNat.testBit i = (a.toNat.testBit i ^^ b.toNat.testBit i) := by
  rw [UInt64.toNat_xor, Nat.testBit_xor]

theorem testBit_not (a : UInt64) (i : Nat) :
    (~~~a).toNat.testBit i = (decide (i < 64) && !a.toNat.testBit i) := by
  have hsub : UInt64.size - 1 - a.toNat = 2 ^ 64 - (a.toNat + 1) := by
    simp only [UInt64.size]
    omega
  rw [UInt64.toNat_not, hsub, Nat.testBit_two_pow_sub_succ a.toNat_lt]

theorem testBit_ones (i : Nat) :
    (0xFFFFFFFFFFFFFFFF : UInt64).toNat.testBit i = decide (i < 64) :=
  Nat.testBit_two_pow_sub_one 64 i

theorem toNat_amount {n : Nat} (hn : n < 64) : (UInt64.ofNat n).toNat % 64 = n := by
  rw [UInt64.toNat_ofNat']
  omega

theorem testBit_shiftLeft (a : UInt64) {n : Nat} (hn : n < 64) (i : Nat) :
    (a <<< UInt64.ofNat n).toNat.testBit i =
      (decide (i < 64) && (decide (n ≤ i) && a.toNat.testBit (i - n))) := by
  rw [UInt64.toNat_shiftLeft, toNat_amount hn, Nat.testBit_mod_two_pow, Nat.testBit_shiftLeft]

theorem testBit_shiftRight (a : UInt64) {n : Nat} (hn : n < 64) (i : Nat) :
    (a >>> UInt64.ofNat n).toNat.testBit i = a.toNat.testBit (i + n) := by
  rw [UInt64.toNat_shiftRight, toNat_amount hn, Nat.testBit_shiftRight, Nat.add_comm]

theorem eq_of_testBit {a b : UInt64} (h : ∀ i, a.toNat.testBit i = b.toNat.testBit i) : a = b :=
  UInt64.toNat_inj.mp (Nat.eq_of_testBit_eq h)

end Word

namespace BitField

open Word

variable (f : BitField) (word bits : UInt64) (i : Nat)

/-! ## The bits of every operation -/

theorem testBit_lowMask (n : Nat) :
    (lowMask n).toNat.testBit i = (decide (i < 64) && decide (i < n)) := by
  unfold lowMask
  split
  · rw [testBit_ones]
    grind
  · rw [testBit_not, testBit_shiftLeft _ (by omega), testBit_ones]
    grind

theorem testBit_place :
    (f.place bits).toNat.testBit i =
      (decide (f.start ≤ i ∧ i < f.start + f.size) && bits.toNat.testBit (i - f.start)) := by
  have hfits := f.fits
  rw [place, testBit_shiftLeft _ f.start_lt, testBit_and, testBit_lowMask]
  grind

theorem testBit_outside :
    f.outside.toNat.testBit i =
      (decide (i < 64) && !decide (f.start ≤ i ∧ i < f.start + f.size)) := by
  have hfits := f.fits
  have hbelow := testBit_shiftLeft 0xFFFFFFFFFFFFFFFF f.start_lt i
  rw [testBit_ones] at hbelow
  rw [outside, testBit_or, testBit_not, hbelow]
  -- a field that ends with the word has no bits above it
  split
  next h =>
    rw [testBit_shiftLeft _ h, testBit_ones]
    grind
  next h =>
    simp only [UInt64.toNat_zero, Nat.zero_testBit]
    grind

/-- The field is moved to the bottom of the word, with zeros above it. -/
theorem testBit_get :
    (f.get word).toNat.testBit i = (decide (i < f.size) && word.toNat.testBit (i + f.start)) := by
  have hfits := f.fits
  rw [get, testBit_and, testBit_shiftRight _ f.start_lt, testBit_lowMask]
  grind

def blend (inside : Bool) : Bool :=
  if f.start ≤ i ∧ i < f.start + f.size then inside else word.toNat.testBit i

theorem testBit_set :
    (f.set word bits).toNat.testBit i = f.blend word i (bits.toNat.testBit (i - f.start)) := by
  rw [set, testBit_or, testBit_and, testBit_outside, testBit_place, blend]
  have := testBit_eq_false word (i := i)
  grind

theorem testBit_and :
    (f.and word bits).toNat.testBit i =
      f.blend word i (word.toNat.testBit i && bits.toNat.testBit (i - f.start)) := by
  rw [and, Word.testBit_and, testBit_or, testBit_outside, testBit_place, blend]
  have := testBit_eq_false word (i := i)
  grind

theorem testBit_or :
    (f.or word bits).toNat.testBit i =
      f.blend word i (word.toNat.testBit i || bits.toNat.testBit (i - f.start)) := by
  rw [or, Word.testBit_or, testBit_place, blend]
  grind

theorem testBit_xor :
    (f.xor word bits).toNat.testBit i =
      f.blend word i (word.toNat.testBit i ^^ bits.toNat.testBit (i - f.start)) := by
  rw [xor, Word.testBit_xor, testBit_place, blend]
  grind

theorem toNat_get : (f.get word).toNat = word.toNat / 2 ^ f.start % 2 ^ f.size := by
  refine Nat.eq_of_testBit_eq fun i => ?_
  rw [testBit_get, Nat.testBit_mod_two_pow, Nat.testBit_div_two_pow]

/-! ## What the operations have to do with each other -/

theorem toNat_get_set : (f.get (f.set word bits)).toNat = bits.toNat % 2 ^ f.size := by
  refine Nat.eq_of_testBit_eq fun i => ?_
  rw [testBit_get, testBit_set, blend, Nat.testBit_mod_two_pow]
  grind

theorem set_get : f.set word (f.get word) = word := by
  refine eq_of_testBit fun i => ?_
  rw [testBit_set, testBit_get, blend]
  grind

theorem and_eq_set : f.and word bits = f.set word (f.get word &&& bits) := by
  refine eq_of_testBit fun i => ?_
  rw [testBit_and, testBit_set, Word.testBit_and, testBit_get, blend, blend]
  grind

theorem or_eq_set : f.or word bits = f.set word (f.get word ||| bits) := by
  refine eq_of_testBit fun i => ?_
  rw [testBit_or, testBit_set, Word.testBit_or, testBit_get, blend, blend]
  grind

theorem xor_eq_set : f.xor word bits = f.set word (f.get word ^^^ bits) := by
  refine eq_of_testBit fun i => ?_
  rw [testBit_xor, testBit_set, Word.testBit_xor, testBit_get, blend, blend]
  grind

/-! ## Shift amounts -/

/-- A shift to the left, which only amounts below 64 allow. -/
def shiftLeft? (word : UInt64) (n : Nat) : Option UInt64 :=
  if n < 64 then some (word <<< UInt64.ofNat n) else none

def shiftRight? (word : UInt64) (n : Nat) : Option UInt64 :=
  if n < 64 then some (word >>> UInt64.ofNat n) else none

def lowMask? (n : Nat) : Option UInt64 :=
  if 64 ≤ n then some 0xFFFFFFFFFFFFFFFF else do
    let above ← shiftLeft? 0xFFFFFFFFFFFFFFFF n
    return ~~~above

def outside? (f : BitField) : Option UInt64 := do
  let above ←
    if f.start + f.size < 64 then shiftLeft? 0xFFFFFFFFFFFFFFFF (f.start + f.size) else some 0
  let notBelow ← shiftLeft? 0xFFFFFFFFFFFFFFFF f.start
  return above ||| ~~~notBelow

def place? (f : BitField) (bits : UInt64) : Option UInt64 := do
  let low ← lowMask? f.size
  shiftLeft? (bits &&& low) f.start

def get? (f : BitField) (word : UInt64) : Option UInt64 := do
  let moved ← shiftRight? word f.start
  let low ← lowMask? f.size
  return moved &&& low

def set? (f : BitField) (word bits : UInt64) : Option UInt64 := do
  let outside ← f.outside?
  let placed ← f.place? bits
  return (word &&& outside) ||| placed

def and? (f : BitField) (word bits : UInt64) : Option UInt64 := do
  let placed ← f.place? bits
  let outside ← f.outside?
  return word &&& (placed ||| outside)

def or? (f : BitField) (word bits : UInt64) : Option UInt64 := do
  let placed ← f.place? bits
  return word ||| placed

def xor? (f : BitField) (word bits : UInt64) : Option UInt64 := do
  let placed ← f.place? bits
  return word ^^^ placed

theorem shiftLeft?_eq {n : Nat} (hn : n < 64) :
    shiftLeft? word n = some (word <<< UInt64.ofNat n) :=
  if_pos hn

theorem shiftRight?_eq {n : Nat} (hn : n < 64) :
    shiftRight? word n = some (word >>> UInt64.ofNat n) :=
  if_pos hn

theorem lowMask?_eq (n : Nat) : lowMask? n = some (lowMask n) := by
  unfold lowMask? lowMask
  split
  · rfl
  · rw [shiftLeft?_eq _ (by omega)]
    rfl

theorem outside?_eq : f.outside? = some f.outside := by
  unfold outside? outside
  rw [shiftLeft?_eq _ f.start_lt]
  split
  next h =>
    rw [shiftLeft?_eq _ h]
    rfl
  next h => rfl

theorem place?_eq : f.place? bits = some (f.place bits) := by
  rw [place?, lowMask?_eq]
  exact shiftLeft?_eq _ f.start_lt

theorem get?_eq : f.get? word = some (f.get word) := by
  rw [get?, lowMask?_eq, shiftRight?_eq _ f.start_lt]
  rfl

theorem set?_eq : f.set? word bits = some (f.set word bits) := by
  rw [set?, outside?_eq, place?_eq]
  rfl

theorem and?_eq : f.and? word bits = some (f.and word bits) := by
  rw [and?, place?_eq, outside?_eq]
  rfl

theorem or?_eq : f.or? word bits = some (f.or word bits) := by
  rw [or?, place?_eq]
  rfl

theorem xor?_eq : f.xor? word bits = some (f.xor word bits) := by
  rw [xor?, place?_eq]
  rfl

/-! ## The algebra -/

/-- The field that two words select, its own bits below `2 ^ n` where it has `n` of them. Replacing
it changes no other bit and is read back, reading it and putting it back changes nothing, and it is
combined with bits by reading, combining and replacing. No shift on the way reaches 64. -/
theorem field_algebra (word start size bits : UInt64) :
    let s := min start.toNat 63
    let n := min size.toNat (64 - s)
    let f := clamp start size
    (f.get word).toNat = word.toNat / 2 ^ s % 2 ^ n ∧
    (∀ i, i < s ∨ s + n ≤ i → (f.set word bits).toNat.testBit i = word.toNat.testBit i) ∧
    (f.get (f.set word bits)).toNat = bits.toNat % 2 ^ n ∧
    f.set word (f.get word) = word ∧
    (f.and word bits = f.set word (f.get word &&& bits) ∧
      f.or word bits = f.set word (f.get word ||| bits) ∧
      f.xor word bits = f.set word (f.get word ^^^ bits)) ∧
    f.get? word = some (f.get word) ∧ f.set? word bits = some (f.set word bits) ∧
    f.and? word bits = some (f.and word bits) ∧ f.or? word bits = some (f.or word bits) ∧
    f.xor? word bits = some (f.xor word bits) := by
  intro s n f
  refine ⟨f.toNat_get word, fun i hi => ?_, f.toNat_get_set word bits, f.set_get word,
    ⟨f.and_eq_set word bits, f.or_eq_set word bits, f.xor_eq_set word bits⟩,
    get?_eq f word, set?_eq f word bits, and?_eq f word bits, or?_eq f word bits,
    xor?_eq f word bits⟩
  have houtside : ¬(f.start ≤ i ∧ i < f.start + f.size) := by
    have hs : f.start = s := rfl
    have hn : f.size = n := rfl
    omega
  rw [testBit_set, blend, if_neg houtside]

example : (clamp 60 10).get 0xFFFFFFFFFFFFFFFF = 0xF := by decide

end BitField

end SignalCalc
