/-! # Bit fields

A field of consecutive bits in a 64-bit word. Start and size that reach beyond the word are cut to
it, so that no shift ever reaches the word's length.
-/

namespace SignalCalc

structure BitField where
  start : Nat
  size : Nat
  start_lt : start < 64
  fits : start + size ≤ 64

namespace BitField

/-- The field that starts at `start` and has `size` bits, cut to the word. -/
def clamp (start size : UInt64) : BitField where
  start := min start.toNat 63
  size := min size.toNat (64 - min start.toNat 63)
  start_lt := by omega
  fits := by omega

/-- The word with the low `n` bits set. -/
def lowMask (n : Nat) : UInt64 :=
  if 64 ≤ n then 0xFFFFFFFFFFFFFFFF else ~~~((0xFFFFFFFFFFFFFFFF : UInt64) <<< UInt64.ofNat n)

/-- Bits moved to the place of the field; those beyond its size are dropped. -/
def place (f : BitField) (bits : UInt64) : UInt64 :=
  (bits &&& lowMask f.size) <<< UInt64.ofNat f.start

def outside (f : BitField) : UInt64 :=
  let above : UInt64 :=
    if f.start + f.size < 64 then 0xFFFFFFFFFFFFFFFF <<< UInt64.ofNat (f.start + f.size) else 0
  above ||| ~~~((0xFFFFFFFFFFFFFFFF : UInt64) <<< UInt64.ofNat f.start)

def get (f : BitField) (word : UInt64) : UInt64 :=
  (word >>> UInt64.ofNat f.start) &&& lowMask f.size

def set (f : BitField) (word bits : UInt64) : UInt64 := (word &&& f.outside) ||| f.place bits

/-- Keeps those bits of the field that are set in `bits`. -/
def and (f : BitField) (word bits : UInt64) : UInt64 := word &&& (f.place bits ||| f.outside)

def or (f : BitField) (word bits : UInt64) : UInt64 := word ||| f.place bits

def xor (f : BitField) (word bits : UInt64) : UInt64 := word ^^^ f.place bits

end BitField

end SignalCalc
