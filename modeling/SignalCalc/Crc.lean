/-! # Checksums

Cyclic redundancy checks over bytes. All of them are built from one step of a shift register of `w`
bits, which multiplies by `x` and reduces by the polynomial. Programs run the parameterised check in a
word of 32 bits for all widths, with a mask in each step.
-/

namespace SignalCalc.Crc

/-- Multiplies the register by `x` and reduces it by `x ^ w + poly`. -/
def advance {w : Nat} (poly reg : BitVec w) : BitVec w :=
  if reg.msb then (reg <<< 1) ^^^ poly else reg <<< 1

def iterate {α : Type} (f : α → α) : Nat → α → α
  | 0, a => a
  | n + 1, a => iterate f n (f a)

def reverseByte (b : UInt8) : UInt8 := UInt8.ofBitVec b.toBitVec.reverse

structure Params (w : Nat) where
  poly : BitVec w
  init : BitVec w
  xorOut : BitVec w
  /-- Bytes enter with their least significant bit first. -/
  reflectIn : Bool
  reflectOut : Bool
deriving DecidableEq, Repr

namespace Params

/-- Takes a byte into the register: it is added to the top, then eight steps are made. -/
def feed {w : Nat} (p : Params w) (reg : BitVec w) (byte : UInt8) : BitVec w :=
  let byte := if p.reflectIn then reverseByte byte else byte
  iterate (advance p.poly) 8 (reg ^^^ (byte.toBitVec.setWidth w <<< (w - 8)))

def checksum {w : Nat} (p : Params w) (data : List UInt8) : BitVec w :=
  let reg := data.foldl p.feed p.init
  (if p.reflectOut then reg.reverse else reg) ^^^ p.xorOut

end Params

/-- Parameters of a check whose register is the lower bits of a word. -/
structure WordParams where
  width : Nat
  poly : BitVec 32
  init : BitVec 32
  xorOut : BitVec 32
  reflectIn : Bool
  reflectOut : Bool
deriving DecidableEq, Repr

namespace WordParams

def topBit (p : WordParams) : BitVec 32 := 1#32 <<< (p.width - 1)

def mask (p : WordParams) : BitVec 32 :=
  if 32 ≤ p.width then BitVec.allOnes 32 else (1#32 <<< p.width) - 1

def advance (p : WordParams) (reg : BitVec 32) : BitVec 32 :=
  if reg &&& p.topBit != 0 then ((reg <<< 1) ^^^ p.poly) &&& p.mask else (reg <<< 1) &&& p.mask

def feed (p : WordParams) (reg : BitVec 32) (byte : UInt8) : BitVec 32 :=
  let byte := if p.reflectIn then reverseByte byte else byte
  iterate p.advance 8 (reg ^^^ (byte.toBitVec.setWidth 32 <<< (p.width - 8)))

def checksum (p : WordParams) (data : List UInt8) : BitVec 32 :=
  let reg := data.foldl p.feed (p.init &&& p.mask)
  -- the reversed word has the register at its top
  let reg := if p.reflectOut then reg.reverse >>> (32 - p.width) else reg
  (reg ^^^ p.xorOut) &&& p.mask

end WordParams

/-- Eight-bit check with the most significant bit first; the register is complemented at the end. -/
def complemented8 (seed poly : BitVec 8) (data : List UInt8) : BitVec 8 :=
  ~~~(data.foldl (fun reg byte => iterate (advance poly) 8 (reg ^^^ byte.toBitVec)) seed)

/-- Shifts one message bit into the register from below. -/
def shiftIn (poly reg : BitVec 16) (bit : Bool) : BitVec 16 :=
  let shifted := (reg <<< 1) ||| (BitVec.ofBool bit).setWidth 16
  if reg.msb then shifted ^^^ poly else shifted

/-- The bits of a byte, the least significant first. -/
def lowFirst (b : UInt8) : List Bool := (List.range 8).map b.toBitVec.getLsbD

def highFirst (b : UInt8) : List Bool := (List.range 8).map b.toBitVec.getMsbD

/-- Sixteen-bit check. The message enters the register bit by bit, the least significant bit of each
byte first, then sixteen zeros follow, and the register is reversed at the end. -/
def augmented16 (seed poly : BitVec 16) (data : List UInt8) : BitVec 16 :=
  let fed := data.foldl (fun reg byte => (lowFirst byte).foldl (shiftIn poly) reg) seed
  (iterate (fun reg => shiftIn poly reg false) 16 fed).reverse

/-- One step in which a message bit is held against the top of the register. -/
def compareIn (poly reg : BitVec 8) (bit : Bool) : BitVec 8 :=
  if bit != reg.msb then (reg <<< 1) ^^^ poly else reg <<< 1

/-- Eight-bit check of a frame's payload. The byte at `skip`, which holds the check, is passed
over. -/
def frame8 (data : List UInt8) (poly : BitVec 8) (skip : Nat) (reverseIn reverseOut : Bool) :
    BitVec 8 :=
  let bits (b : UInt8) : List Bool := if reverseIn then lowFirst b else highFirst b
  let take (reg : BitVec 8) (entry : UInt8 × Nat) : BitVec 8 :=
    if entry.2 = skip then reg else (bits entry.1).foldl (compareIn poly) reg
  let reg := data.zipIdx.foldl take 0
  if reverseOut then reg.reverse else reg

end SignalCalc.Crc
