import SignalCalc.BitField
import SignalCalc.Crc
import SignalCalc.Frame
import SignalCalc.Stack
import SignalCalc.Value.Arithmetic

namespace SignalCalc

open Stack (push pop pop2 popMany)

def applyOne (f : Value → Value) : StackM Unit := do
  let a ← pop
  push (f a)

def applyTwo (f : Value → Value → Value) : StackM Unit := do
  let (a, b) ← pop2
  push (f a b)

def applyThree (f : Value → Value → Value → Value) : StackM Unit := do
  let args ← popMany 3
  match args with
  | [a, b, c] => push (f a b c)
  | _ => throw .stackUnderflow

def applyFour (f : Value → Value → Value → Value → Value) : StackM Unit := do
  let args ← popMany 4
  match args with
  | [a, b, c, d] => push (f a b c d)
  | _ => throw .stackUnderflow

def ArithmeticOp.run : ArithmeticOp → StackM Unit
  | .add => applyTwo Value.add
  | .sub => applyTwo Value.sub
  | .mul => applyTwo Value.mul
  | .div => applyTwo Value.div
  | .modulo => applyTwo Value.mod
  | .neg => applyOne Value.neg

/-- Comparison and logic; every result is a truth value. -/
def LogicOp.run : LogicOp → StackM Unit
  | .eq => applyTwo fun a b => .ofBool (a.same b)
  | .ne => applyTwo fun a b => .ofBool (!a.same b)
  | .lt => applyTwo fun a b => .ofBool (a.order? b == some .lt)
  | .le => applyTwo fun a b => .ofBool (a.order? b == some .lt || a.order? b == some .eq)
  | .gt => applyTwo fun a b => .ofBool (a.order? b == some .gt)
  | .ge => applyTwo fun a b => .ofBool (a.order? b == some .gt || a.order? b == some .eq)
  | .and => applyTwo fun a b => .ofBool (a.isTrue && b.isTrue)
  | .or => applyTwo fun a b => .ofBool (a.isTrue || b.isTrue)
  | .not => applyOne fun a => .ofBool (!a.isTrue)

def onWords (f : UInt64 → UInt64 → UInt64) (a b : Value) : Value :=
  .ofUInt64 (f a.toUInt64 b.toUInt64)

def onField (f : BitField → UInt64 → UInt64 → UInt64) (word start size bits : Value) : Value :=
  .ofUInt64 (f (.clamp start.toUInt64 size.toUInt64) word.toUInt64 bits.toUInt64)

/-- A word moved to the left; a distance of 64 or more leaves nothing. -/
def shiftLeft (word distance : UInt64) : UInt64 :=
  if 64 ≤ distance.toNat then 0 else word <<< distance

/-- A word moved to the right; a distance of 32 or more leaves nothing. -/
def shiftRight (word distance : UInt64) : UInt64 :=
  if 32 ≤ distance.toNat then 0 else word >>> distance

def swapBytes16 (n : UInt64) : UInt64 := ((n &&& 0xFF) <<< 8) ||| ((n >>> 8) &&& 0xFF)

def swapBytes32 (n : UInt64) : UInt64 := (swapBytes16 n <<< 16) ||| swapBytes16 (n >>> 16)

def byteSum (n : UInt64) : UInt64 := (n &&& (0xFF : UInt64)) + ((n >>> 8) &&& (0xFF : UInt64))

def nibbleSum (n : UInt64) : UInt64 := (n &&& (0xF : UInt64)) + ((n >>> 4) &&& (0xF : UInt64))

/-- Bit manipulation. The results have eight bytes, those of the byte exchanges their own width. -/
def BitOp.run : BitOp → StackM Unit
  | .and => applyTwo (onWords (· &&& ·))
  | .or => applyTwo (onWords (· ||| ·))
  | .xor => applyTwo fun a b => .ofUInt64 ((a.toUInt64 ^^^ b.toUInt64) &&& a.mask)
  | .invert => applyOne fun a => .ofUInt64 (~~~a.toUInt64 &&& a.mask)
  | .shiftLeft => applyTwo (onWords SignalCalc.shiftLeft)
  | .shiftRight => applyTwo (onWords SignalCalc.shiftRight)
  | .getBits => applyThree fun word start size =>
    .ofUInt64 ((BitField.clamp start.toUInt64 size.toUInt64).get word.toUInt64)
  | .setBits => applyFour (onField BitField.set)
  | .andBits => applyFour (onField BitField.and)
  | .orBits => applyFour (onField BitField.or)
  | .xorBits => applyFour (onField BitField.xor)
  | .swap16 => applyOne fun a => ⟨.unsigned (swapBytes16 a.toUInt64), 2⟩
  | .swap32 => applyOne fun a => ⟨.unsigned (swapBytes32 a.toUInt64), 4⟩
  | .addBytes => applyOne fun a => .ofInt64 (byteSum a.toInt64.toUInt64).toInt64
  | .addNibbles => applyOne fun a => .ofInt64 (nibbleSum a.toInt64.toUInt64).toInt64

def onReal (f : Float → Float) : StackM Unit := applyOne fun a => .ofFloat (f a.toFloat)

def quarterTurn : Float := Float.ofBits 0x3FF921FB54442D18

/-- Mathematical functions. The arcus functions and the root have fixed answers beyond their
domains. -/
def MathOp.run : MathOp → StackM Unit
  | .sin => onReal Float.sin
  | .cos => onReal Float.cos
  | .tan => onReal Float.tan
  | .sinh => onReal Float.sinh
  | .cosh => onReal Float.cosh
  | .tanh => onReal Float.tanh
  | .asin => onReal fun x => if x >= 1.0 then quarterTurn else x.asin
  | .acos => onReal fun x => if x >= 1.0 then 0.0 else x.acos
  | .atan => onReal Float.atan
  | .exp => onReal Float.exp
  | .pow => applyTwo fun a b => .ofFloat (a.toFloat.pow b.toFloat)
  | .sqrt => onReal fun x => if x <= 0.0 then 0.0 else x.sqrt
  | .log => onReal Float.log
  | .log10 => onReal Float.log10
  | .abs => applyOne Value.abs
  | .round => onReal fun x => (x + 0.5).floor
  | .roundUp => onReal Float.ceil
  | .roundDown => onReal Float.floor
  | .min => applyTwo Value.minimum
  | .max => applyTwo Value.maximum
  | .overflow => applyThree Value.wrapAbove
  | .underflow => applyThree Value.wrapBelow
  | .near => applyThree fun a b tolerance => .ofBool (a.near b tolerance)

/-- Casts limit the number to the target's range; the questions answer with a signed number. -/
def CastOp.run : CastOp → StackM Unit
  | .toReal => applyOne fun a => .ofFloat a.toFloat
  | .toInt8 => applyOne (DataType.coerce .int8)
  | .toInt16 => applyOne (DataType.coerce .int16)
  | .toInt32 => applyOne (DataType.coerce .int32)
  | .toInt64 => applyOne (DataType.coerce .int64)
  | .toUInt8 => applyOne (DataType.coerce .uint8)
  | .toUInt16 => applyOne (DataType.coerce .uint16)
  | .toUInt32 => applyOne (DataType.coerce .uint32)
  | .toUInt64 => applyOne (DataType.coerce .uint64)
  | .domain => applyOne fun a => .ofInt64 (Int64.ofNat a.domain.code)
  | .width => applyOne fun a => .ofInt64 (Int64.ofNat a.width.toNat)

def EdgeOp.fires : EdgeOp → Float → Float → Bool
  | .changed, last, now => !Value.sameReal now last
  | .rising, last, now => now > last
  | .falling, last, now => now < last

/-- Edge detection: pushes whether the operand's step from the last run fires, and gives the operand
to be remembered. The first run never fires. -/
def EdgeOp.run (op : EdgeOp) (last : Option Float) : StackM (Option Float) := do
  let now := (← pop).toFloat
  let fired := match last with
    | none => false
    | some last => op.fires last now
  push (.ofFloat (if fired then 1.0 else 0.0))
  return some now

def byteArgument (v : Value) : UInt8 := (v.clampUnsigned 255).toUInt8

def FrameOp.run (frame : Option Frame) (op : FrameOp) : StackM Unit :=
  match frame with
  | none => throw (.missingFrame op)
  | some f =>
    match op with
    | .byte => applyOne fun a => .ofUInt64 (f.byte a.toUInt64)
    | .word => applyOne fun a => .ofUInt64 (f.word a.toUInt64)
    | .dword => applyOne fun a => .ofUInt64 (f.dword a.toUInt64)
    | .cyclic => push (.ofBool f.cyclic)
    | .id => push (.ofUInt64 f.id.toUInt64)
    | .cycles => push (.ofUInt64 f.cycles.toUInt64)
    | .size => push (.ofUInt64 (UInt64.ofNat f.size))
    | .dataChanged => applyTwo fun start size => .ofBool (f.changed start.toInt64 size.toInt64)
    | .crc8 => applyFour fun poly skip reverseIn reverseOut =>
      let crc := Crc.frame8 f.data (byteArgument poly).toBitVec (byteArgument skip).toNat
        (byteArgument reverseIn != 0) (byteArgument reverseOut != 0)
      ⟨.unsigned (UInt64.ofNat crc.toNat), 1⟩

namespace CrcOp

/-- The least number of arguments: seed and polynomial, or the five parameters. -/
def least : CrcOp → Nat
  | .crc8 | .crc16 => 2
  | .crc8Reflect | .crc16Reflect | .crc32Reflect => 5

def register (width : Nat) (v : Value) : BitVec 32 :=
  BitVec.ofNat 32 (min v.toUInt64.toNat (Nat.pow 2 width - 1))

def messageByte (v : Value) : UInt8 := UInt8.ofNat (min v.toUInt64.toNat 255)

def reflected (width : Nat) : List Value → Value
  | poly :: init :: xorOut :: reflectIn :: reflectOut :: data =>
    let params : Crc.WordParams :=
      { width, poly := register width poly, init := register width init,
        xorOut := register width xorOut, reflectIn := 1 ≤ reflectIn.toUInt64.toNat,
        reflectOut := 1 ≤ reflectOut.toUInt64.toNat }
    ⟨.unsigned (UInt64.ofNat (params.checksum (data.map messageByte)).toNat),
      UInt8.ofNat (width / 8)⟩
  | _ => default

def compute : CrcOp → List Value → Value
  | .crc8, seed :: poly :: data =>
    let crc := Crc.complemented8 (byteArgument seed).toBitVec (byteArgument poly).toBitVec
      (data.map byteArgument)
    ⟨.unsigned (UInt64.ofNat crc.toNat), 1⟩
  | .crc16, seed :: poly :: data =>
    let word (v : Value) : BitVec 16 := (v.clampUnsigned 65535).toUInt16.toBitVec
    let crc := Crc.augmented16 (word seed) (word poly) (data.map byteArgument)
    ⟨.unsigned (UInt64.ofNat crc.toNat), 2⟩
  | .crc8Reflect, args => reflected 8 args
  | .crc16Reflect, args => reflected 16 args
  | .crc32Reflect, args => reflected 32 args
  | _, _ => default

def run (op : CrcOp) (count : Nat) : StackM Unit := do
  if count < op.least then throw (.crcArguments op op.least count)
  else
    let args ← popMany count
    push (op.compute args)

end CrcOp

end SignalCalc
