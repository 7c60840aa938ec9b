import SignalCalc.Value

namespace SignalCalc

inductive DataType where
  | int8
  | uint8
  | int16
  | uint16
  | int32
  | uint32
  | int64
  | uint64
  | single
  | double
  | undeclared
deriving DecidableEq, Repr

instance : Inhabited DataType := ⟨.undeclared⟩

namespace DataType

def names : List (DataType × String) :=
  [(.int8, "I8"), (.uint8, "U8"), (.int16, "I16"), (.uint16, "U16"), (.int32, "I32"),
    (.uint32, "U32"), (.int64, "I64"), (.uint64, "U64"), (.single, "F32"), (.double, "F64"),
    (.undeclared, "Unknown")]

def width : DataType → UInt8
  | .int8 | .uint8 => 1
  | .int16 | .uint16 => 2
  | .int32 | .uint32 | .single => 4
  | .int64 | .uint64 | .double | .undeclared => 8

def isSigned : DataType → Bool
  | .int8 | .int16 | .int32 | .int64 => true
  | _ => false

def isReal : DataType → Bool
  | .single | .double | .undeclared => true
  | _ => false

/-- Smallest and largest signed word of `bytes` bytes. -/
def signedRange (bytes : UInt8) : Int64 × Int64 :=
  let half : Int := Nat.pow 2 (8 * bytes.toNat - 1)
  (Int64.ofInt (-half), Int64.ofInt (half - 1))

/-- A value as a signed integer of `bytes` bytes, limited to their range. -/
def coerceSigned (bytes : UInt8) (v : Value) : Value :=
  let (lo, hi) := signedRange bytes
  ⟨.signed (v.clampSigned lo hi), bytes⟩

def coerceUnsigned (bytes : UInt8) (v : Value) : Value :=
  ⟨.unsigned (v.clampUnsigned (widthMask bytes)), bytes⟩

/-- A value as the type keeps it: integers are limited to the range, doubles rounded. -/
def coerce : DataType → Value → Value
  | .int8, v => coerceSigned 1 v
  | .int16, v => coerceSigned 2 v
  | .int32, v => coerceSigned 4 v
  | .int64, v => coerceSigned 8 v
  | .uint8, v => coerceUnsigned 1 v
  | .uint16, v => coerceUnsigned 2 v
  | .uint32, v => coerceUnsigned 4 v
  | .uint64, v => coerceUnsigned 8 v
  | .single, v => ⟨.real (Double.toSingle v.toFloat), 4⟩
  | .double, v | .undeclared, v => .ofFloat v.toFloat

def toBits (t : DataType) (v : Value) : UInt64 :=
  match t with
  | .single => v.toFloat.toFloat32.toBits.toUInt64
  | .double | .undeclared => v.toFloat.toBits
  | _ => v.toUInt64 &&& widthMask t.width

/-- The value that raw bits stand for; bits above the width are ignored. -/
def ofBits (t : DataType) (bits : UInt64) : Value :=
  match t with
  | .int8 => ⟨.signed bits.toUInt8.toInt8.toInt64, 1⟩
  | .int16 => ⟨.signed bits.toUInt16.toInt16.toInt64, 2⟩
  | .int32 => ⟨.signed bits.toUInt32.toInt32.toInt64, 4⟩
  | .int64 => ⟨.signed bits.toInt64, 8⟩
  | .uint8 => ⟨.unsigned (bits &&& widthMask 1), 1⟩
  | .uint16 => ⟨.unsigned (bits &&& widthMask 2), 2⟩
  | .uint32 => ⟨.unsigned (bits &&& widthMask 4), 4⟩
  | .uint64 => ⟨.unsigned bits, 8⟩
  | .single => ⟨.real (Float32.ofBits bits.toUInt32).toFloat, 4⟩
  | .double | .undeclared => .ofFloat (Float.ofBits bits)

end DataType

end SignalCalc
