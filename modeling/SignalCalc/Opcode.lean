/-! # Opcodes

Every built-in operation is an `Opcode`, grouped by what it works on. An opcode has a code of one
byte and a mnemonic. Plugins share the number space: an `OpcodeId` below 256 belongs to the built-in
operations and one from 256 on to a plugin.
-/

namespace SignalCalc

inductive StackOp where
  | literal
  | parameter
  | swap
deriving DecidableEq, Repr

inductive AccessOp where
  | read
  | write
  | readPhysical
  /-- Store the top of the stack as a converted value. -/
  | writePhysical
  | readBits
  | writeBits
  | invertedBits
deriving DecidableEq, Repr

inductive ArithmeticOp where
  | add
  | sub
  | mul
  | div
  | neg
  | modulo
deriving DecidableEq, Repr

inductive LogicOp where
  | eq
  | ne
  | lt
  | le
  | gt
  | ge
  | and
  | or
  | not
deriving DecidableEq, Repr

inductive BitOp where
  | and
  | or
  | xor
  | invert
  | shiftLeft
  | shiftRight
  | getBits
  | setBits
  | andBits
  | orBits
  | xorBits
  | swap16
  | swap32
  | addBytes
  | addNibbles
deriving DecidableEq, Repr

inductive MathOp where
  | sin
  | cos
  | tan
  | sinh
  | cosh
  | tanh
  | asin
  | acos
  | atan
  | exp
  | pow
  | sqrt
  | log
  | log10
  | abs
  | round
  | roundUp
  | roundDown
  | min
  | max
  | overflow
  | underflow
  | near
deriving DecidableEq, Repr

inductive CastOp where
  | toReal
  | toInt8
  | toInt16
  | toInt32
  | toInt64
  | toUInt8
  | toUInt16
  | toUInt32
  | toUInt64
  | domain
  | width
deriving DecidableEq, Repr

inductive EdgeOp where
  | changed
  | rising
  | falling
deriving DecidableEq, Repr

inductive FrameOp where
  | byte
  | word
  | dword
  | cyclic
  | id
  | cycles
  | size
  | dataChanged
  | crc8
deriving DecidableEq, Repr

inductive CrcOp where
  | crc8
  | crc16
  | crc8Reflect
  | crc16Reflect
  | crc32Reflect
deriving DecidableEq, Repr

inductive Opcode where
  | stack (op : StackOp)
  | access (op : AccessOp)
  | arithmetic (op : ArithmeticOp)
  | logic (op : LogicOp)
  | bits (op : BitOp)
  | math (op : MathOp)
  | cast (op : CastOp)
  | edge (op : EdgeOp)
  | frame (op : FrameOp)
  | crc (op : CrcOp)
deriving DecidableEq, Repr

namespace Opcode

/-- Every opcode with its code and its mnemonic, in ascending order of the codes. -/
def table : List (Opcode × UInt8 × String) :=
  [(.stack .literal, 0, "LITERAL"), (.stack .parameter, 1, "GET_PARAM"), (.stack .swap, 2, "SWAP"),
    (.access .read, 10, "READ"), (.access .write, 11, "WRITE"),
    (.access .readPhysical, 12, "READ_PHYS"), (.access .writePhysical, 13, "WRITE_PHYS"),
    (.access .readBits, 14, "GET_BINARY"), (.access .writeBits, 15, "SET_BINARY"),
    (.access .invertedBits, 16, "ONES_COMPLEMENT"),
    (.arithmetic .add, 20, "ADD"), (.arithmetic .sub, 21, "SUB"), (.arithmetic .mul, 22, "MUL"),
    (.arithmetic .div, 23, "DIV"), (.arithmetic .neg, 24, "NEG"),
    (.arithmetic .modulo, 25, "MODULO"),
    (.logic .eq, 30, "EQ"), (.logic .ne, 31, "NE"), (.logic .lt, 32, "LT"), (.logic .le, 33, "LE"),
    (.logic .gt, 34, "GT"), (.logic .ge, 35, "GE"), (.logic .and, 36, "AND"),
    (.logic .or, 37, "OR"), (.logic .not, 38, "NOT"),
    (.bits .and, 40, "BIT_AND"), (.bits .or, 41, "BIT_OR"), (.bits .xor, 42, "BIT_XOR"),
    (.bits .invert, 43, "BIT_INVERT"), (.bits .shiftLeft, 44, "SHIFT_LEFT"),
    (.bits .shiftRight, 45, "SHIFT_RIGHT"), (.bits .getBits, 46, "GET_BITS"),
    (.bits .setBits, 47, "SET_BITS"), (.bits .andBits, 48, "AND_BITS"),
    (.bits .orBits, 49, "OR_BITS"), (.bits .xorBits, 50, "XOR_BITS"), (.bits .swap16, 51, "SWAP16"),
    (.bits .swap32, 52, "SWAP32"), (.bits .addBytes, 53, "ADD_MSB_LSB"),
    (.bits .addNibbles, 54, "ADD_MSN_LSN"),
    (.math .sin, 60, "SIN"), (.math .cos, 61, "COS"), (.math .tan, 62, "TAN"),
    (.math .sinh, 63, "SINH"), (.math .cosh, 64, "COSH"), (.math .tanh, 65, "TANH"),
    (.math .asin, 66, "ASIN"), (.math .acos, 67, "ACOS"), (.math .atan, 68, "ATAN"),
    (.math .exp, 69, "EXP"), (.math .pow, 70, "POW"), (.math .sqrt, 71, "SQRT"),
    (.math .log, 72, "LOG"), (.math .log10, 73, "LOG10"), (.math .abs, 74, "ABS"),
    (.math .round, 75, "ROUND"), (.math .roundUp, 76, "ROUND_UP"),
    (.math .roundDown, 77, "ROUND_DOWN"), (.math .min, 78, "MIN"), (.math .max, 79, "MAX"),
    (.math .overflow, 80, "OVERFLOW"), (.math .underflow, 81, "UNDERFLOW"),
    (.math .near, 82, "EQUAL_DECIMALS"),
    (.cast .toReal, 90, "TO_DOUBLE"), (.cast .toInt8, 91, "TO_INT8"),
    (.cast .toInt16, 92, "TO_INT16"), (.cast .toInt32, 93, "TO_INT32"),
    (.cast .toInt64, 94, "TO_INT64"), (.cast .toUInt8, 95, "TO_UINT8"),
    (.cast .toUInt16, 96, "TO_UINT16"), (.cast .toUInt32, 97, "TO_UINT32"),
    (.cast .toUInt64, 98, "TO_UINT64"), (.cast .domain, 99, "CALC_DATA_TYPE"),
    (.cast .width, 100, "CALC_DATA_WIDTH"),
    (.edge .changed, 110, "HAS_CHANGED"), (.edge .rising, 111, "SLOPE_UP"),
    (.edge .falling, 112, "SLOPE_DOWN"),
    (.frame .byte, 120, "CAN_BYTE"), (.frame .word, 121, "CAN_WORD"),
    (.frame .dword, 122, "CAN_DWORD"), (.frame .cyclic, 123, "CAN_CYCLIC"),
    (.frame .id, 124, "CAN_ID"), (.frame .cycles, 125, "CAN_CYCLES"),
    (.frame .size, 126, "CAN_SIZE"), (.frame .dataChanged, 127, "CAN_DATA_CHANGED"),
    (.frame .crc8, 128, "CAN_CRC8_REV_IN_OUT"),
    (.crc .crc8, 140, "CRC8_USER_POLY"), (.crc .crc16, 141, "CRC16_USER_POLY"),
    (.crc .crc8Reflect, 142, "CRC8_USER_POLY_REFLECT"),
    (.crc .crc16Reflect, 143, "CRC16_USER_POLY_REFLECT"),
    (.crc .crc32Reflect, 144, "CRC32_USER_POLY_REFLECT")]

def row? (op : Opcode) : Option (Opcode × UInt8 × String) := table.find? (·.1 = op)

def code (op : Opcode) : UInt8 := (op.row?.map (·.2.1)).getD 0

def mnemonic (op : Opcode) : String := (op.row?.map (·.2.2)).getD ""

def ofCode? (code : UInt8) : Option Opcode := (table.find? (·.2.1 = code)).map (·.1)

def reads : Opcode → Bool
  | .access .read | .access .readPhysical | .access .readBits | .access .invertedBits => true
  | _ => false

def writes : Opcode → Bool
  | .access .write | .access .writePhysical | .access .writeBits => true
  | _ => false

/-- Whether the operation remembers its operand until the next run. -/
def isStateful : Opcode → Bool
  | .edge _ => true
  | _ => false

end Opcode

namespace AccessOp

def writes (op : AccessOp) : Bool := (Opcode.access op).writes

def isPhysical : AccessOp → Bool
  | .readPhysical | .writePhysical => true
  | _ => false

end AccessOp

structure OpcodeId where
  val : UInt16
deriving DecidableEq, Repr

namespace OpcodeId

def pluginBase : Nat := 256

def isPlugin (id : OpcodeId) : Bool := pluginBase ≤ id.val.toNat

def pluginIndex? (id : OpcodeId) : Option Nat :=
  if pluginBase ≤ id.val.toNat then some (id.val.toNat - pluginBase) else none

def opcode? (id : OpcodeId) : Option Opcode :=
  if id.val.toNat < pluginBase then Opcode.ofCode? id.val.toUInt8 else none

/-- Text of the number: a mnemonic, or the bare number of a plugin. -/
def text (id : OpcodeId) : String :=
  match id.opcode? with
  | some op => op.mnemonic
  | none => "PLUGIN#" ++ toString id.val.toNat

end OpcodeId

def Opcode.id (op : Opcode) : OpcodeId := ⟨op.code.toUInt16⟩

end SignalCalc
