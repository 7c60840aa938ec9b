import SignalCalc.Opcode

/-! # Built-in functions

The functions that equations can call without a plugin. Most of them take expressions and become one
operation; `Builtin.table` lists those. The others read their own argument text, such as the name of
a variable; `Special.table` lists those.
-/

namespace SignalCalc

def maxArguments : Nat := 32

inductive Arity where
  | exactly (n : UInt8)
  /-- Both ends count. -/
  | between (least most : UInt8)
deriving DecidableEq, Repr

namespace Arity

def accepts : Arity → Nat → Bool
  | .exactly n, count => count = n.toNat
  | .between least most, count => least.toNat ≤ count && count ≤ most.toNat

def least : Arity → UInt8
  | .exactly n => n
  | .between least _ => least

def text : Arity → String
  | .exactly n => toString n.toNat
  | .between least most => toString least.toNat ++ " to " ++ toString most.toNat

def admits (a : Arity) (count : Nat) : Bool := count ≤ maxArguments && a.accepts count

end Arity

inductive Gate where
  | anywhere
  /-- Where frame access is enabled, in programs and checks. -/
  | frame
  /-- In programs only, because it remembers something between runs. -/
  | stateful
deriving DecidableEq, Repr

def Gate.names : List (Gate × String) :=
  [(.anywhere, "Anywhere"), (.frame, "Can"), (.stateful, "Stateful")]

structure Builtin where
  name : String
  op : Opcode
  arity : Arity
  gate : Gate := .anywhere
  /-- The operation is told how many arguments it takes. -/
  variadic : Bool := false
deriving DecidableEq, Repr

namespace Builtin

def fixed (name : String) (op : Opcode) (args : UInt8) : Builtin :=
  ⟨name, op, .exactly args, .anywhere, false⟩

def ofFrame (name : String) (op : FrameOp) (args : UInt8) : Builtin :=
  ⟨name, .frame op, .exactly args, .frame, false⟩

def ofEdge (name : String) (op : EdgeOp) : Builtin := ⟨name, .edge op, .exactly 1, .stateful, false⟩

def ofCrc (name : String) (op : CrcOp) (least : UInt8) : Builtin :=
  ⟨name, .crc op, .between least (UInt8.ofNat maxArguments), .anywhere, true⟩

def table : List Builtin :=
  [fixed "sin" (.math .sin) 1, fixed "cos" (.math .cos) 1, fixed "tan" (.math .tan) 1,
    fixed "sinh" (.math .sinh) 1, fixed "cosh" (.math .cosh) 1, fixed "tanh" (.math .tanh) 1,
    fixed "asin" (.math .asin) 1, fixed "acos" (.math .acos) 1, fixed "atan" (.math .atan) 1,
    fixed "exp" (.math .exp) 1, fixed "pow" (.math .pow) 2, fixed "sqrt" (.math .sqrt) 1,
    fixed "log" (.math .log) 1, fixed "log10" (.math .log10) 1, fixed "abs" (.math .abs) 1,
    fixed "round" (.math .round) 1, fixed "round_up" (.math .roundUp) 1,
    fixed "round_down" (.math .roundDown) 1, fixed "modulo" (.arithmetic .modulo) 2,
    fixed "min" (.math .min) 2, fixed "max" (.math .max) 2,
    fixed "overflow" (.math .overflow) 3, fixed "underflow" (.math .underflow) 3,
    ⟨"equal", .math .near, .between 2 3, .anywhere, false⟩,
    fixed "getbits" (.bits .getBits) 3, fixed "setbits" (.bits .setBits) 4,
    fixed "andbits" (.bits .andBits) 4, fixed "orbits" (.bits .orBits) 4,
    fixed "xorbits" (.bits .xorBits) 4, fixed "and" (.bits .and) 2, fixed "or" (.bits .or) 2,
    fixed "xor" (.bits .xor) 2, fixed "invert" (.bits .invert) 1,
    fixed "swap16" (.bits .swap16) 1, fixed "swap32" (.bits .swap32) 1,
    fixed "shift_left" (.bits .shiftLeft) 2, fixed "shift_right" (.bits .shiftRight) 2,
    fixed "add_msb_lsb" (.bits .addBytes) 1, fixed "add_msn_lsn" (.bits .addNibbles) 1,
    fixed "double" (.cast .toReal) 1, fixed "int8" (.cast .toInt8) 1,
    fixed "int16" (.cast .toInt16) 1, fixed "int32" (.cast .toInt32) 1,
    fixed "int64" (.cast .toInt64) 1, fixed "uint8" (.cast .toUInt8) 1,
    fixed "uint16" (.cast .toUInt16) 1, fixed "uint32" (.cast .toUInt32) 1,
    fixed "uint64" (.cast .toUInt64) 1, fixed "get_calc_data_type" (.cast .domain) 1,
    fixed "get_calc_data_width" (.cast .width) 1,
    ofEdge "has_changed" .changed, ofEdge "slope_up" .rising, ofEdge "slope_down" .falling,
    ofFrame "canbyte" .byte 1, ofFrame "canword" .word 1, ofFrame "candword" .dword 1,
    ofFrame "can_cyclic" .cyclic 0, ofFrame "can_id" .id 0, ofFrame "can_cycles" .cycles 0,
    ofFrame "can_size" .size 0, ofFrame "can_data_changed" .dataChanged 2,
    ofFrame "can_crc8_rev_in_out" .crc8 4,
    ofCrc "crc8_user_poly" .crc8 2, ofCrc "crc16_user_poly" .crc16 2,
    ofCrc "crc8_user_poly_reflect" .crc8Reflect 5,
    ofCrc "crc16_user_poly_reflect" .crc16Reflect 5,
    ofCrc "crc32_user_poly_reflect" .crc32Reflect 5]

def lookup? (name : String) : Option Builtin := table.find? (·.name = name)

end Builtin

inductive Query where
  | variableDeclared
  | environmentSet
  | fileExists
  | processState
deriving DecidableEq, Repr

inductive Special where
  | physical
  | enumText
  | query (q : Query)
  /-- Comparison of two texts, perhaps of their beginnings only, perhaps without regard to case. -/
  | compareText (bounded ignoreCase : Bool)
  | rawBits (op : AccessOp)
deriving DecidableEq, Repr

namespace Special

/-- Every function that reads its own argument text, with the operation that it becomes and the
number of its arguments. -/
def table : List (String × Special × Opcode × Arity) :=
  [("phys", .physical, .access .readPhysical, .exactly 1),
    ("enum", .enumText, .stack .literal, .exactly 1),
    ("exist", .query .variableDeclared, .stack .literal, .exactly 1),
    ("env_exist", .query .environmentSet, .stack .literal, .exactly 1),
    ("file_exist", .query .fileExists, .stack .literal, .exactly 1),
    ("get_process_state", .query .processState, .stack .literal, .exactly 1),
    ("strcmp", .compareText false false, .stack .literal, .exactly 2),
    ("stricmp", .compareText false true, .stack .literal, .exactly 2),
    ("strncmp", .compareText true false, .stack .literal, .exactly 3),
    ("strnicmp", .compareText true true, .stack .literal, .exactly 3),
    ("get_binary", .rawBits .readBits, .access .readBits, .exactly 1),
    ("ones_complement", .rawBits .invertedBits, .access .invertedBits, .exactly 1),
    ("set_binary", .rawBits .writeBits, .access .writeBits, .exactly 2)]

def row? (name : String) : Option (String × Special × Opcode × Arity) :=
  table.find? (·.1 = name)

def lookup? (name : String) : Option Special := (row? name).map (·.2.1)

end Special

/-- Whether a name belongs to one of the two tables. -/
def isReserved (name : String) : Bool :=
  (Builtin.lookup? name).isSome || (Special.lookup? name).isSome

end SignalCalc
