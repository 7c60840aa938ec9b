import SignalCalc.Opcode
import SignalCalc.Store

namespace SignalCalc

def stackCapacity : Nat := 64

inductive RunError where
  | stackOverflow
  | stackUnderflow
  | crcArguments (op : CrcOp) (least got : Nat)
  /-- A frame operation in a run without a frame. -/
  | missingFrame (op : FrameOp)
  | malformedOperand (op : Opcode)
  | unknownPlugin (id : OpcodeId)
  | plugin (name message : String)
  | noResult
  | store (e : StoreError)
deriving DecidableEq, Repr

def RunError.message : RunError → String
  | .stackOverflow => "stack overflow (capacity " ++ toString stackCapacity ++ ")"
  | .stackUnderflow => "stack underflow"
  | .crcArguments op least got =>
    (Opcode.crc op).mnemonic ++ " needs at least " ++ toString least ++ " parameters, got " ++
      toString got
  | .missingFrame op => (Opcode.frame op).mnemonic ++ " needs a CAN frame"
  | .malformedOperand op => "malformed payload for " ++ op.mnemonic
  | .unknownPlugin id => "unknown plugin opcode " ++ toString id.val.toNat
  | .plugin name message => "plugin " ++ name ++ ": " ++ message
  | .noResult => "equation left no result"
  | .store e => e.message

end SignalCalc
