import SignalCalc.Fault
import SignalCalc.Instruction

/-! # Scripts

The parser works on an equation while it reads it. A `Script` is the account of the same reading with
nothing done: what is to be done, in order, and how the reading ended. It does not know whether the
equation is to be compiled, evaluated or checked; the same actions serve all three. A fault in the
text comes after the actions that were read before it.
-/

namespace SignalCalc

inductive Target where
  | named (name : String)
  | reference (name : String)
deriving DecidableEq, Repr

inductive Demand where
  | frame
  | memory
  | immediate
deriving DecidableEq, Repr

inductive Action where
  | push (v : Value)
  | operate (op : Opcode)
  | access (op : AccessOp) (target : Target)
  /-- Stops unless a reference can be followed. -/
  | follow (reference : String)
  | demand (d : Demand) (function : String)
  /-- A function whose `count` arguments are on the stack. -/
  | invoke (instruction : Instruction) (count : Nat) (usesFrame : Bool)
  | enumText (name text : String)
  | query (q : Query) (subject : String)
  /-- Compares two texts, or as much of them as the number on the stack says. -/
  | compareText (bounded ignoreCase : Bool) (left right : String)
deriving Repr

inductive SourceFault where
  | text (fault : TextFault)
  | arity (function : String) (expected : Arity) (got : Nat)
deriving Repr

def SourceFault.refusal : SourceFault → Refusal
  | .text fault => .text fault
  | .arity function expected got => .arity function expected got

/-- What an equation asks for, and the fault that ends it, if there is one. -/
structure Script where
  actions : List Action
  fault : Option SourceFault
deriving Repr

end SignalCalc
