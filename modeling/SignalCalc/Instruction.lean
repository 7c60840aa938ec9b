import SignalCalc.Opcode
import SignalCalc.Store

namespace SignalCalc

inductive Operation where
  | builtin (op : Opcode)
  | plugin (id : OpcodeId)
deriving DecidableEq, Repr

namespace Operation

def id : Operation → OpcodeId
  | .builtin op => op.id
  | .plugin id => id

def text : Operation → String
  | .builtin op => op.mnemonic
  | .plugin id => id.text

def binds : Operation → Bool
  | .builtin op => op.reads || op.writes
  | .plugin _ => false

end Operation

inductive Operand where
  | absent
  | literal (v : Value)
  | bound (id : VarId)
  | argCount (n : UInt8)
  /-- What an edge detector saw in its last run. -/
  | edge (last : Option Float)
deriving Repr

structure Instruction where
  operation : Operation
  operand : Operand
deriving Repr

namespace Instruction

def literal (v : Value) : Instruction := ⟨.builtin (.stack .literal), .literal v⟩

def plain (op : Opcode) : Instruction := ⟨.builtin op, .absent⟩

def access (op : AccessOp) (id : VarId) : Instruction := ⟨.builtin (.access op), .bound id⟩

/-- The variable on which the instruction holds an attachment. -/
def binding? (i : Instruction) : Option VarId :=
  match i.operand with
  | .bound id => if i.operation.binds then some id else none
  | _ => none

@[simp] theorem binding?_access (op : AccessOp) (id : VarId) :
    (access op id).binding? = some id := by
  cases op <;> rfl

def forget (i : Instruction) : Instruction :=
  match i.operand with
  | .edge _ => { i with operand := .edge none }
  | _ => i

end Instruction

end SignalCalc
