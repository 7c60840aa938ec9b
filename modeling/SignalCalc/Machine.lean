import SignalCalc.Machine.Operate
import SignalCalc.Plugin

/-! # The machine

Runs instructions one after the other on a stack and a store. A failed run leaves stack, store and
edge memories as the instructions before it made them.
-/

namespace SignalCalc

structure Context where
  parameter : Value := default
  frame : Option Frame := none
  replaced : Option (VarId × Value) := none
  /-- The caller holds the store's lock. -/
  lockHeld : Bool := false

instance : Inhabited Context := ⟨{}⟩

def Context.replacement? (ctx : Context) (id : VarId) : Option Value :=
  match ctx.replaced with
  | some (replaced, v) => if replaced = id then some v else none
  | none => none

structure Machine (σ : Type) where
  stack : Stack
  store : σ

abbrev MachineM (σ : Type) := EStateM RunError (Machine σ)

namespace Machine

variable {σ : Type}

def onStack {α : Type} (x : StackM α) : MachineM σ α := fun m =>
  match x m.stack with
  | .ok a stack => .ok a { m with stack := stack }
  | .error e stack => .error e { m with stack := stack }

def onStore {α : Type} (x : EStateM StoreError σ α) : MachineM σ α := fun m =>
  match x m.store with
  | .ok a store => .ok a { m with store := store }
  | .error e store => .error (.store e) { m with store := store }

def getStore : MachineM σ σ := fun m => .ok m.store m

def push (v : Value) : MachineM σ Unit := onStack (Stack.push v)

variable [VariableStore σ]

/-- The raw bits of a variable, in its own width. -/
def rawBits (store : σ) (id : VarId) : Value :=
  let type := VariableStore.dataType store id
  ⟨.unsigned (type.toBits (VariableStore.read store id)), type.width⟩

/-- Access to a variable. A written value stays on the stack. -/
def access (ctx : Context) (op : AccessOp) (id : VarId) : MachineM σ Unit := do
  match op with
  | .read =>
    match ctx.replacement? id with
    | some v => push v
    | none => push (VariableStore.read (← getStore) id)
  | .readPhysical =>
    match ctx.replacement? id with
    | some v => push v
    | none =>
      match VariableStore.readPhysical (← getStore) id with
      | .ok d => push (.ofFloat d)
      | .error e => throw (.store e)
  | .write =>
    let v ← onStack Stack.peek
    onStore (VariableStore.write id v ctx.lockHeld)
  | .writePhysical =>
    let v ← onStack Stack.peek
    onStore (VariableStore.writePhysical id v.toFloat ctx.lockHeld)
  | .readBits => push (rawBits (← getStore) id)
  | .invertedBits =>
    let raw := rawBits (← getStore) id
    push ⟨.unsigned (~~~raw.toUInt64 &&& raw.mask), raw.width⟩
  | .writeBits =>
    let bits := (← onStack Stack.pop).toUInt64
    let v := (VariableStore.dataType (← getStore) id).ofBits bits
    onStore (VariableStore.write id v ctx.lockHeld)
    push v

/-- A built-in operation. Gives the operand that the instruction has from now on. -/
def builtin (ctx : Context) (op : Opcode) (operand : Operand) : MachineM σ Operand := do
  match op, operand with
  | .stack .literal, .literal v => push v
  | .stack .parameter, _ => push ctx.parameter
  | .stack .swap, _ => onStack Stack.swap
  | .access a, .bound id => access ctx a id
  | .arithmetic a, _ => onStack a.run
  | .logic a, _ => onStack a.run
  | .bits a, _ => onStack a.run
  | .math a, _ => onStack a.run
  | .cast a, _ => onStack a.run
  | .edge a, .edge last => return .edge (← onStack (a.run last))
  | .frame a, _ => onStack (a.run ctx.frame)
  | .crc a, .argCount n => onStack (a.run n.toNat)
  | .stack .literal, _ | .access _, _ | .edge _, _ | .crc _, _ => throw (.malformedOperand op)
  return operand

/-- One instruction. Gives the instruction as it is from now on, with its edge memory. -/
def step (plugins : Registry) (ctx : Context) (i : Instruction) : MachineM σ Instruction := do
  match i.operation with
  | .builtin op => return { i with operand := ← builtin ctx op i.operand }
  | .plugin id =>
    onStack (plugins.call id ⟨ctx.frame, ctx.parameter, i⟩)
    return i

structure Trace (σ : Type) where
  stopped : Option RunError
  code : List Instruction
  machine : Machine σ

/-- Runs instructions in order until one fails. -/
def run (plugins : Registry) (ctx : Context) : List Instruction → Machine σ → Trace σ
  | [], m => ⟨none, [], m⟩
  | i :: code, m =>
    match step plugins ctx i m with
    | .ok i m =>
      let rest := run plugins ctx code m
      { rest with code := i :: rest.code }
    | .error e m => ⟨some e, i :: code, m⟩

end Machine

end SignalCalc
