import SignalCalc.Grammar
import SignalCalc.Program

/-! # Work on an equation

There are three things to do with an equation: compile it to a program, evaluate it at once, or check
it without touching anything. `Mode` says which, and the pieces of work here are what becomes of an
instruction and of an access to a variable in each of them.
-/

namespace SignalCalc

inductive Mode where
  | compile
  | direct
  /-- Reading an unknown variable is an error if `strict`. -/
  | check (strict : Bool)
deriving DecidableEq, Repr

def Mode.isCheck : Mode → Bool
  | .check _ => true
  | _ => false

structure Setting where
  options : Options := {}
  plugins : Registry := .empty
  host : Host := .bare

def Setting.dialect (cfg : Setting) : Dialect := ⟨cfg.options.placeholder, cfg.plugins⟩

structure Workspace (σ : Type) where
  machine : Machine σ
  scope : Option Scope
  code : List Instruction := []
  /-- The attachments taken by the writes of an evaluation. -/
  bindings : List Binding := []
  warnings : List String := []
  usesFrame : Bool := false

/-- Work on an equation. What was done before a refusal stays done. -/
abbrev WorkM (σ : Type) := EStateM Refusal (Workspace σ)

namespace WorkM

variable {σ : Type}

def onMachine {α : Type} (x : MachineM σ α) : WorkM σ α := fun w =>
  match x w.machine with
  | .ok a m => .ok a { w with machine := m }
  | .error e m => .error (.run e) { w with machine := m }

def onStack {α : Type} (x : StackM α) : WorkM σ α := onMachine (Machine.onStack x)

def store : WorkM σ σ := fun w => .ok w.machine.store w

/-- The scope in which names are looked up first: none while compiling or unless enabled. -/
def locals (cfg : Setting) (mode : Mode) : WorkM σ (Option Scope) := fun w =>
  if mode = .compile || !cfg.options.scriptLocals then .ok none w else .ok w.scope w

def warn (message : String) : WorkM σ Unit := fun w =>
  .ok () { w with warnings := w.warnings ++ [message] }

def append (i : Instruction) : WorkM σ Unit := fun w => .ok () { w with code := w.code ++ [i] }

end WorkM

open WorkM

variable {σ : Type} [VariableStore σ]

def resolve (side : BindingSide) (name : String) (policy : ExistPolicy) (owner : Option Int32) :
    WorkM σ Binding := fun w =>
  match VariableStore.resolve name policy owner w.machine.store with
  | .ok b s => .ok b { w with machine := { w.machine with store := s } }
  | .error _ s =>
    .error (.binding side name) { w with machine := { w.machine with store := s } }

/-- An instruction: added to the program, or run at once. -/
def emit (cfg : Setting) (mode : Mode) (i : Instruction) : WorkM σ Unit := do
  match mode with
  | .compile => append i
  | .direct | .check _ =>
    let _ ← onMachine (Machine.step cfg.plugins { lockHeld := cfg.options.lockHeld } i)

def emitLiteral (cfg : Setting) (mode : Mode) (v : Value) : WorkM σ Unit :=
  emit cfg mode (.literal v)

def AccessOp.side (op : AccessOp) : BindingSide := if op.writes then .write else .read

def AccessOp.policy (op : AccessOp) (missing : MissingVariables) : ExistPolicy :=
  if op.writes then missing.writePolicy else missing.readPolicy

def warnCreated (b : Binding) (policy : ExistPolicy) (side : BindingSide) (name : String) :
    WorkM σ Unit := do
  if b.created && policy = .shouldExist then warn (Refusal.binding side name).message

def checkConversion (op : AccessOp) (id : VarId) (name : String) : WorkM σ Unit := do
  if op.isPhysical && !VariableStore.hasConversion (← store) id then
    throw (.binding .conversion name)

/-- An access in a program: the instruction takes over the attachment. -/
def bindVariable (cfg : Setting) (op : AccessOp) (name : String) : WorkM σ Unit := do
  let policy := op.policy cfg.options.missing
  let b ← resolve op.side name policy cfg.options.owner
  append (.access op b.id)
  warnCreated b policy op.side name
  checkConversion op b.id name

/-- The variable of an access to the store during an evaluation: writing resolves it, reading looks
it up. -/
def findVariable (cfg : Setting) (op : AccessOp) (name : String) : WorkM σ VarId := do
  if op.writes then
    let policy := cfg.options.missing.writePolicy
    let b ← resolve .write name policy cfg.options.owner
    modify fun w => { w with bindings := w.bindings ++ [b] }
    warnCreated b policy .write name
    return b.id
  else
    match VariableStore.lookup (← store) name with
    | some id => return id
    | none => throw (.binding .read name)

def accessStore (cfg : Setting) (op : AccessOp) (name : String) : WorkM σ Unit := do
  let id ← findVariable cfg op name
  checkConversion op id name
  emit cfg .direct (.access op id)

/-- A plain read or write of a local variable; tells whether there was one. -/
def accessLocal (cfg : Setting) (op : AccessOp) (name : String) : WorkM σ Bool := do
  match ← locals cfg .direct with
  | none => return false
  | some scope =>
    match op with
    | .read =>
      match scope.read? name with
      | some v =>
        emitLiteral cfg .direct v
        return true
      | none => return false
    | .write =>
      let v ← onStack Stack.peek
      match scope.write? name v with
      | some scope =>
        modify fun w => { w with scope := some scope }
        return true
      | none => return false
    | _ => return false

/-- An access during an evaluation: a replaced variable first, then local variables, then the
store. -/
def accessVariable (cfg : Setting) (op : AccessOp) (name : String) : WorkM σ Unit := do
  match cfg.options.replacement.filter (·.name = name) with
  | some replacement =>
    if op.writes then throw (.place (.writesReplaced name))
    else emitLiteral cfg .direct replacement.value
  | none =>
    unless ← accessLocal cfg op name do
      accessStore cfg op name

/-- An access during a check: writing does nothing, reading gives 1 if the variable may be read. -/
def checkVariable (cfg : Setting) (strict : Bool) (op : AccessOp) (name : String) :
    WorkM σ Unit := do
  if op.writes then return ()
  let inScope := ((← locals cfg (.check strict)).bind (·.read? name)).isSome
  let known := (VariableStore.lookup (← store) name).isSome || inScope
  if strict && !known then throw (.binding .read name)
  emitLiteral cfg (.check strict) (.ofFloat 1.0)

def variableAccess (cfg : Setting) (mode : Mode) (op : AccessOp) (name : String) : WorkM σ Unit :=
  match mode with
  | .compile => bindVariable cfg op name
  | .direct => accessVariable cfg op name
  | .check strict => checkVariable cfg strict op name

def dereference (cfg : Setting) (mode : Mode) (reference : String) : WorkM σ String := do
  match ← locals cfg mode with
  | none => throw (.text (.noDereference reference))
  | some scope =>
    match scope.dereference? reference with
    | some name => return name
    | none => throw (.binding .read ("*" ++ reference))

/-- The answer of a check for a function of the frame: 0 in place of the arguments. -/
def stubResult (count : Nat) : WorkM σ Unit := do
  let _ ← onStack (Stack.popMany count)
  onStack (Stack.push (.ofFloat 0.0))

def enumNumber (name text : String) : WorkM σ Value := do
  let s ← store
  match VariableStore.lookup s name with
  | none => throw (.binding .read name)
  | some id =>
    match VariableStore.enumValue? s id text with
    | none => throw (.text (.noEnumText name text))
    | some raw => return .ofFloat raw.toFloat

def isEnvironmentName (name : String) : Bool :=
  name != "" && name.toList.all fun c => c != '=' && c.toNat != 0

def answer (host : Host) (s : σ) (subject : String) : Query → Nat
  | .variableDeclared =>
    match VariableStore.lookup s subject with
    | some id => if VariableStore.dataType s id = .undeclared then 0 else 1
    | none => 0
  | .environmentSet => if isEnvironmentName subject && host.environmentSet subject then 1 else 0
  | .fileExists => if host.fileExists subject then 1 else 0
  | .processState => (VariableStore.processState s subject).code

def lowerByte (b : UInt8) : UInt8 := if 65 ≤ b.toNat ∧ b.toNat ≤ 90 then b + 32 else b

/-- The bytes of a text that take part in a comparison. -/
def comparedBytes (ignoreCase : Bool) (limit : Option Nat) (text : String) : List UInt8 :=
  let bytes := text.toUTF8.toList
  let bytes := if ignoreCase then bytes.map lowerByte else bytes
  match limit with
  | some n => bytes.take n
  | none => bytes

/-- Order of two byte lists, that of their first difference; a beginning comes first. -/
def compareBytes : List UInt8 → List UInt8 → Ordering
  | [], [] => .eq
  | [], _ :: _ => .lt
  | _ :: _, [] => .gt
  | a :: as, b :: bs => if a < b then .lt else if b < a then .gt else compareBytes as bs

def orderNumber : Ordering → Float
  | .lt => -1.0
  | .eq => 0.0
  | .gt => 1.0

end SignalCalc
