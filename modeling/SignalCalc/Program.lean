import SignalCalc.Machine

namespace SignalCalc

structure Program where
  code : List Instruction
  source : String
  warnings : List String := []
  usesFrame : Bool := false
  /-- Runs tell the store that the caller holds its lock. -/
  lockHeld : Bool := false
  /-- The number under which the host follows the program; 0 is none. -/
  registration : UInt64 := 0
deriving Repr

structure Run (σ : Type) where
  result : Except RunError Value
  program : Program
  stack : Stack
  store : σ

def Run.float? {σ : Type} (r : Run σ) : Except RunError Float := r.result.map (·.toFloat)

/-- The result of a run as a double, 0 when it failed. -/
def Run.float {σ : Type} (r : Run σ) : Float :=
  match r.result with
  | .ok v => v.toFloat
  | .error _ => 0.0

namespace Program

/-- The variables that the program accesses, once for each instruction. -/
def bindings (p : Program) : List VarId := p.code.filterMap (·.binding?)

/-- The program as if it had never run. -/
def resetEdges (p : Program) : Program := { p with code := p.code.map (·.forget) }

def context (p : Program) : Context := { lockHeld := p.lockHeld }

variable {σ : Type} [VariableStore σ]

def detachAll (ids : List VarId) (s : σ) : σ := ids.foldl (fun s id => VariableStore.detach id s) s

def attachAll (ids : List VarId) (s : σ) : σ := ids.foldl (fun s id => VariableStore.attach id s) s

/-- Forgets a registration, unless it is none. -/
def unregister (n : UInt64) (s : σ) : σ := if n = 0 then s else VariableStore.detachEquation n s

/-- The end of a program: attachments and registration go back to the store. -/
def release (p : Program) (s : σ) : σ := unregister p.registration (detachAll p.bindings s)

/-- A copy with attachments of its own. Edge memories are copied, the registration is not. -/
def share (p : Program) (s : σ) : Program × σ :=
  ({ p with registration := 0 }, attachAll p.bindings s)

/-- Gives the program a registration in place of the one it has. -/
def register (p : Program) (n : UInt64) (s : σ) : Program × σ :=
  let s := unregister p.registration s
  ({ p with registration := n }, if n = 0 then s else VariableStore.attachEquation n s)

/-- Runs the program on an empty stack; the deepest entry left there is the result. -/
def run (plugins : Registry) (ctx : Context) (p : Program) (s : σ) : Run σ :=
  let trace := Machine.run plugins ctx p.code ⟨.empty, s⟩
  let result := match trace.stopped with
    | some e => .error e
    | none =>
      match trace.machine.stack.bottom? with
      | some v => .ok v
      | none => .error .noResult
  ⟨result, { p with code := trace.code }, trace.machine.stack, trace.machine.store⟩

def execute (plugins : Registry) (p : Program) (s : σ) : Run σ := p.run plugins p.context s

def executeWith (plugins : Registry) (parameter : Float) (p : Program) (s : σ) : Run σ :=
  p.run plugins { p.context with parameter := .ofFloat parameter } s

def executeOn (plugins : Registry) (frame : Frame) (p : Program) (s : σ) : Run σ :=
  p.run plugins { p.context with frame := some frame } s

def executeReplacing (plugins : Registry) (id : VarId) (value : Float) (p : Program) (s : σ) :
    Run σ :=
  p.run plugins { p.context with replaced := some (id, .ofFloat value) } s

end Program

end SignalCalc
