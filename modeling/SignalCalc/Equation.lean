import SignalCalc.Equation.Parser

namespace SignalCalc

variable {σ : Type} [VariableStore σ]

structure Outcome (σ α : Type) where
  result : Except EquationError α
  store : σ
  scope : Option Scope

def Workspace.start (s : σ) (scope : Option Scope) : Workspace σ where
  machine := ⟨.empty, s⟩
  scope := scope

def Workspace.error (w : Workspace σ) (source : String) (refusal : Refusal) : EquationError :=
  ⟨refusal, source, w.warnings⟩

/-- Compiles an equation. When it is refused, every attachment taken goes back. -/
def compile (cfg : Setting) (scope : Option Scope) (source : String) (s : σ) :
    Outcome σ Program :=
  match Parser.read cfg .compile source (.start s scope) with
  | .ok _ w =>
    ⟨.ok
      { code := w.code, source := source, warnings := w.warnings, usesFrame := w.usesFrame,
        lockHeld := cfg.options.lockHeld },
      w.machine.store, w.scope⟩
  | .error refusal w =>
    let store := Program.detachAll (w.code.filterMap (·.binding?)) w.machine.store
    ⟨.error (w.error source refusal), store, w.scope⟩

structure Evaluation where
  value : Value
  warnings : List String

/-- Gives back the attachments of an evaluation. A variable that it created keeps its attachment,
and so stays, unless the options say otherwise. -/
def releaseBindings (missing : MissingVariables) (bindings : List Binding) (s : σ) : σ :=
  let returned := bindings.filter fun b => !b.created || missing.removesCreated
  Program.detachAll (returned.map (·.id)) s

def evaluate (cfg : Setting) (scope : Option Scope) (source : String) (s : σ) :
    Outcome σ Evaluation :=
  let finish (w : Workspace σ) (result : Except Refusal Value) : Outcome σ Evaluation :=
    let result := match result with
      | .ok v => .ok ⟨v, w.warnings⟩
      | .error refusal => .error (w.error source refusal)
    ⟨result, releaseBindings cfg.options.missing w.bindings w.machine.store, w.scope⟩
  match Parser.read cfg .direct source (.start s scope) with
  | .ok _ w =>
    match w.machine.stack.bottom? with
    | some v => finish w (.ok v)
    | none => finish w (.error (.run .noResult))
  | .error refusal w => finish w (.error refusal)

structure Report where
  usesFrame : Bool
  warnings : List String

def check (cfg : Setting) (strict : Bool) (scope : Option Scope) (source : String) (s : σ) :
    Outcome σ Report :=
  match Parser.read cfg (.check strict) source (.start s scope) with
  | .ok _ w => ⟨.ok ⟨w.usesFrame, w.warnings⟩, w.machine.store, w.scope⟩
  | .error refusal w => ⟨.error (w.error source refusal), w.machine.store, w.scope⟩

end SignalCalc
