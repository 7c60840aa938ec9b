import SignalCalc.Equation.Work
import SignalCalc.Script.Reading

/-! # What a script does -/

namespace SignalCalc

open WorkM

variable {σ : Type} [VariableStore σ]

def targetName (cfg : Setting) (mode : Mode) : Target → WorkM σ String
  | .named name => return name
  | .reference r => dereference cfg mode r

def meetDemand (cfg : Setting) (mode : Mode) (function : String) : Demand → WorkM σ Unit
  | .frame =>
    if mode = .direct || !cfg.options.frameFunctions then
      throw (.place (.needsFrame function))
    else modify fun w => { w with usesFrame := true }
  | .memory => if mode = .compile then return () else throw (.place (.notAllowed function))
  | .immediate => if mode = .compile then throw (.place (.notAllowed function)) else return ()

/-- The value of a text comparison. A bounded one takes its limit from the stack. -/
def textOrder (mode : Mode) (bounded ignoreCase : Bool) (left right : String) :
    WorkM σ Value := do
  let limit ← if bounded then (some ·.toUInt64.toNat) <$> onStack Stack.pop else pure none
  match mode with
  | .check _ => return .ofFloat 1.0
  | _ =>
    let bytes := comparedBytes ignoreCase limit
    return .ofFloat (orderNumber (compareBytes (bytes left) (bytes right)))

def perform (cfg : Setting) (mode : Mode) : Action → WorkM σ Unit
  | .push v => emitLiteral cfg mode v
  | .operate op => emit cfg mode (.plain op)
  | .access op target => do
    let name ← targetName cfg mode target
    variableAccess cfg mode op name
  | .follow reference => do
    let _ ← dereference cfg mode reference
  | .demand d function => meetDemand cfg mode function d
  | .invoke i count usesFrame =>
    if usesFrame && mode.isCheck then stubResult count else emit cfg mode i
  | .enumText name text => do
    if mode.isCheck then variableAccess cfg mode .read name
    else emitLiteral cfg mode (← enumNumber name text)
  | .query q subject => do
    if mode.isCheck then emitLiteral cfg mode (.ofFloat 1.0)
    else emitLiteral cfg mode (.ofFloat (Float.ofNat (answer cfg.host (← store) subject q)))
  | .compareText bounded ignoreCase left right => do
    emitLiteral cfg mode (← textOrder mode bounded ignoreCase left right)

def performAll (cfg : Setting) (mode : Mode) : List Action → WorkM σ Unit
  | [] => return ()
  | a :: actions => do
    perform cfg mode a
    performAll cfg mode actions

def interpret (cfg : Setting) (mode : Mode) (script : Script) : WorkM σ Unit := do
  performAll cfg mode script.actions
  match script.fault with
  | some f => throw f.refusal
  | none => return ()

end SignalCalc
