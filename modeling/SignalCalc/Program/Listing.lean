import SignalCalc.Program

/-! # Listings -/

namespace SignalCalc

def padRight (width : Nat) (s : String) : String :=
  s ++ String.ofList (List.replicate (width - s.length) ' ')

def padNumber (width n : Nat) : String :=
  let digits := Double.digitsOf n
  String.ofList (List.replicate (width - digits.length) '0' ++ digits)

def Operation.listed (plugins : Registry) : Operation → String
  | .builtin op => op.mnemonic
  | .plugin id =>
    match plugins.plugin? id with
    | some p => p.name
    | none => id.text

def Operand.listed : Operand → Option String
  | .absent => none
  | .literal v => some v.text
  | .bound id => some ("var#" ++ id.text)
  | .argCount n => some ("argc=" ++ toString n.toNat)
  | .edge none => some "last=-"
  | .edge (some d) => some ("last=" ++ Double.text .plain d)

def Instruction.listed (plugins : Registry) (i : Instruction) : String :=
  let name := i.operation.listed plugins
  match i.operand.listed with
  | none => name
  | some operand => padRight 16 name ++ operand

namespace Program

def listFrom (plugins : Registry) : Nat → List Instruction → String
  | _, [] => ""
  | n, i :: code =>
    padNumber 4 n ++ "  " ++ i.listed plugins ++ "\n" ++ listFrom plugins (n + 1) code

def listing (plugins : Registry) (p : Program) : String :=
  "; " ++ p.source ++ "\n; " ++ toString p.code.length ++ " instructions, " ++
    toString p.bindings.length ++ " bindings" ++ (if p.usesFrame then ", uses CAN data" else "") ++
    "\n" ++ listFrom plugins 0 p.code

end Program

end SignalCalc
