import SignalCalc.Json.Reading
import SignalCalc.Options

/-! # Options as JSON -/

namespace SignalCalc

def Scalar.toJson : Scalar → Json
  | .signed i => .object [("I64", .integer i.toInt)]
  | .unsigned n => .object [("U64", .integer n.toNat)]
  | .real d => .object [("F64", .real d)]

def Scalar.ofJson? (j : Json) : Option Scalar :=
  match j.variant? with
  | some ("I64", j) =>
    (j.integerIn? Int64.minValue.toInt Int64.maxValue.toInt).map fun i => .signed (Int64.ofInt i)
  | some ("U64", j) =>
    (j.integerIn? 0 Numeral.wordMax).map fun i => .unsigned (UInt64.ofNat i.toNat)
  | some ("F64", j) => j.real?.map .real
  | _ => none

def Value.toJson (v : Value) : Json :=
  .object [("value", v.scalar.toJson), ("width", .integer v.width.toNat)]

def Value.ofJson? (j : Json) : Option Value :=
  match j.fields? ["value", "width"] with
  | some [some scalar, some width] => do
    let scalar ← Scalar.ofJson? scalar
    let width ← width.integerIn? 0 255
    return ⟨scalar, UInt8.ofNat width.toNat⟩
  | _ => none

def MissingVariables.toJson (m : MissingVariables) : Json := .text m.name

def MissingVariables.ofJson? (j : Json) : Option MissingVariables :=
  match j.variant? with
  | some (name, .null) => ofName? name
  | _ => none

def Placeholder.toJson : Placeholder → Json
  | .forbidden => .text "None"
  | .parameter => .text "Parameter"
  | .value v => .object [("Value", v.toJson)]
  | .named name => .object [("Variable", .text name)]

def Placeholder.ofJson? (j : Json) : Option Placeholder :=
  match j.variant? with
  | some ("None", .null) => some .forbidden
  | some ("Parameter", .null) => some .parameter
  | some ("Value", j) => (Value.ofJson? j).map .value
  | some ("Variable", j) => j.text?.map .named
  | _ => none

def Replacement.toJson (r : Replacement) : Json :=
  .object [("name", .text r.name), ("value", r.value.toJson)]

def Replacement.ofJson? (j : Json) : Option Replacement :=
  match j.fields? ["name", "value"] with
  | some [some name, some value] => do return ⟨← name.text?, ← Value.ofJson? value⟩
  | _ => none

namespace Options

/-- The fields of options, in the order in which they are written. -/
def fieldNames : List String :=
  ["missing_variables", "can_commands", "script_locals", "placeholder", "owner_pid", "lock_held",
    "replace_variable"]

def toJson (o : Options) : Json :=
  .object (fieldNames.zip
    [o.missing.toJson, .bool o.frameFunctions, .bool o.scriptLocals, o.placeholder.toJson,
      o.owner.elim .null fun pid => .integer pid.toInt, .bool o.lockHeld,
      o.replacement.elim .null Replacement.toJson])

def owner? (j : Json) : Option Int32 :=
  (j.integerIn? Int32.minValue.toInt Int32.maxValue.toInt).map Int32.ofInt

def field {α : Type} (read : Json → Option α) (default : α) : Option Json → Option α
  | none => some default
  | some j => read j

def ofJson? (j : Json) : Option Options :=
  match j.fields? fieldNames with
  | some [missing, frameFunctions, scriptLocals, placeholder, owner, lockHeld, replacement] => do
    let start : Options := {}
    return {
      missing := ← field MissingVariables.ofJson? start.missing missing
      frameFunctions := ← field Json.bool? start.frameFunctions frameFunctions
      scriptLocals := ← field Json.bool? start.scriptLocals scriptLocals
      placeholder := ← field Placeholder.ofJson? start.placeholder placeholder
      owner := ← field (Json.optional? owner?) start.owner owner
      lockHeld := ← field Json.bool? start.lockHeld lockHeld
      replacement := ← field (Json.optional? Replacement.ofJson?) start.replacement replacement }
  | _ => none

def render (o : Options) : String := o.toJson.render

def ofText? (s : String) : Option Options := (Json.ofText? s).bind ofJson?

end Options

end SignalCalc
