import SignalCalc.Builtin
import SignalCalc.Frame
import SignalCalc.Instruction
import SignalCalc.Stack
import Std.Data.HashMap

/-! # Plugins

A plugin is a function that a host adds to the language. The registry gives plugins their numbers in
the order of registration, from 256 on, and never moves one.
-/

namespace SignalCalc

structure PluginCall where
  frame : Option Frame
  parameter : Value
  instruction : Instruction

def PluginCall.requireFrame (call : PluginCall) (plugin : String) : StackM Frame :=
  match call.frame with
  | some f => pure f
  | none => throw (.plugin plugin "no CAN frame in this execution")

/-- A registered function. It takes its arguments from the stack and leaves its result there. -/
structure Plugin where
  name : String
  id : OpcodeId
  least : UInt8
  most : UInt8
  flags : UInt32
  body : PluginCall → StackM Unit

namespace Plugin

def accepts (p : Plugin) (count : Nat) : Bool := p.least.toNat ≤ count && count ≤ p.most.toNat

/-- Whether the plugin looks at the frame, so that it is gated like the frame functions. -/
def usesFrame (p : Plugin) : Bool := p.flags &&& 1 != 0

def arity (p : Plugin) : Arity :=
  if p.least = p.most then .exactly p.least else .between p.least p.most

end Plugin

inductive RegistryError where
  | duplicate (name : String)
  | invalidName (name : String)
  | invalidArity (least most : UInt8)
  | full
deriving DecidableEq, Repr

def RegistryError.message : RegistryError → String
  | .duplicate name => "function \"" ++ name ++ "\" is already registered"
  | .invalidName name => "\"" ++ name ++ "\" is not a valid function name"
  | .invalidArity least most =>
    "invalid parameter range " ++ toString least.toNat ++ "..=" ++ toString most.toNat
  | .full => "plugin opcode table is full"

/-- Whether a text is a letter or underscore followed by letters, digits and underscores. -/
def isFunctionName (name : String) : Bool :=
  match name.toList with
  | [] => false
  | c :: cs => (c.isAlpha || c == '_') && cs.all fun c => c.isAlphanum || c == '_'

structure Registry where
  plugins : Array Plugin := #[]
  ids : Std.HashMap String OpcodeId := ∅

namespace Registry

def capacity : Nat := 65536 - OpcodeId.pluginBase

def empty : Registry := {}

instance : Inhabited Registry := ⟨empty⟩

def size (r : Registry) : Nat := r.plugins.size

def isEmpty (r : Registry) : Bool := r.plugins.isEmpty

/-- Adds a plugin and gives it the next number. A refused plugin leaves the registry as it is. -/
def register (name : String) (least most : UInt8) (flags : UInt32)
    (body : PluginCall → StackM Unit) : EStateM RegistryError Registry OpcodeId := fun r =>
  if !isFunctionName name then .error (.invalidName name) r
  else if isReserved name || r.ids.contains name then .error (.duplicate name) r
  else if most < least ∨ maxArguments < most.toNat then .error (.invalidArity least most) r
  else if capacity ≤ r.size then .error .full r
  else
    let id : OpcodeId := ⟨UInt16.ofNat (OpcodeId.pluginBase + r.size)⟩
    .ok id ⟨r.plugins.push ⟨name, id, least, most, flags, body⟩, r.ids.insert name id⟩

def plugin? (r : Registry) (id : OpcodeId) : Option Plugin :=
  id.pluginIndex?.bind fun i => r.plugins[i]?

def id? (r : Registry) (name : String) : Option OpcodeId := r.ids[name]?

def lookup? (r : Registry) (name : String) : Option Plugin := (r.id? name).bind r.plugin?

def call (r : Registry) (id : OpcodeId) (c : PluginCall) : StackM Unit :=
  match r.plugin? id with
  | some p => p.body c
  | none => throw (.unknownPlugin id)

end Registry

/-- A function of any kind by name: the number of the operation that a call becomes, and whether so
many arguments are accepted. -/
def resolveFunction? (plugins : Registry) (name : String) (count : Nat) :
    Option (OpcodeId × Bool) :=
  match Builtin.lookup? name with
  | some b => some (b.op.id, b.arity.admits count)
  | none =>
    match Special.row? name with
    | some (_, _, op, arity) => some (op.id, arity.admits count)
    | none => (plugins.lookup? name).map fun p => (p.id, p.accepts count)

end SignalCalc
