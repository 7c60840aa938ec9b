import SignalCalc.DataType

namespace SignalCalc

structure VarId where
  val : Nat
deriving DecidableEq, Repr

def VarId.text (id : VarId) : String := toString id.val

inductive ExistPolicy where
  /-- Refuse it. -/
  | mustExist
  /-- Create the variable and warn. -/
  | shouldExist
  /-- Create the variable. -/
  | createIfMissing
deriving DecidableEq, Repr

def ExistPolicy.names : List (ExistPolicy × String) :=
  [(.mustExist, "MustExist"), (.shouldExist, "ShouldExist"), (.createIfMissing, "CreateIfMissing")]

/-- A resolved name. The holder owns one attachment. -/
structure Binding where
  id : VarId
  created : Bool
deriving DecidableEq, Repr

inductive ProcessState where
  | unknown
  | reference
  | init
  | running
  | terminating
deriving DecidableEq, Repr, Inhabited

def ProcessState.names : List (ProcessState × String) :=
  [(.unknown, "Unknown"), (.reference, "Reference"), (.init, "Init"), (.running, "Running"),
    (.terminating, "Terminating")]

def ProcessState.code : ProcessState → Nat
  | .unknown => 0
  | .reference => 1
  | .init => 2
  | .running => 3
  | .terminating => 4

inductive BindError where
  | notFound (name : String)
  | rejected (name reason : String)
deriving DecidableEq, Repr

def BindError.message : BindError → String
  | .notFound name => "variable \"" ++ name ++ "\" does not exist"
  | .rejected name reason => "variable \"" ++ name ++ "\" cannot be created: " ++ reason

inductive StoreError where
  | unknownVariable (id : VarId)
  | noConversion (id : VarId)
deriving DecidableEq, Repr

def StoreError.message : StoreError → String
  | .unknownVariable id => "unknown variable id " ++ id.text
  | .noConversion id => "variable id " ++ id.text ++ " has no conversion"

/-- A database of named values. Writes carry the caller's word on whether it already holds the
store's lock. -/
class VariableStore (σ : Type) where
  /-- The number of a known variable; nothing is attached. -/
  lookup : σ → String → Option VarId
  /-- Resolves a name and attaches to the variable. -/
  resolve : String → ExistPolicy → Option Int32 → EStateM BindError σ Binding
  read : σ → VarId → Value
  write : VarId → Value → Bool → EStateM StoreError σ Unit
  attach : VarId → σ → σ
  detach : VarId → σ → σ
  dataType : σ → VarId → DataType
  hasConversion : σ → VarId → Bool := fun _ _ => false
  readPhysical : σ → VarId → Except StoreError Float := fun _ id => .error (.noConversion id)
  writePhysical : VarId → Float → Bool → EStateM StoreError σ Unit :=
    fun id _ _ => throw (.noConversion id)
  enumValue? : σ → VarId → String → Option Int64 := fun _ _ _ => none
  processState : σ → String → ProcessState := fun _ _ => .unknown
  /-- Notes that a program with this registration came to life. -/
  attachEquation : UInt64 → σ → σ := fun _ s => s
  /-- Notes that a program with this registration is gone. -/
  detachEquation : UInt64 → σ → σ := fun _ s => s

end SignalCalc
