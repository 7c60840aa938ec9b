import SignalCalc.Store

namespace SignalCalc

inductive MissingVariables where
  | autoCreate
  /-- As before, and an evaluation removes what it created. -/
  | autoCreateThenRemove
  /-- Reading creates, writing creates and warns. -/
  | warnOnWrite
  /-- Reading creates, writing fails. -/
  | stopOnWrite
  /-- Reading and writing create and warn. -/
  | warnOnAccess
  /-- Reading and writing fail. -/
  | stopOnAccess
deriving DecidableEq, Repr, Inhabited

namespace MissingVariables

def names : List (MissingVariables × String) :=
  [(.autoCreate, "AutoCreate"), (.autoCreateThenRemove, "AutoCreateThenRemove"),
    (.warnOnWrite, "WarnOnWrite"), (.stopOnWrite, "StopOnWrite"),
    (.warnOnAccess, "WarnOnAccess"), (.stopOnAccess, "StopOnAccess")]

def name (m : MissingVariables) : String := ((names.find? (·.1 = m)).map (·.2)).getD ""

def ofName? (name : String) : Option MissingVariables := (names.find? (·.2 = name)).map (·.1)

/-- The treatment of a numeric mode in old configurations. -/
def ofMode? : Int → Option MissingVariables
  | 0 => some .warnOnWrite
  | 1 => some .autoCreate
  | 2 => some .autoCreateThenRemove
  | 3 => some .stopOnWrite
  | 4 => some .warnOnAccess
  | 5 => some .stopOnAccess
  | _ => none

def readPolicy : MissingVariables → ExistPolicy
  | .autoCreate | .autoCreateThenRemove | .warnOnWrite | .stopOnWrite => .createIfMissing
  | .warnOnAccess => .shouldExist
  | .stopOnAccess => .mustExist

def writePolicy : MissingVariables → ExistPolicy
  | .autoCreate | .autoCreateThenRemove => .createIfMissing
  | .warnOnWrite | .warnOnAccess => .shouldExist
  | .stopOnWrite | .stopOnAccess => .mustExist

def removesCreated : MissingVariables → Bool
  | .autoCreateThenRemove => true
  | _ => false

end MissingVariables

/-- The meaning of `#` and `$`. -/
inductive Placeholder where
  | forbidden
  | parameter
  | value (v : Value)
  | named (name : String)
deriving Repr, Inhabited

structure Replacement where
  name : String
  value : Value
deriving Repr

structure Options where
  missing : MissingVariables := .autoCreate
  frameFunctions : Bool := false
  scriptLocals : Bool := false
  placeholder : Placeholder := .forbidden
  owner : Option Int32 := none
  lockHeld : Bool := false
  replacement : Option Replacement := none
deriving Repr, Inhabited

/-- Local variables of a script, and references to variables of the store. -/
structure Scope where
  values : List (String × Value) := []
  references : List (String × String) := []
deriving Repr, Inhabited

namespace Scope

def read? (s : Scope) (name : String) : Option Value :=
  (s.values.find? (·.1 = name)).map (·.2)

/-- Assigns to a local variable, if there is one of that name. -/
def write? (s : Scope) (name : String) (v : Value) : Option Scope :=
  if (s.read? name).isSome then
    some { s with values := s.values.map fun (n, old) => if n = name then (n, v) else (n, old) }
  else none

def dereference? (s : Scope) (name : String) : Option String :=
  (s.references.find? (·.1 = name)).map (·.2)

end Scope

structure Host where
  fileExists : String → Bool
  environmentSet : String → Bool

namespace Host

def steps : List Char → List (List Char)
  | [] => [[]]
  | '/' :: cs => [] :: steps cs
  | c :: cs =>
    match steps cs with
    | [] => [[c]]
    | step :: rest => (c :: step) :: rest

/-- A host with a root directory, which is also the working directory, without files in it and
without environment variables. A path exists when each of its steps stays where it is. -/
def bare : Host where
  fileExists path :=
    path != "" && (steps path.toList).all fun step => step ∈ [[], ['.'], ['.', '.']]
  environmentSet _ := false

end Host

end SignalCalc
