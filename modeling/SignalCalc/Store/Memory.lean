import SignalCalc.Store

/-! # The store in memory

`MemoryStore` keeps its variables in a list of slots. A declared variable is pinned and stays; a
variable that came to be by resolving its name goes with its last attachment. Numbers are handed out
in ascending order and never twice. Neither numbers nor counts of attachments have a bound here. In a
store that has 32 bits for each (`IndexedStore`) all is the same until one of them runs out, for which
it takes as many requests.
-/

namespace SignalCalc

/-- A linear conversion: `physical = raw * factor + offset`. -/
structure Conversion where
  factor : Float
  offset : Float
deriving Repr

structure Slot where
  id : VarId
  name : String
  value : Value
  dataType : DataType
  attachments : Nat
  /-- Declared by the host, so that it outlives its attachments. -/
  pinned : Bool
  conversion : Option Conversion := none
  enums : List (String × Int64) := []
  owner : Option Int32 := none
deriving Repr

def Slot.put (slot : Slot) (value : Value) : Slot :=
  { slot with value := slot.dataType.coerce value }

structure MemoryStore where
  slots : List Slot := []
  lastId : Nat := 0
  processes : List (String × ProcessState) := []
  /-- Registrations of live programs, ascending. -/
  equations : List UInt64 := []
deriving Repr, Inhabited

namespace MemoryStore

def named? (s : MemoryStore) (name : String) : Option Slot := s.slots.find? (·.name = name)

def slot? (s : MemoryStore) (id : VarId) : Option Slot := s.slots.find? (·.id = id)

def lookup (s : MemoryStore) (name : String) : Option VarId := (s.named? name).map (·.id)

def update (s : MemoryStore) (id : VarId) (f : Slot → Slot) : MemoryStore :=
  { s with slots := s.slots.map fun slot => if slot.id = id then f slot else slot }

def freshId (s : MemoryStore) : VarId := ⟨s.lastId + 1⟩

def insert (s : MemoryStore) (slot : VarId → Slot) : MemoryStore :=
  { s with slots := s.slots ++ [slot s.freshId], lastId := s.lastId + 1 }

def define (s : MemoryStore) (name : String) (type : DataType) (value : Value) :
    VarId × MemoryStore :=
  let value := type.coerce value
  match s.lookup name with
  | some id => (id, s.update id ({ · with dataType := type, value := value, pinned := true }))
  | none =>
    (s.freshId,
      s.insert fun id =>
        { id := id, name := name, value := value, dataType := type, attachments := 0,
          pinned := true })

def updateNamed (s : MemoryStore) (name : String) (f : Slot → Slot) : Bool × MemoryStore :=
  match s.lookup name with
  | some id => (true, s.update id f)
  | none => (false, s)

def setConversion (s : MemoryStore) (name : String) (c : Conversion) : Bool × MemoryStore :=
  s.updateNamed name ({ · with conversion := some c })

def addEnum (s : MemoryStore) (name text : String) (value : Int64) : Bool × MemoryStore :=
  s.updateNamed name fun slot => { slot with enums := slot.enums ++ [(text, value)] }

def setProcess (s : MemoryStore) (process : String) (state : ProcessState) : MemoryStore :=
  { s with processes := (process, state) :: s.processes.filter (·.1 ≠ process) }

def contains (s : MemoryStore) (name : String) : Bool := (s.named? name).isSome

def size (s : MemoryStore) : Nat := s.slots.length

def isEmpty (s : MemoryStore) : Bool := s.slots.isEmpty

def liveEquations (s : MemoryStore) : List UInt64 := s.equations

/-- Resolves a name and attaches to its variable. A variable created here holds 0 and belongs to
`owner`. -/
def resolve (name : String) (policy : ExistPolicy) (owner : Option Int32) :
    EStateM BindError MemoryStore Binding := fun s =>
  match s.lookup name with
  | some id =>
    .ok ⟨id, false⟩ (s.update id fun slot => { slot with attachments := slot.attachments + 1 })
  | none =>
    if policy = .mustExist then .error (.notFound name) s
    else
      .ok ⟨s.freshId, true⟩
        (s.insert fun id =>
          { id := id, name := name, value := .ofFloat 0.0, dataType := .undeclared,
            attachments := 1, pinned := false, owner := owner })

/-- The value of a variable; what is not there reads as the double 0. -/
def read (s : MemoryStore) (id : VarId) : Value := ((s.slot? id).map (·.value)).getD default

def dataType (s : MemoryStore) (id : VarId) : DataType :=
  ((s.slot? id).map (·.dataType)).getD default

/-- Stores a value as the variable's type keeps it. -/
def write (id : VarId) (value : Value) (_lockHeld : Bool) : EStateM StoreError MemoryStore Unit :=
  fun s =>
    match s.slot? id with
    | some _ => .ok () (s.update id (·.put value))
    | none => .error (.unknownVariable id) s

def attach (id : VarId) (s : MemoryStore) : MemoryStore :=
  s.update id fun slot => { slot with attachments := slot.attachments + 1 }

/-- Gives one attachment back. The last one takes a variable with it that is not pinned. -/
def detach (id : VarId) (s : MemoryStore) : MemoryStore :=
  match s.slot? id with
  | some slot =>
    if slot.attachments ≤ 1 ∧ slot.pinned = false then
      { s with slots := s.slots.filter (·.id ≠ id) }
    else s.update id fun slot => { slot with attachments := slot.attachments - 1 }
  | none => s

def conversion? (s : MemoryStore) (id : VarId) : Except StoreError (Slot × Conversion) :=
  match s.slot? id with
  | none => .error (.unknownVariable id)
  | some slot =>
    match slot.conversion with
    | some c => .ok (slot, c)
    | none => .error (.noConversion id)

def readPhysical (s : MemoryStore) (id : VarId) : Except StoreError Float :=
  (s.conversion? id).map fun (slot, c) => slot.value.toFloat * c.factor + c.offset

/-- Stores a converted value. A conversion by the factor 0 cannot be undone. -/
def writePhysical (id : VarId) (value : Float) (_lockHeld : Bool) :
    EStateM StoreError MemoryStore Unit := fun s =>
  match s.conversion? id with
  | .error e => .error e s
  | .ok (_, c) =>
    if c.factor == 0.0 then .error (.noConversion id) s
    else .ok () (s.update id (·.put (.ofFloat ((value - c.offset) / c.factor))))

def hasConversion (s : MemoryStore) (id : VarId) : Bool :=
  ((s.slot? id).bind (·.conversion)).isSome

/-- The number behind an enumeration text; the text added first counts. -/
def enumValue? (s : MemoryStore) (id : VarId) (text : String) : Option Int64 :=
  (s.slot? id).bind fun slot => (slot.enums.find? (·.1 = text)).map (·.2)

def processState (s : MemoryStore) (process : String) : ProcessState :=
  ((s.processes.find? (·.1 = process)).map (·.2)).getD .unknown

def insertAscending (n : UInt64) : List UInt64 → List UInt64
  | [] => [n]
  | m :: ms => if n < m then n :: m :: ms else if n = m then m :: ms else m :: insertAscending n ms

def attachEquation (n : UInt64) (s : MemoryStore) : MemoryStore :=
  { s with equations := insertAscending n s.equations }

def detachEquation (n : UInt64) (s : MemoryStore) : MemoryStore :=
  { s with equations := s.equations.filter (· ≠ n) }

instance : VariableStore MemoryStore where
  lookup := lookup
  resolve := resolve
  read := read
  write := write
  attach := attach
  detach := detach
  dataType := dataType
  hasConversion := hasConversion
  readPhysical := readPhysical
  writePhysical := writePhysical
  enumValue? := enumValue?
  processState := processState
  attachEquation := attachEquation
  detachEquation := detachEquation

end MemoryStore

end SignalCalc
