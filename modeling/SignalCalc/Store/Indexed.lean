import SignalCalc.Store.Memory
import Std.Data.HashSet

/-! # The store and its index

A store that is looked into at every step of a run keeps a table of its variables by number, and
beside it an index from names to numbers. Nothing but the operations below keeps the two in step:
what adds a variable writes to both, and what takes the last attachment of one away has to strike it
from both. Counters have 32 bits and start again at 0 when they are exhausted.
-/

namespace SignalCalc

instance : Hashable VarId := ⟨fun id => hash id.val⟩

structure Record where
  name : String
  value : Value
  dataType : DataType
  attachments : UInt32
  pinned : Bool
  conversion : Option Conversion := none
  enums : List (String × Int64) := []
  owner : Option Int32 := none

namespace Record

def put (r : Record) (value : Value) : Record := { r with value := r.dataType.coerce value }

def attach (r : Record) : Record := { r with attachments := r.attachments + 1 }

def detach (r : Record) : Record :=
  { r with attachments := if r.attachments = 0 then 0 else r.attachments - 1 }

end Record

structure IndexedStore where
  slots : Std.HashMap VarId Record := ∅
  byName : Std.HashMap String VarId := ∅
  lastId : UInt32 := 0
  processes : Std.HashMap String ProcessState := ∅
  equations : Std.HashSet UInt64 := ∅

namespace IndexedStore

def lookup (s : IndexedStore) (name : String) : Option VarId := s.byName[name]?

def contains (s : IndexedStore) (name : String) : Bool := s.byName.contains name

/-- Enters a variable into the table and its name into the index. -/
def insert (s : IndexedStore) (r : Record) : VarId × IndexedStore :=
  let lastId := s.lastId + 1
  let id : VarId := ⟨lastId.toNat⟩
  (id,
    { s with lastId := lastId, byName := s.byName.insert r.name id, slots := s.slots.insert id r })

def modify (s : IndexedStore) (id : VarId) (f : Record → Record) : IndexedStore :=
  { s with slots := s.slots.modify id f }

/-- Strikes a variable from the table, and the name that it had there from the index. -/
def remove (s : IndexedStore) (id : VarId) : IndexedStore :=
  match s.slots[id]? with
  | some r => { s with slots := s.slots.erase id, byName := s.byName.erase r.name }
  | none => s

def define (s : IndexedStore) (name : String) (type : DataType) (value : Value) :
    VarId × IndexedStore :=
  let value := type.coerce value
  match s.byName[name]? with
  | some id => (id, s.modify id ({ · with dataType := type, value := value, pinned := true }))
  | none =>
    s.insert { name := name, value := value, dataType := type, attachments := 0, pinned := true }

def withSlot (s : IndexedStore) (name : String) (f : Record → Record) : Bool × IndexedStore :=
  match s.byName[name]? with
  | none => (false, s)
  | some id => (s.slots.contains id, s.modify id f)

def setConversion (s : IndexedStore) (name : String) (c : Conversion) : Bool × IndexedStore :=
  s.withSlot name ({ · with conversion := some c })

def addEnum (s : IndexedStore) (name text : String) (value : Int64) : Bool × IndexedStore :=
  s.withSlot name fun r => { r with enums := r.enums ++ [(text, value)] }

def setProcess (s : IndexedStore) (process : String) (state : ProcessState) : IndexedStore :=
  { s with processes := s.processes.insert process state }

/-- Resolves a name and attaches to its variable. A variable created here holds 0 and belongs to
`owner`. -/
def resolve (name : String) (policy : ExistPolicy) (owner : Option Int32) :
    EStateM BindError IndexedStore Binding := fun s =>
  match s.byName[name]? with
  | some id => .ok ⟨id, false⟩ (s.modify id Record.attach)
  | none =>
    if policy = .mustExist then .error (.notFound name) s
    else
      let (id, s) := s.insert
        { name := name, value := .ofFloat 0.0, dataType := .undeclared, attachments := 1,
          pinned := false, owner := owner }
      .ok ⟨id, true⟩ s

def read (s : IndexedStore) (id : VarId) : Value := (s.slots[id]?.map (·.value)).getD default

def dataType (s : IndexedStore) (id : VarId) : DataType :=
  (s.slots[id]?.map (·.dataType)).getD default

/-- Stores a value as the variable's type keeps it. -/
def write (id : VarId) (value : Value) (_lockHeld : Bool) : EStateM StoreError IndexedStore Unit :=
  fun s =>
    if s.slots.contains id then .ok () (s.modify id (·.put value))
    else .error (.unknownVariable id) s

def attach (id : VarId) (s : IndexedStore) : IndexedStore := s.modify id Record.attach

/-- Gives one attachment back. The last one takes a variable with it that is not pinned. -/
def detach (id : VarId) (s : IndexedStore) : IndexedStore :=
  let s := s.modify id Record.detach
  match s.slots[id]? with
  | some r => if r.attachments = 0 && !r.pinned then s.remove id else s
  | none => s

def conversion? (s : IndexedStore) (id : VarId) : Except StoreError (Record × Conversion) :=
  match s.slots[id]? with
  | none => .error (.unknownVariable id)
  | some r =>
    match r.conversion with
    | some c => .ok (r, c)
    | none => .error (.noConversion id)

def readPhysical (s : IndexedStore) (id : VarId) : Except StoreError Float :=
  (s.conversion? id).map fun (r, c) => r.value.toFloat * c.factor + c.offset

def writePhysical (id : VarId) (value : Float) (_lockHeld : Bool) :
    EStateM StoreError IndexedStore Unit := fun s =>
  match s.conversion? id with
  | .error e => .error e s
  | .ok (_, c) =>
    if c.factor == 0.0 then .error (.noConversion id) s
    else .ok () (s.modify id (·.put (.ofFloat ((value - c.offset) / c.factor))))

def hasConversion (s : IndexedStore) (id : VarId) : Bool :=
  (s.slots[id]?.bind (·.conversion)).isSome

def enumValue? (s : IndexedStore) (id : VarId) (text : String) : Option Int64 :=
  s.slots[id]?.bind fun r => (r.enums.find? (·.1 = text)).map (·.2)

def processState (s : IndexedStore) (process : String) : ProcessState :=
  s.processes[process]?.getD .unknown

def attachEquation (n : UInt64) (s : IndexedStore) : IndexedStore :=
  { s with equations := s.equations.insert n }

def detachEquation (n : UInt64) (s : IndexedStore) : IndexedStore :=
  { s with equations := s.equations.erase n }

instance : VariableStore IndexedStore where
  lookup := lookup
  resolve := resolve
  read := read
  write := write
  attach := attach
  detach := detach
  dataType := dataType
  hasConversion := hasConversion
  readPhysical := readPhysical
  writePhysical := writePhysical
  enumValue? := enumValue?
  processState := processState
  attachEquation := attachEquation
  detachEquation := detachEquation

end IndexedStore

end SignalCalc
