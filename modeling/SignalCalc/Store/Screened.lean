import SignalCalc.Store.Memory

/-! # A store that screens names

`ScreenedStore` stands in front of a `MemoryStore`, refuses names that start with `reject`, and
remembers what the last write said about the lock. It offers no optional operation, so that for it
conversions, enumeration texts, processes and registrations do not exist.
-/

namespace SignalCalc

/-- A store in memory behind a screen. -/
structure ScreenedStore where
  inner : MemoryStore := {}
  lastLock : Option Bool := none
deriving Repr, Inhabited

namespace ScreenedStore

def refuses (name : String) : Bool := "reject".toList.isPrefixOf name.toList

def resolve (name : String) (policy : ExistPolicy) (owner : Option Int32) :
    EStateM BindError ScreenedStore Binding := fun s =>
  if refuses name then .error (.rejected name "refused") s
  else
    match MemoryStore.resolve name policy owner s.inner with
    | .ok binding inner => .ok binding { s with inner := inner }
    | .error e inner => .error e { s with inner := inner }

def write (id : VarId) (value : Value) (lockHeld : Bool) : EStateM StoreError ScreenedStore Unit :=
  fun s =>
    match MemoryStore.write id value lockHeld s.inner with
    | .ok _ inner => .ok () ⟨inner, some lockHeld⟩
    | .error e inner => .error e ⟨inner, some lockHeld⟩

instance : VariableStore ScreenedStore where
  lookup s name := s.inner.lookup name
  resolve := resolve
  read s id := s.inner.read id
  write := write
  attach id s := { s with inner := s.inner.attach id }
  detach id s := { s with inner := s.inner.detach id }
  dataType s id := s.inner.dataType id

end ScreenedStore

end SignalCalc
