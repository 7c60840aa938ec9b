import SignalCalc.RunError

/-! # The evaluation stack

A stack of at most `stackCapacity` values. Its operations run in `StackM`, where a failed operation
keeps what it had done: taking two values from a stack of one removes that one.
-/

namespace SignalCalc

/-- A bounded stack, the topmost entry first. -/
@[ext] structure Stack where
  entries : List Value
  bounded : entries.length ≤ stackCapacity := by decide

abbrev StackM := EStateM RunError Stack

namespace Stack

def empty : Stack where
  entries := []

instance : Inhabited Stack := ⟨empty⟩

def size (s : Stack) : Nat := s.entries.length

def isEmpty (s : Stack) : Bool := s.entries.isEmpty

def top? (s : Stack) : Option Value := s.entries.head?

def bottom? (s : Stack) : Option Value := s.entries.getLast?

def push (v : Value) : StackM Unit := fun s =>
  if h : s.entries.length < stackCapacity then .ok () ⟨v :: s.entries, h⟩
  else .error .stackOverflow s

def pop : StackM Value := fun s =>
  match s with
  | ⟨[], h⟩ => .error .stackUnderflow ⟨[], h⟩
  | ⟨v :: vs, h⟩ => .ok v ⟨vs, Nat.le_of_succ_le h⟩

/-- Takes two values and gives them in the order in which they were pushed. -/
def pop2 : StackM (Value × Value) := do
  let b ← pop
  let a ← pop
  return (a, b)

/-- Takes the `n` topmost values, or none, and gives them in the order in which they were pushed. -/
def popMany (n : Nat) : StackM (List Value) := fun s =>
  if n ≤ s.entries.length then
    .ok (s.entries.take n).reverse
      ⟨s.entries.drop n, Nat.le_trans (by simp) s.bounded⟩
  else .error .stackUnderflow s

def peek : StackM Value := fun s =>
  match s.entries with
  | [] => .error .stackUnderflow s
  | v :: _ => .ok v s

def swap : StackM Unit := fun s =>
  match s with
  | ⟨a :: b :: vs, h⟩ => .ok () ⟨b :: a :: vs, h⟩
  | _ => .error .stackUnderflow s

def clear : StackM Unit := fun _ => .ok () empty

end Stack

end SignalCalc
