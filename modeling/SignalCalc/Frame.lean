namespace SignalCalc

structure Frame where
  id : UInt32
  data : List UInt8
  previous : List UInt8
  cycles : UInt32 := 0
  cyclic : Bool := false
deriving DecidableEq, Repr

namespace Frame

def size (f : Frame) : Nat := f.data.length

/-- The number whose bytes are given, least significant first. -/
def littleEndian : List UInt8 → Nat
  | [] => 0
  | b :: bs => b.toNat + 256 * littleEndian bs

/-- The number in the `index`-th group of `bytes` bytes. An index past the end means the last
complete group, and without one the number is 0. -/
def unit (f : Frame) (bytes index : Nat) : Nat :=
  let groups := f.data.length / bytes
  if groups = 0 then 0
  else littleEndian ((f.data.drop (min index (groups - 1) * bytes)).take bytes)

def byte (f : Frame) (index : UInt64) : UInt64 := UInt64.ofNat (f.unit 1 index.toNat)

def word (f : Frame) (index : UInt64) : UInt64 := UInt64.ofNat (f.unit 2 index.toNat)

def dword (f : Frame) (index : UInt64) : UInt64 := UInt64.ofNat (f.unit 4 index.toNat)

/-- The range of positions that `start` and `size` select: the whole payload unless both make sense,
and nothing once `start` is past the end. -/
def range? (f : Frame) (start size : Int64) : Option (Nat × Nat) :=
  if size ≤ 0 ∨ start < 0 then some (0, f.data.length)
  else
    let first := start.toInt.toNat
    if first < f.data.length then some (first, min (first + size.toInt.toNat) f.data.length)
    else none

/-- Whether the selected range differs from the previous payload, or reaches beyond it. -/
def changed (f : Frame) (start size : Int64) : Bool :=
  match f.range? start size with
  | none => false
  | some (first, last) =>
    (((f.data.take last).drop first).zip (f.previous.drop first)).any (fun (a, b) => a != b) ||
      f.previous.length < last

end Frame

end SignalCalc
