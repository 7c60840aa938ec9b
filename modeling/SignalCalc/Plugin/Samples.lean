import SignalCalc.Plugin

/-! # Sample plugins

A registry with one plugin for each way in which a plugin can treat the stack, the frame, the
parameter and its own instruction, including those that break the rule of leaving one result.
-/

namespace SignalCalc.Plugin.Samples

def twice (_ : PluginCall) : StackM Unit := do
  let v ← Stack.pop
  Stack.push (.ofFloat (v.toFloat * 2.0))

def difference (_ : PluginCall) : StackM Unit := do
  let (a, b) ← Stack.pop2
  Stack.push (.ofFloat (a.toFloat - b.toFloat))

/-- The number seven; arguments, if any, stay on the stack. -/
def seven (_ : PluginCall) : StackM Unit := Stack.push (.ofUInt64 7)

def offline (_ : PluginCall) : StackM Unit := throw (.plugin "p_fail" "sensor offline")

def frameSize (call : PluginCall) : StackM Unit := do
  let frame ← call.requireFrame "p_frame_size"
  let v ← Stack.pop
  Stack.push (.ofUInt64 (UInt64.ofNat frame.size + v.toUInt64))

def parameter (call : PluginCall) : StackM Unit := Stack.push call.parameter

def ownNumber (call : PluginCall) : StackM Unit :=
  Stack.push (.ofUInt64 call.instruction.operation.id.val.toUInt64)

def nothing (_ : PluginCall) : StackM Unit := pure ()

def swallow (_ : PluginCall) : StackM Unit := do
  let _ ← Stack.pop
  pure ()

/-- Pushes `count` ascending numbers from `next` on. There is room for no more than the stack holds,
so the count is cut just beyond it. -/
def pushFrom (next : Nat) : Nat → StackM Unit
  | 0 => pure ()
  | count + 1 => do
    Stack.push (.ofUInt64 (UInt64.ofNat next))
    pushFrom (next + 1) count

def fill (_ : PluginCall) : StackM Unit := do
  let n ← Stack.pop
  pushFrom 0 (min n.toUInt64.toNat (stackCapacity + 1))

/-- Names, argument counts, flags and bodies. -/
def table : List (String × UInt8 × UInt8 × UInt32 × (PluginCall → StackM Unit)) :=
  [("p_twice", 1, 1, 0, twice), ("p_diff", 2, 2, 0, difference), ("p_seven", 0, 0, 0, seven),
    ("p_fail", 0, 0, 0, offline), ("p_frame_size", 1, 1, 1, frameSize),
    ("p_param", 0, 0, 0, parameter), ("p_opcode", 0, 0, 0, ownNumber),
    ("p_range", 1, 3, 0, nothing), ("p_nothing", 0, 0, 2, nothing), ("p_pop", 0, 0, 0, swallow),
    ("p_fill", 1, 1, 0, fill), ("p_any", 0, 32, 5, seven)]

def registry : Registry :=
  table.foldl
    (fun r (name, least, most, flags, body) =>
      match Registry.register name least most flags body r with
      | .ok _ r => r
      | .error _ r => r)
    .empty

end SignalCalc.Plugin.Samples
