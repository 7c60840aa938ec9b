import SignalCalc.Proofs.Machine.StackUse
import SignalCalc.Proofs.Plugin.Growth
import SignalCalc.Script.Reading

/-! # What reading lists

Not every list of actions can come from an equation. Here are the kinds of actions that the walks
through the productions distinguish: their use of the stack, the questions that must not be put
without a demand, and the part that the frame has in them; and what the tables of the language say
of its operators, signs and functions in these respects.
-/

namespace SignalCalc

/-! ## Actions -/

/-- The use of the stack by an action. A plugin is taken to replace its arguments by a result. -/
def Action.use : Action → StackUse
  | .push _ | .enumText .. | .query .. => ⟨0, 1⟩
  | .operate op => ⟨op.takes 0, op.gives⟩
  | .access op _ => ⟨op.takes, 1⟩
  | .follow _ | .demand .. => ⟨0, 0⟩
  | .invoke i count _ =>
    match i.operation with
    | .builtin _ => i.use
    | .plugin _ => ⟨count, 1⟩
  | .compareText bounded .. => ⟨if bounded then 1 else 0, 1⟩

def Action.isPlugin : Action → Bool
  | .invoke i _ _ => i.isPlugin
  | _ => false

/-- A call with so many arguments, of a built-in function or of a plugin. -/
inductive Called : Instruction → Nat → Bool → Prop where
  | builtin {b : Builtin} {count : Nat} (hb : b ∈ Builtin.table)
      (hcount : b.arity.admits count = true) :
      Called (b.instruction count) count (b.gate = .frame)
  | plugin (id : OpcodeId) (count : Nat) (usesFrame : Bool) :
      Called ⟨.plugin id, .absent⟩ count usesFrame

/-- An action as reading an equation lists it. -/
def Action.Listed : Action → Prop
  | .operate op => op.fits .absent = true
  | .invoke i count usesFrame => Called i count usesFrame
  | _ => True

/-- Questions and comparisons stand behind a demand for an immediate answer. -/
def Guarded : List Action → Prop
  | [] | .demand .immediate _ :: _ => True
  | .query .. :: _ | .compareText .. :: _ => False
  | _ :: actions => Guarded actions

theorem Guarded.append {first second : List Action} (h₁ : Guarded first) (h₂ : Guarded second) :
    Guarded (first ++ second) := by
  induction first with
  | nil => exact h₂
  | cons a first ih =>
    cases a with
    | demand d function =>
      cases d with
      | immediate => trivial
      | frame | memory => exact ih h₁
    | query q subject => exact h₁
    | compareText bounded ignoreCase left right => exact h₁
    | push v | operate op | access op target | follow r | invoke i count frame | enumText n t =>
      exact ih h₁

/-! ## The table of functions -/

/-- A function's operation has an operand that fits, takes as many entries as the function has
arguments, and gives one. The comparison with a tolerance takes three, however it is called. -/
theorem Builtin.instruction_use : ∀ b ∈ Builtin.table, ∀ count ≤ maxArguments,
    b.arity.admits count = true → (b.instruction count).fits = true ∧
      (b.instruction count).use = ⟨if b.op = .math .near then 3 else count, 1⟩ := by
  decide +kernel

/-- The comparison with a tolerance is called with two arguments or with three. -/
theorem Builtin.near_count : ∀ b ∈ Builtin.table, ∀ count ≤ maxArguments,
    b.arity.admits count = true → b.op = .math .near → count = 2 ∨ count = 3 := by
  decide +kernel

/-- No function accesses a variable, so that no call is bound to one. -/
theorem Builtin.instruction_binding? : ∀ b ∈ Builtin.table, ∀ count,
    (b.instruction count).binding? = none := by
  intro b _ count
  unfold Instruction.binding? Builtin.instruction
  dsimp only
  split
  · next id h => split at h <;> (try split at h) <;> cases h
  · rfl

theorem Arity.le_maxArguments {a : Arity} {count : Nat} (h : a.admits count = true) :
    count ≤ maxArguments := by
  simp only [Arity.admits, Bool.and_eq_true, decide_eq_true_eq] at h
  exact h.1

theorem Called.binding? {i : Instruction} {count : Nat} {usesFrame : Bool}
    (h : Called i count usesFrame) : i.binding? = none := by
  cases h with
  | builtin hb _ => exact Builtin.instruction_binding? _ hb _
  | plugin id count usesFrame => rfl

theorem Called.fits {i : Instruction} {count : Nat} {usesFrame : Bool}
    (h : Called i count usesFrame) : i.fits = true := by
  cases h with
  | builtin hb hcount =>
    exact (Builtin.instruction_use _ hb _ (Arity.le_maxArguments hcount) hcount).1
  | plugin id count usesFrame => rfl

/-! ## Frame use -/

def Opcode.usesFrame : Opcode → Bool
  | .frame _ => true
  | _ => false

/-- Whether the instruction looks at the frame; there is no answer for an unknown plugin. -/
def Instruction.frameUse? (plugins : Registry) (i : Instruction) : Option Bool :=
  match i.operation with
  | .builtin op => some op.usesFrame
  | .plugin id => (plugins.plugin? id).map (·.usesFrame)

theorem Builtin.frameUse?_instruction (plugins : Registry) (b : Builtin) (count : Nat) :
    (b.instruction count).frameUse? plugins = some b.op.usesFrame := rfl

/-- The functions of the frame are those whose operations look at it. -/
theorem Builtin.usesFrame_op :
    ∀ b ∈ Builtin.table, b.op.usesFrame = decide (b.gate = .frame) := by
  decide

namespace Action

def demandsFrame : Action → Bool
  | .demand .frame _ => true
  | _ => false

def callsFrame : Action → Bool
  | .invoke _ _ usesFrame => usesFrame
  | _ => false

/-- Whether the action calls nothing and has nothing to do with the frame. -/
def isPlain : Action → Bool
  | .operate op => !op.usesFrame
  | .demand .frame _ | .invoke .. => false
  | _ => true

/-- What the action says of the frame is true of its instruction. -/
def Marked (plugins : Registry) : Action → Prop
  | .operate op => op.usesFrame = false
  | .invoke i _ usesFrame => i.frameUse? plugins = some usesFrame
  | _ => True

theorem marked_of_isPlain {plugins : Registry} {a : Action} (h : a.isPlain = true) :
    a.Marked plugins := by
  cases a with
  | operate op => simpa [isPlain, Marked] using h
  | invoke i count usesFrame => cases h
  | push | access | follow | demand | enumText | query | compareText => trivial

theorem demandsFrame_of_isPlain {a : Action} (h : a.isPlain = true) : a.demandsFrame = false := by
  cases a with
  | demand d function => cases d <;> first | rfl | cases h
  | push | operate | access | follow | invoke | enumText | query | compareText => rfl

theorem callsFrame_of_isPlain {a : Action} (h : a.isPlain = true) : a.callsFrame = false := by
  cases a with
  | invoke i count usesFrame => cases h
  | push | operate | access | follow | demand | enumText | query | compareText => rfl

end Action

/-! ## Operators and signs -/

structure Opcode.IsBinary (op : Opcode) : Prop where
  fits : op.fits .absent = true
  takes : op.takes 0 = 2
  gives : op.gives = 1
  frameless : op.usesFrame = false

theorem isBinary_of_level : ∀ level ∈ levels, ∀ s op, level s = some op → op.IsBinary := by
  intro level hlevel s op hop
  simp only [levels, List.mem_cons, List.not_mem_nil, or_false] at hlevel
  rcases hlevel with rfl | rfl | rfl | rfl | rfl | rfl | rfl | rfl | rfl | rfl <;>
    cases s <;> cases hop <;> exact ⟨rfl, rfl, rfl, rfl⟩

theorem isBinary_of_assignment {s : Symbol} {op : Opcode} (h : assignment? s = some (some op)) :
    op.IsBinary := by
  cases s <;> cases h <;> exact ⟨rfl, rfl, rfl, rfl⟩

/-- A token that opens and closes nothing. -/
def Token.IsFlat (t : Token) : Prop := t ≠ .symbol .openParen ∧ t ≠ .symbol .closeParen

theorem isFlat_of_level :
    ∀ level ∈ levels, ∀ s op, level s = some op → (Token.symbol s).IsFlat := by
  intro level hlevel s op hop
  simp only [levels, List.mem_cons, List.not_mem_nil, or_false] at hlevel
  rcases hlevel with rfl | rfl | rfl | rfl | rfl | rfl | rfl | rfl | rfl | rfl <;>
    cases s <;> cases hop <;> simp [Token.IsFlat]

theorem closeParen_of_mem_levels : ∀ level ∈ levels, level .closeParen = none := by
  simp [levels]

theorem isFlat_of_assignment {s : Symbol} {combine : Option Opcode}
    (h : assignment? s = some combine) : (Token.symbol s).IsFlat := by
  cases s <;> cases h <;> simp [Token.IsFlat]

/-- The operations on raw bits that functions stand for: two that read and one that writes. -/
theorem Special.rawBits_takes {op : AccessOp} (h : ∃ row ∈ Special.table, row.2.1 = .rawBits op) :
    op = .writeBits ∨ op.takes = 0 := by
  obtain ⟨row, hrow, hop⟩ := h
  simp only [Special.table, List.mem_cons, List.not_mem_nil, or_false] at hrow
  rcases hrow with rfl | rfl | rfl | rfl | rfl | rfl | rfl | rfl | rfl | rfl | rfl | rfl | rfl <;>
    cases hop <;> decide

end SignalCalc
