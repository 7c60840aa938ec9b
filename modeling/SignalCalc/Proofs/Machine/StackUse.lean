import SignalCalc.Program

/-! # Use of the stack

How many entries an instruction takes from the stack and how many it gives can be read off its
opcode and, for the checksums, off the number of arguments in its operand. This module computes the
height of the stack from these numbers alone and proves that the machine keeps to them.

* `StackUse`, `depthAfter`, `peak` — heights of the stack without running anything.
* `Opcode.takes`, `Opcode.gives`, `Opcode.fits` — what an opcode takes, gives and needs as operand.
* `Uses` — a computation that keeps to a use: it finds its entries, leaves the height that the use
  says, and fails for want of room or for a reason outside the stack only.
* `Applies` — the form that most stack operations have.
* `step_uses` — every instruction with a fitting operand keeps to its use.
* `run_depth` — so does a whole run.
-/

namespace SignalCalc

/-! ## Heights -/

structure StackUse where
  takes : Nat
  gives : Nat
deriving DecidableEq, Repr

/-- The height after a list of uses, or nothing once an entry is missing. -/
def depthAfter : Nat → List StackUse → Option Nat
  | depth, [] => some depth
  | depth, u :: uses =>
    if u.takes ≤ depth then depthAfter (depth - u.takes + u.gives) uses else none

def peak : Nat → List StackUse → Nat
  | depth, [] => depth
  | depth, u :: uses => max depth (peak (depth - u.takes + u.gives) uses)

theorem depthAfter_append (depth : Nat) (us vs : List StackUse) :
    depthAfter depth (us ++ vs) = (depthAfter depth us).bind (depthAfter · vs) := by
  induction us generalizing depth with
  | nil => rfl
  | cons u us ih =>
    simp only [List.cons_append, depthAfter]
    split
    · exact ih _
    · rfl

/-- Entries below those in use do not matter. -/
theorem depthAfter_add (depth more : Nat) (us : List StackUse) {result : Nat}
    (h : depthAfter depth us = some result) :
    depthAfter (depth + more) us = some (result + more) := by
  induction us generalizing depth with
  | nil =>
    simp only [depthAfter, Option.some.injEq] at h ⊢
    rw [h]
  | cons u us ih =>
    simp only [depthAfter] at h ⊢
    split at h
    · next htakes =>
      rw [if_pos (by omega), show depth + more - u.takes + u.gives =
        depth - u.takes + u.gives + more by omega]
      exact ih _ h
    · cases h

theorem le_peak (depth : Nat) (us : List StackUse) : depth ≤ peak depth us := by
  cases us with
  | nil => exact Nat.le_refl _
  | cons u us => exact Nat.le_max_left _ _

/-! ## What opcodes take and give -/

/-- How many entries an access takes. A written value is on top of the stack. -/
def AccessOp.takes (op : AccessOp) : Nat := if op.writes then 1 else 0

def BitOp.takes : BitOp → Nat
  | .invert | .swap16 | .swap32 | .addBytes | .addNibbles => 1
  | .and | .or | .xor | .shiftLeft | .shiftRight => 2
  | .getBits => 3
  | .setBits | .andBits | .orBits | .xorBits => 4

def MathOp.takes : MathOp → Nat
  | .pow | .min | .max => 2
  | .overflow | .underflow | .near => 3
  | _ => 1

def FrameOp.takes : FrameOp → Nat
  | .cyclic | .id | .cycles | .size => 0
  | .byte | .word | .dword => 1
  | .dataChanged => 2
  | .crc8 => 4

/-- How many entries an operation takes. A checksum takes as many as its operand says. -/
def Opcode.takes (count : Nat) : Opcode → Nat
  | .stack .literal | .stack .parameter => 0
  | .stack .swap => 2
  | .access op => op.takes
  | .arithmetic .neg | .logic .not => 1
  | .arithmetic _ | .logic _ => 2
  | .bits op => op.takes
  | .math op => op.takes
  | .cast _ | .edge _ => 1
  | .frame op => op.takes
  | .crc _ => count

def Opcode.gives : Opcode → Nat
  | .stack .swap => 2
  | _ => 1

def Opcode.fits : Opcode → Operand → Bool
  | .stack .literal, .literal _ | .access _, .bound _ | .edge _, .edge _ => true
  | .crc op, .argCount n => op.least ≤ n.toNat
  | .stack .literal, _ | .access _, _ | .edge _, _ | .crc _, _ => false
  | _, _ => true

def Operand.count : Operand → Nat
  | .argCount n => n.toNat
  | _ => 0

namespace Instruction

/-- The use of an instruction. What a plugin does to the stack is not known from its instruction;
it is taken to give one entry. -/
def use (i : Instruction) : StackUse :=
  match i.operation with
  | .builtin op => ⟨op.takes i.operand.count, op.gives⟩
  | .plugin _ => ⟨0, 1⟩

def isPlugin (i : Instruction) : Bool :=
  match i.operation with
  | .builtin _ => false
  | .plugin _ => true

def fits (i : Instruction) : Bool :=
  match i.operation with
  | .builtin op => op.fits i.operand
  | .plugin _ => true

end Instruction

/-- The static depth of a program: the greatest height of the stack, computed from opcodes and
numbers of arguments. -/
def Program.maxDepth (p : Program) : Nat := peak 0 (p.code.map (·.use))

/-! ## Keeping to a use -/

/-- An error that does not come from the stack: there is no frame, or the store refuses. -/
def RunError.isOutside : RunError → Bool
  | .missingFrame _ | .store _ => true
  | _ => false

/-- An error with which a computation may fail that would have left a height of `depth`. -/
def RunError.Tolerable (e : RunError) (depth : Nat) : Prop :=
  e.isOutside = true ∨ (e = .stackOverflow ∧ stackCapacity < depth)

theorem RunError.Tolerable.mono {e : RunError} {a b : Nat} (h : e.Tolerable a) (hab : a ≤ b) :
    e.Tolerable b :=
  h.imp_right fun ⟨he, hroom⟩ => ⟨he, Nat.lt_of_lt_of_le hroom hab⟩

/-- The computation finds what it takes, leaves the height that its use says, and fails with
tolerable errors only. The height of a state is `height`. -/
def Uses {ε S α : Type} (height : S → Nat) (tolerable : ε → Nat → Prop) (u : StackUse)
    (x : EStateM ε S α) : Prop :=
  ∀ s, u.takes ≤ height s →
    match x s with
    | .ok _ s' => height s' = height s - u.takes + u.gives
    | .error e _ => tolerable e (height s - u.takes + u.gives)

section Uses

variable {ε S α β : Type} {height : S → Nat} {tolerable : ε → Nat → Prop}

theorem uses_pure (n : Nat) (a : α) : Uses height tolerable ⟨n, n⟩ (pure a : EStateM ε S α) := by
  intro s hs
  change height s = height s - n + n
  dsimp only at hs
  omega

theorem Uses.bind {n k m : Nat} {x : EStateM ε S α} {f : α → EStateM ε S β}
    (hmono : ∀ e a b, tolerable e a → a ≤ b → tolerable e b)
    (hx : Uses height tolerable ⟨n, k⟩ x) (hf : ∀ a, Uses height tolerable ⟨k, m⟩ (f a))
    (hkm : k ≤ m) : Uses height tolerable ⟨n, m⟩ (x >>= f) := by
  intro s hs
  have hfirst := hx s hs
  change match EStateM.bind x f s with
    | .ok _ s' => height s' = _
    | .error e _ => tolerable e _
  unfold EStateM.bind
  cases hxs : x s with
  | error e s' =>
    rw [hxs] at hfirst
    exact hmono e _ _ hfirst (by dsimp only; omega)
  | ok a s' =>
    rw [hxs] at hfirst
    dsimp only at hfirst ⊢
    have hsecond := hf a s' (by dsimp only; omega)
    dsimp only at hsecond
    rw [hfirst] at hsecond
    rw [show height s - n + k - k + m = height s - n + m by omega] at hsecond
    exact hsecond

end Uses

abbrev StackM.Uses {α : Type} (u : StackUse) (x : StackM α) : Prop :=
  SignalCalc.Uses Stack.size RunError.Tolerable u x

/-- Operations of the machine that keep to a use. -/
abbrev MachineM.Uses {σ α : Type} (u : StackUse) (x : MachineM σ α) : Prop :=
  SignalCalc.Uses (fun m : Machine σ => m.stack.size) RunError.Tolerable u x

/-! ## Operations on the stack -/

theorem StackM.Uses.bind {α β : Type} {n k m : Nat} {x : StackM α} {f : α → StackM β}
    (hx : StackM.Uses ⟨n, k⟩ x) (hf : ∀ a, StackM.Uses ⟨k, m⟩ (f a)) (hkm : k ≤ m) :
    StackM.Uses ⟨n, m⟩ (x >>= f) :=
  SignalCalc.Uses.bind (fun _ _ _ => RunError.Tolerable.mono) hx hf hkm

namespace Stack

theorem push_uses (v : Value) : StackM.Uses ⟨0, 1⟩ (push v) := by
  intro st _
  unfold push
  by_cases hroom : st.entries.length < stackCapacity
  · rw [dif_pos hroom]
    rfl
  · rw [dif_neg hroom]
    refine .inr ⟨rfl, ?_⟩
    change stackCapacity < st.entries.length + 1
    omega

theorem pop_uses : StackM.Uses ⟨1, 0⟩ pop := by
  intro st hst
  obtain ⟨entries, hbounded⟩ := st
  cases entries with
  | nil => exact absurd hst (Nat.not_succ_le_zero 0)
  | cons v vs => rfl

theorem pop2_uses : StackM.Uses ⟨2, 0⟩ pop2 := by
  intro st hst
  obtain ⟨entries, hbounded⟩ := st
  match entries with
  | [] => exact absurd hst (Nat.not_succ_le_zero 1)
  | [_] => exact absurd hst (Nat.not_succ_le_self 1)
  | _ :: _ :: _ => rfl

theorem popMany_ok {n : Nat} {st : Stack} (h : n ≤ st.size) :
    ∃ args rest, popMany n st = .ok args rest ∧ args.length = n ∧ rest.size = st.size - n := by
  have hlength : n ≤ st.entries.length := h
  refine ⟨_, _, if_pos hlength, ?_, ?_⟩
  · rw [List.length_reverse, List.length_take]
    exact Nat.min_eq_left hlength
  · exact List.length_drop

theorem popMany_uses (n : Nat) : StackM.Uses ⟨n, 0⟩ (popMany n) := by
  intro st hst
  obtain ⟨args, rest, hpop, -, hsize⟩ := popMany_ok hst
  rw [hpop]
  exact hsize

theorem peek_uses : StackM.Uses ⟨1, 1⟩ peek := by
  intro st hst
  obtain ⟨entries, hbounded⟩ := st
  cases entries with
  | nil => exact absurd hst (Nat.not_succ_le_zero 0)
  | cons v vs => rfl

theorem swap_uses : StackM.Uses ⟨2, 2⟩ swap := by
  intro st hst
  obtain ⟨entries, hbounded⟩ := st
  match entries with
  | [] => exact absurd hst (Nat.not_succ_le_zero 1)
  | [_] => exact absurd hst (Nat.not_succ_le_self 1)
  | _ :: _ :: _ => rfl

end Stack

theorem applyOne_uses (f : Value → Value) : StackM.Uses ⟨1, 1⟩ (applyOne f) :=
  Stack.pop_uses.bind (fun _ => Stack.push_uses _) (Nat.zero_le _)

theorem applyTwo_ok (f : Value → Value → Value) (a b : Value) (below : List Value)
    (h : below.length + 2 ≤ stackCapacity) :
    applyTwo f ⟨b :: a :: below, h⟩ = .ok () ⟨f a b :: below, Nat.le_of_succ_le h⟩ := by
  have hroom : below.length < stackCapacity := Nat.lt_of_succ_lt h
  simp only [applyTwo, Stack.pop2, Stack.pop, Stack.push, bind, EStateM.bind, pure, EStateM.pure,
    hroom, dif_pos]

theorem applyTwo_uses (f : Value → Value → Value) : StackM.Uses ⟨2, 1⟩ (applyTwo f) :=
  Stack.pop2_uses.bind (fun _ => Stack.push_uses _) (Nat.zero_le _)

/-- Taking `n` entries hands on a list of `n` values, so that a continuation need only be looked at
for lists of that length. -/
theorem popMany_bind_uses {β : Type} (n m : Nat) {f : List Value → StackM β}
    (hf : ∀ args, args.length = n → StackM.Uses ⟨0, m⟩ (f args)) :
    StackM.Uses ⟨n, m⟩ (Stack.popMany n >>= f) := by
  intro st hst
  obtain ⟨args, rest, hpop, hargs, hsize⟩ := Stack.popMany_ok hst
  have hrest := hf args hargs rest (Nat.zero_le _)
  rw [hsize] at hrest
  simp only [bind, EStateM.bind, hpop]
  exact hrest

theorem applyThree_uses (f : Value → Value → Value → Value) : StackM.Uses ⟨3, 1⟩ (applyThree f) := by
  apply popMany_bind_uses
  intro args hlength
  match args, hlength with
  | [a, b, c], _ => exact Stack.push_uses _

theorem applyFour_uses (f : Value → Value → Value → Value → Value) :
    StackM.Uses ⟨4, 1⟩ (applyFour f) := by
  apply popMany_bind_uses
  intro args hlength
  match args, hlength with
  | [a, b, c, d], _ => exact Stack.push_uses _

/-! ## Groups of opcodes -/

/-- A stack operation that puts one value in the place of so many. -/
inductive Applies : Nat → StackM Unit → Prop where
  | none (v : Value) : Applies 0 (Stack.push v)
  | one (f : Value → Value) : Applies 1 (applyOne f)
  | two (f : Value → Value → Value) : Applies 2 (applyTwo f)
  | three (f : Value → Value → Value → Value) : Applies 3 (applyThree f)
  | four (f : Value → Value → Value → Value → Value) : Applies 4 (applyFour f)
  | many (n : Nat) (f : List Value → Value) :
      Applies n (Stack.popMany n >>= fun args => Stack.push (f args))

theorem Applies.uses {n : Nat} {x : StackM Unit} (h : Applies n x) : StackM.Uses ⟨n, 1⟩ x := by
  cases h with
  | none v => exact Stack.push_uses v
  | one f => exact applyOne_uses f
  | two f => exact applyTwo_uses f
  | three f => exact applyThree_uses f
  | four f => exact applyFour_uses f
  | many n f => exact (Stack.popMany_uses n).bind (fun _ => Stack.push_uses _) (Nat.zero_le _)

theorem ArithmeticOp.run_applies (op : ArithmeticOp) (count : Nat) :
    Applies ((Opcode.arithmetic op).takes count) op.run := by
  cases op with
  | neg => exact .one _
  | add | sub | mul | div | modulo => exact .two _

theorem LogicOp.run_applies (op : LogicOp) (count : Nat) :
    Applies ((Opcode.logic op).takes count) op.run := by
  cases op with
  | not => exact .one _
  | eq | ne | lt | le | gt | ge | and | or =>
    unfold LogicOp.run
    exact .two _

theorem BitOp.run_applies (op : BitOp) : Applies op.takes op.run := by
  cases op with
  | invert | swap16 | swap32 | addBytes | addNibbles => exact .one _
  | and | or | xor | shiftLeft | shiftRight =>
    unfold BitOp.run
    exact .two _
  | getBits => exact .three _
  | setBits | andBits | orBits | xorBits => exact .four _

theorem MathOp.run_applies (op : MathOp) : Applies op.takes op.run := by
  cases op with
  | pow | min | max =>
    unfold MathOp.run
    exact .two _
  | overflow | underflow | near => exact .three _
  | sin | cos | tan | sinh | cosh | tanh | asin | acos | atan | exp | sqrt | log | log10 | abs
  | round | roundUp | roundDown => exact .one _

theorem CastOp.run_applies (op : CastOp) : Applies 1 op.run := by
  cases op <;> exact .one _

/-- With a frame at hand, that is. -/
theorem FrameOp.run_applies (f : Frame) (op : FrameOp) : Applies op.takes (op.run (some f)) := by
  cases op with
  | byte | word | dword => exact .one _
  | cyclic | id | cycles | size => exact .none _
  | dataChanged =>
    unfold FrameOp.run
    exact .two _
  | crc8 => exact .four _

theorem CrcOp.run_applies (op : CrcOp) {count : Nat} (hcount : op.least ≤ count) :
    Applies count (op.run count) := by
  unfold CrcOp.run
  rw [if_neg (Nat.not_lt.mpr hcount)]
  exact .many count _

theorem EdgeOp.run_uses (op : EdgeOp) (last : Option Float) : StackM.Uses ⟨1, 1⟩ (op.run last) :=
  Stack.pop_uses.bind
    (fun _ => (Stack.push_uses _).bind (fun _ => uses_pure 1 _) (Nat.le_refl _)) (Nat.zero_le _)

/-- A function of the frame may find that there is none. -/
theorem FrameOp.run_uses (frame : Option Frame) (op : FrameOp) :
    StackM.Uses ⟨op.takes, 1⟩ (op.run frame) := by
  cases frame with
  | none =>
    intro st _
    exact .inl rfl
  | some f => exact (op.run_applies f).uses

/-! ## The machine -/

namespace Machine

variable {σ : Type}

theorem onStack_uses {α : Type} {u : StackUse} {x : StackM α} (hx : StackM.Uses u x) :
    MachineM.Uses u (onStack x : MachineM σ α) := by
  intro m hm
  have h := hx m.stack hm
  unfold onStack
  cases hxs : x m.stack with
  | ok a stack =>
    rw [hxs] at h
    exact h
  | error e stack =>
    rw [hxs] at h
    exact h

/-- The store does not touch the stack, and its errors come from outside. -/
theorem onStore_uses {α : Type} (n : Nat) (x : EStateM StoreError σ α) :
    MachineM.Uses ⟨n, n⟩ (onStore x) := by
  intro m hm
  unfold onStore
  cases hxs : x m.store with
  | ok a store =>
    change m.stack.size = m.stack.size - n + n
    dsimp only at hm
    omega
  | error e store => exact .inl rfl

theorem getStore_uses : MachineM.Uses ⟨0, 0⟩ (getStore : MachineM σ σ) :=
  fun _ _ => rfl

theorem push_uses (v : Value) : MachineM.Uses ⟨0, 1⟩ (push v : MachineM σ Unit) :=
  onStack_uses (Stack.push_uses v)

theorem throw_store_uses {α : Type} (u : StackUse) (e : StoreError) :
    MachineM.Uses u (throw (.store e) : MachineM σ α) :=
  fun _ _ => .inl rfl

theorem bind_uses {α β : Type} {n k m : Nat} {x : MachineM σ α} {f : α → MachineM σ β}
    (hx : MachineM.Uses ⟨n, k⟩ x) (hf : ∀ a, MachineM.Uses ⟨k, m⟩ (f a)) (hkm : k ≤ m) :
    MachineM.Uses ⟨n, m⟩ (x >>= f) :=
  SignalCalc.Uses.bind (fun _ _ _ => RunError.Tolerable.mono) hx hf hkm

variable [VariableStore σ]

theorem access_uses (ctx : Context) (op : AccessOp) (id : VarId) :
    MachineM.Uses ⟨op.takes, 1⟩ (access ctx op id : MachineM σ Unit) := by
  cases op with
  | read =>
    unfold access
    dsimp only
    split
    · exact push_uses _
    · exact bind_uses getStore_uses (fun _ => push_uses _) (Nat.zero_le _)
  | readPhysical =>
    unfold access
    dsimp only
    split
    · exact push_uses _
    · refine bind_uses getStore_uses (fun store => ?_) (Nat.zero_le _)
      split
      · exact push_uses _
      · exact throw_store_uses _ _
  | write | writePhysical =>
    exact bind_uses (onStack_uses Stack.peek_uses) (fun _ => onStore_uses 1 _) (Nat.le_refl _)
  | readBits | invertedBits =>
    exact bind_uses getStore_uses (fun _ => push_uses _) (Nat.zero_le _)
  | writeBits =>
    refine bind_uses (onStack_uses Stack.pop_uses) (fun v => ?_) (Nat.zero_le _)
    refine bind_uses getStore_uses (fun store => ?_) (Nat.zero_le _)
    exact bind_uses (onStore_uses 0 _) (fun _ => push_uses _) (Nat.zero_le _)

theorem builtin_uses (ctx : Context) (op : Opcode) (operand : Operand)
    (hfits : op.fits operand = true) :
    MachineM.Uses ⟨op.takes operand.count, op.gives⟩ (builtin ctx op operand : MachineM σ Operand) := by
  have hreturn : ∀ {n m : Nat} {x : MachineM σ Unit} (o : Operand), MachineM.Uses ⟨n, m⟩ x →
      MachineM.Uses ⟨n, m⟩ (x >>= fun _ => pure o) := fun o hx =>
    bind_uses hx (fun _ => uses_pure _ _) (Nat.le_refl _)
  -- an operand that does not fit is excluded, one that does decides how much is taken
  cases op with
  | stack op =>
    cases op with
    | literal =>
      cases operand with
      | literal v => exact hreturn _ (push_uses v)
      | absent | bound | argCount | edge => cases hfits
    | parameter => exact hreturn _ (push_uses _)
    | swap => exact hreturn _ (onStack_uses Stack.swap_uses)
  | access op =>
    cases operand with
    | bound id => exact hreturn _ (access_uses ctx op id)
    | absent | literal | argCount | edge => cases hfits
  | arithmetic op => exact hreturn _ (onStack_uses (op.run_applies _).uses)
  | logic op => exact hreturn _ (onStack_uses (op.run_applies _).uses)
  | bits op => exact hreturn _ (onStack_uses op.run_applies.uses)
  | math op => exact hreturn _ (onStack_uses op.run_applies.uses)
  | cast op => exact hreturn _ (onStack_uses op.run_applies.uses)
  | edge op =>
    cases operand with
    | edge last =>
      exact bind_uses (onStack_uses (op.run_uses last)) (fun _ => uses_pure _ _) (Nat.le_refl _)
    | absent | literal | bound | argCount => cases hfits
  | frame op => exact hreturn _ (onStack_uses (op.run_uses ctx.frame))
  | crc op =>
    cases operand with
    | argCount n => exact hreturn _ (onStack_uses (op.run_applies (of_decide_eq_true hfits)).uses)
    | absent | literal | bound | edge => cases hfits

theorem step_uses (plugins : Registry) (ctx : Context) {i : Instruction}
    (hplugin : i.isPlugin = false) (hfits : i.fits = true) :
    MachineM.Uses i.use (step plugins ctx i : MachineM σ Instruction) := by
  obtain ⟨operation, operand⟩ := i
  cases operation with
  | plugin id => cases hplugin
  | builtin op =>
    exact bind_uses (builtin_uses ctx op operand hfits) (fun _ => uses_pure _ _) (Nat.le_refl _)

/-! ## Runs -/

/-- Run code of fitting instructions without plugins whose heights are defined. A run that goes
through leaves the height that they say and never needed more room than there is; a run that stops
does so for a reason outside the stack, or because the greatest height does not fit. -/
theorem run_depth (plugins : Registry) (ctx : Context) {code : List Instruction}
    (hcode : ∀ i ∈ code, i.isPlugin = false ∧ i.fits = true) (m : Machine σ) {depth : Nat}
    (hdepth : depthAfter m.stack.size (code.map (·.use)) = some depth) :
    match (run plugins ctx code m).stopped with
    | none =>
      (run plugins ctx code m).machine.stack.size = depth ∧
        peak m.stack.size (code.map (·.use)) ≤ stackCapacity
    | some e => e.Tolerable (peak m.stack.size (code.map (·.use))) := by
  -- the static height and the stack go in step, so that the rest starts where its account does
  induction code generalizing m with
  | nil => exact ⟨Option.some.inj hdepth, m.stack.bounded⟩
  | cons i code ih =>
    obtain ⟨hplugin, hfits⟩ := hcode i (by simp)
    simp only [List.map_cons, depthAfter] at hdepth
    split at hdepth
    · next htakes =>
      have hstep := step_uses plugins ctx hplugin hfits m htakes
      simp only [List.map_cons, peak]
      unfold run
      cases hi : step plugins ctx i m with
      | error e m' =>
        rw [hi] at hstep
        exact hstep.mono (Nat.le_trans (le_peak _ _) (Nat.le_max_right _ _))
      | ok i' m' =>
        rw [hi] at hstep
        dsimp only at hstep ⊢
        rw [← hstep] at hdepth ⊢
        have hrest := ih (fun j hj => hcode j (List.mem_cons_of_mem i hj)) m' hdepth
        split at hrest
        · exact ⟨hrest.1, Nat.max_le.mpr ⟨m.stack.bounded, hrest.2⟩⟩
        · exact hrest.mono (Nat.le_max_right _ _)
    · cases hdepth

end Machine

end SignalCalc
