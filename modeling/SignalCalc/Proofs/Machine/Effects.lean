import SignalCalc.Proofs.Machine.StackUse

/-! # Effects of computations

Two ways to speak about a computation that can fail, and a rule for the operations of the machine:
what holds of the stack, of accesses to variables and of whatever is put together from them holds of
every built-in operation.

* `Keeps` — a computation relates its first state to its last one, however it ends.
* `Raises` — a computation keeps a property, or fails with one of some errors.
* `StackM.Storeless` — a stack operation that does not ask for a variable.
* `builtin_rule` — the rule for built-in operations.
-/

namespace SignalCalc

/-! ## Computations and their states -/

/-- The computation relates the state in which it starts to the one in which it ends or stops. -/
def Keeps {ε S α : Type} (R : S → S → Prop) (x : EStateM ε S α) : Prop :=
  ∀ s, match x s with
    | .ok _ s' => R s s'
    | .error _ s' => R s s'

section Keeps

variable {ε S α β : Type} {R : S → S → Prop}

theorem keeps_pure (hrefl : ∀ s, R s s) (a : α) : Keeps R (pure a : EStateM ε S α) := hrefl

theorem keeps_throw (hrefl : ∀ s, R s s) (e : ε) : Keeps R (throw e : EStateM ε S α) := hrefl

theorem Keeps.bind (htrans : ∀ a b c, R a b → R b c → R a c) {x : EStateM ε S α}
    {f : α → EStateM ε S β} (hx : Keeps R x) (hf : ∀ a, Keeps R (f a)) : Keeps R (x >>= f) := by
  intro s
  have hfirst := hx s
  simp only [Bind.bind, EStateM.bind]
  cases hxs : x s with
  | error e s' =>
    rw [hxs] at hfirst
    exact hfirst
  | ok a s' =>
    rw [hxs] at hfirst
    have hsecond := hf a s'
    dsimp only
    split at hsecond
    · exact htrans _ _ _ hfirst hsecond
    · exact htrans _ _ _ hfirst hsecond

theorem Keeps.mono {R' : S → S → Prop} (hR : ∀ a b, R a b → R' a b) {x : EStateM ε S α}
    (hx : Keeps R x) : Keeps R' x := by
  intro s
  have h := hx s
  split at h
  · exact hR _ _ h
  · exact hR _ _ h

end Keeps

/-- Where `P` holds, the computation goes through and keeps it, or fails with one of some errors. -/
def Raises {ε S α : Type} (P : S → Prop) (E : ε → Prop) (x : EStateM ε S α) : Prop :=
  ∀ s, P s → match x s with
    | .ok _ s' => P s'
    | .error e _ => E e

section Raises

variable {ε S α β : Type} {P : S → Prop} {E : ε → Prop}

theorem raises_pure (a : α) : Raises P E (pure a : EStateM ε S α) := fun _ hs => hs

theorem raises_throw {e : ε} (he : E e) : Raises P E (throw e : EStateM ε S α) := fun _ _ => he

theorem Raises.bind {x : EStateM ε S α} {f : α → EStateM ε S β} (hx : Raises P E x)
    (hf : ∀ a, Raises P E (f a)) : Raises P E (x >>= f) := by
  intro s hs
  have hfirst := hx s hs
  simp only [Bind.bind, EStateM.bind]
  cases hxs : x s with
  | error e s' =>
    rw [hxs] at hfirst
    exact hfirst
  | ok a s' =>
    rw [hxs] at hfirst
    exact hf a s' hfirst

end Raises

/-! ## Operations on the stack -/

def RunError.isMissing : RunError → Bool
  | .store (.unknownVariable _) => true
  | _ => false

abbrev StackM.Storeless {α : Type} (x : StackM α) : Prop :=
  Raises (fun _ => True) (·.isMissing = false) x

namespace Stack

theorem push_storeless (v : Value) : StackM.Storeless (push v) := by
  intro st _
  unfold push
  by_cases hroom : st.entries.length < stackCapacity
  · simp only [dif_pos hroom]
  · simp only [dif_neg hroom]
    rfl

theorem pop_storeless : StackM.Storeless pop := by
  rintro ⟨entries, hbounded⟩ -
  cases entries with
  | nil => rfl
  | cons v vs => trivial

theorem pop2_storeless : StackM.Storeless pop2 :=
  pop_storeless.bind fun _ => pop_storeless.bind fun _ => raises_pure _

theorem popMany_storeless (n : Nat) : StackM.Storeless (popMany n) := by
  intro st _
  unfold popMany
  by_cases hn : n ≤ st.entries.length
  · simp only [if_pos hn]
  · simp only [if_neg hn]
    rfl

theorem peek_storeless : StackM.Storeless peek := by
  rintro ⟨entries, hbounded⟩ -
  cases entries with
  | nil => rfl
  | cons v vs => trivial

theorem swap_storeless : StackM.Storeless swap := by
  rintro ⟨entries, hbounded⟩ -
  match entries with
  | [] => rfl
  | [_] => rfl
  | _ :: _ :: _ => trivial

end Stack

theorem applyOne_storeless (f : Value → Value) : StackM.Storeless (applyOne f) :=
  Stack.pop_storeless.bind fun _ => Stack.push_storeless _

theorem applyTwo_storeless (f : Value → Value → Value) : StackM.Storeless (applyTwo f) :=
  Stack.pop2_storeless.bind fun _ => Stack.push_storeless _

theorem applyThree_storeless (f : Value → Value → Value → Value) :
    StackM.Storeless (applyThree f) := by
  refine (Stack.popMany_storeless 3).bind fun args => ?_
  split
  · exact Stack.push_storeless _
  · exact raises_throw rfl

theorem applyFour_storeless (f : Value → Value → Value → Value → Value) :
    StackM.Storeless (applyFour f) := by
  refine (Stack.popMany_storeless 4).bind fun args => ?_
  split
  · exact Stack.push_storeless _
  · exact raises_throw rfl

theorem Applies.storeless {n : Nat} {x : StackM Unit} (h : Applies n x) : x.Storeless := by
  cases h with
  | none v => exact Stack.push_storeless v
  | one f => exact applyOne_storeless f
  | two f => exact applyTwo_storeless f
  | three f => exact applyThree_storeless f
  | four f => exact applyFour_storeless f
  | many n f => exact (Stack.popMany_storeless n).bind fun _ => Stack.push_storeless _

theorem EdgeOp.run_storeless (op : EdgeOp) (last : Option Float) :
    StackM.Storeless (op.run last) :=
  Stack.pop_storeless.bind fun _ => (Stack.push_storeless _).bind fun _ => raises_pure _

theorem FrameOp.run_storeless (frame : Option Frame) (op : FrameOp) :
    StackM.Storeless (op.run frame) := by
  cases frame with
  | none => exact raises_throw rfl
  | some f => exact (op.run_applies f).storeless

theorem CrcOp.run_storeless (op : CrcOp) (count : Nat) : StackM.Storeless (op.run count) := by
  by_cases hcount : op.least ≤ count
  · exact (op.run_applies hcount).storeless
  · unfold CrcOp.run
    rw [if_pos (Nat.not_le.mp hcount)]
    exact raises_throw rfl

/-! ## Built-in operations -/

/-- What holds of returning, of doing one thing after the other, of a malformed operand, of the
operations on the stack and of the access that the instruction is, if it is one, holds of a built-in
operation. -/
theorem Machine.builtin_rule {σ : Type} [VariableStore σ]
    {Φ : (α : Type) → MachineM σ α → Prop} (ctx : Context) (op : Opcode) (operand : Operand)
    (hpure : ∀ {α : Type} (a : α), Φ α (pure a))
    (hbind : ∀ {α β : Type} {x : MachineM σ α} {f : α → MachineM σ β},
      Φ α x → (∀ a, Φ β (f a)) → Φ β (x >>= f))
    (hmalformed : Φ Operand (throw (.malformedOperand op)))
    (hstack : ∀ {α : Type} {x : StackM α}, x.Storeless → Φ α (onStack x))
    (haccess : ∀ access id, (⟨.builtin op, operand⟩ : Instruction) = .access access id →
      Φ Unit (Machine.access ctx access id)) :
    Φ Operand (builtin ctx op operand) := by
  have hreturn : ∀ {x : StackM Unit} (o : Operand), x.Storeless →
      Φ Operand (onStack x >>= fun _ => pure o) := fun o hx => hbind (hstack hx) fun _ => hpure o
  cases op with
  | stack op =>
    cases op with
    | literal =>
      cases operand with
      | literal v => exact hreturn _ (Stack.push_storeless v)
      | absent | bound | argCount | edge => exact hmalformed
    | parameter => exact hreturn _ (Stack.push_storeless _)
    | swap => exact hreturn _ Stack.swap_storeless
  | access op =>
    cases operand with
    | bound id => exact hbind (haccess op id rfl) fun _ => hpure _
    | absent | literal | argCount | edge => exact hmalformed
  | arithmetic op => exact hreturn _ (op.run_applies 0).storeless
  | logic op => exact hreturn _ (op.run_applies 0).storeless
  | bits op => exact hreturn _ op.run_applies.storeless
  | math op => exact hreturn _ op.run_applies.storeless
  | cast op => exact hreturn _ op.run_applies.storeless
  | edge op =>
    cases operand with
    | edge last => exact hbind (hstack (op.run_storeless last)) fun _ => hpure _
    | absent | literal | bound | argCount => exact hmalformed
  | frame op => exact hreturn _ (op.run_storeless ctx.frame)
  | crc op =>
    cases operand with
    | argCount n => exact hreturn _ (op.run_storeless n.toNat)
    | absent | literal | bound | edge => exact hmalformed

end SignalCalc
