import SignalCalc.Proofs.Machine.Effects
import SignalCalc.Proofs.Script.Discipline
import SignalCalc.Script.Meaning

/-! # Actions one by one

What compiling one action can do, said once for all: it adds an instruction or none, it binds a
variable, or it is refused. Everything about compiled equations is derived from these cases. For
evaluations the module says how the variable of an access is found.

* `Compiled`, `Refused` — the ways in which an action goes through and those in which it does not.
* `bindVariable_eq` — binding a variable, step by step.
* `perform_compile` — there are no others.
* `performAll_compile`, `interpret_compile` — what every action keeps is kept by a whole script.
* `emit_raises`, `meetDemand_raises` and others — the refusals that the pieces of an action give.
* `perform_raises_of` — the refusals that a whole action gives.
* `findVariable_read`, `findVariable_write_ok` — the variable of an access during an evaluation.
-/

namespace SignalCalc

open WorkM

variable {σ : Type} [VariableStore σ]

omit [VariableStore σ] in
theorem bind_apply {α β : Type} (x : WorkM σ α) (f : α → WorkM σ β) (w : Workspace σ) :
    (x >>= f) w =
      match x w with
      | .ok a w' => f a w'
      | .error r w' => .error r w' := by
  simp only [bind, EStateM.bind]
  cases x w <;> rfl

theorem performAll_append (cfg : Setting) (mode : Mode) (first second : List Action)
    (w : Workspace σ) :
    performAll cfg mode (first ++ second) w =
      (performAll cfg mode first >>= fun _ => performAll cfg mode second) w := by
  induction first generalizing w with
  | nil => rfl
  | cons a first ih =>
    simp only [List.cons_append, performAll, bind_apply]
    cases perform cfg mode a w with
    | ok u w' => simpa [bind_apply] using ih w'
    | error r w' => rfl

def Workspace.bound (w : Workspace σ) (op : AccessOp) (id : VarId) (s : σ)
    (warnings : List String) : Workspace σ :=
  { w with
    machine := ⟨w.machine.stack, s⟩
    code := w.code ++ [.access op id]
    warnings := warnings }

def AccessOp.resolves (op : AccessOp) (cfg : Setting) (name : String) : EStateM BindError σ Binding :=
  VariableStore.resolve name (op.policy cfg.options.missing) cfg.options.owner

inductive Compiled (cfg : Setting) (w : Workspace σ) : Action → Workspace σ → Prop where
  | push (v : Value) : Compiled cfg w (.push v) { w with code := w.code ++ [.literal v] }
  | operate (op : Opcode) : Compiled cfg w (.operate op) { w with code := w.code ++ [.plain op] }
  | invoke (i : Instruction) (count : Nat) (usesFrame : Bool) :
      Compiled cfg w (.invoke i count usesFrame) { w with code := w.code ++ [i] }
  | enumText {name text : String} {id : VarId} {raw : Int64}
      (hname : VariableStore.lookup w.machine.store name = some id)
      (htext : VariableStore.enumValue? w.machine.store id text = some raw) :
      Compiled cfg w (.enumText name text)
        { w with code := w.code ++ [.literal (.ofFloat raw.toFloat)] }
  | access {op : AccessOp} {name : String} {b : Binding} {s : σ} (warnings : List String)
      (hresolve : op.resolves cfg name w.machine.store = .ok b s)
      (hconversion : op.isPhysical = true → VariableStore.hasConversion s b.id = true) :
      Compiled cfg w (.access op (.named name)) (w.bound op b.id s warnings)
  | frame (function : String) :
      Compiled cfg w (.demand .frame function) { w with usesFrame := true }
  | memory (function : String) : Compiled cfg w (.demand .memory function) w

/-- How an action is refused by the compiler. Only an access may have changed anything then. -/
inductive Refused (cfg : Setting) (w : Workspace σ) : Action → Refusal → Workspace σ → Prop where
  | unresolved {op : AccessOp} {name : String} {e : BindError} {s : σ}
      (hresolve : op.resolves cfg name w.machine.store = .error e s) :
      Refused cfg w (.access op (.named name)) (.binding op.side name)
        { w with machine := ⟨w.machine.stack, s⟩ }
  | unconverted {op : AccessOp} {name : String} {b : Binding} {s : σ} (warnings : List String)
      (hresolve : op.resolves cfg name w.machine.store = .ok b s)
      (hphysical : op.isPhysical = true)
      (hconversion : VariableStore.hasConversion s b.id = false) :
      Refused cfg w (.access op (.named name)) (.binding .conversion name)
        (w.bound op b.id s warnings)
  | dereference (op : AccessOp) (reference : String) :
      Refused cfg w (.access op (.reference reference)) (.text (.noDereference reference)) w
  | follow (reference : String) :
      Refused cfg w (.follow reference) (.text (.noDereference reference)) w
  | enumName {name text : String} (hname : VariableStore.lookup w.machine.store name = none) :
      Refused cfg w (.enumText name text) (.binding .read name) w
  | enumText {name text : String} {id : VarId}
      (hname : VariableStore.lookup w.machine.store name = some id)
      (htext : VariableStore.enumValue? w.machine.store id text = none) :
      Refused cfg w (.enumText name text) (.text (.noEnumText name text)) w
  | frame (function : String) :
      Refused cfg w (.demand .frame function) (.place (.needsFrame function)) w
  | immediate (function : String) :
      Refused cfg w (.demand .immediate function) (.place (.notAllowed function)) w

def Action.isImmediate : Action → Bool
  | .query .. | .compareText .. => true
  | _ => false

omit [VariableStore σ] in
theorem locals_ok (cfg : Setting) (mode : Mode) (w : Workspace σ) :
    ∃ found, locals cfg mode w = .ok found w := by
  unfold locals
  split
  · exact ⟨none, rfl⟩
  · exact ⟨w.scope, rfl⟩

/-- The scope in which an evaluation or a check looks names up, if it looks into one. -/
def Setting.locals? (cfg : Setting) (scope : Option Scope) : Option Scope :=
  if cfg.options.scriptLocals then scope else none

omit [VariableStore σ] in
theorem locals_eq {cfg : Setting} {mode : Mode} (hmode : mode ≠ .compile)
    (w : Workspace σ) : locals cfg mode w = .ok (cfg.locals? w.scope) w := by
  simp only [locals, Setting.locals?, hmode]
  cases cfg.options.scriptLocals <;> rfl

theorem scope_of_locals? {cfg : Setting} {scope : Option Scope} {found : Scope}
    (h : cfg.locals? scope = some found) : scope = some found := by
  simp only [Setting.locals?] at h
  split at h
  · exact h
  · cases h

omit [VariableStore σ] in
theorem dereference_eq {cfg : Setting} {mode : Mode} (hmode : mode ≠ .compile) (r : String)
    (w : Workspace σ) :
    dereference cfg mode r w =
      match (cfg.locals? w.scope).map (·.dereference? r) with
      | none => .error (.text (.noDereference r)) w
      | some none => .error (.binding .read ("*" ++ r)) w
      | some (some name) => .ok name w := by
  rw [dereference, bind_apply, locals_eq hmode]
  cases cfg.locals? w.scope with
  | none => rfl
  | some scope =>
    dsimp only [Option.map_some]
    cases scope.dereference? r <;> rfl

/-- What is said about a resolved variable: a warning, if it was created where it should have
existed. -/
def Binding.warnings (b : Binding) (policy : ExistPolicy) (side : BindingSide) (name : String) :
    List String :=
  if b.created && policy = .shouldExist then [(Refusal.binding side name).message] else []

omit [VariableStore σ] in
theorem warnCreated_eq (b : Binding) (policy : ExistPolicy) (side : BindingSide) (name : String)
    (w : Workspace σ) :
    warnCreated b policy side name w =
      .ok () { w with warnings := w.warnings ++ b.warnings policy side name } := by
  by_cases h : (b.created && policy = .shouldExist) = true
  · simp only [warnCreated, Binding.warnings, if_pos h]
    rfl
  · simp only [warnCreated, Binding.warnings, if_neg h, List.append_nil]
    rfl

theorem checkConversion_eq (op : AccessOp) (id : VarId) (name : String) (w : Workspace σ) :
    checkConversion op id name w =
      if op.isPhysical = true ∧ VariableStore.hasConversion w.machine.store id = false then
        .error (.binding .conversion name) w
      else .ok () w := by
  simp only [checkConversion, bind, EStateM.bind, WorkM.store]
  cases op.isPhysical <;> cases VariableStore.hasConversion w.machine.store id <;> rfl

theorem enumNumber_eq (name text : String) (w : Workspace σ) :
    enumNumber name text w =
      match VariableStore.lookup w.machine.store name with
      | none => .error (.binding .read name) w
      | some id =>
        match VariableStore.enumValue? w.machine.store id text with
        | none => .error (.text (.noEnumText name text)) w
        | some raw => .ok (.ofFloat raw.toFloat) w := by
  simp only [enumNumber, bind, EStateM.bind, WorkM.store]
  cases VariableStore.lookup w.machine.store name with
  | none => rfl
  | some id =>
    dsimp only
    cases VariableStore.enumValue? w.machine.store id text <;> rfl

/-- Binding a variable: its name is resolved, the instruction takes the attachment over, the warning
is given, and only then the conversion is asked for. -/
theorem bindVariable_eq (cfg : Setting) (op : AccessOp) (name : String) (w : Workspace σ) :
    bindVariable cfg op name w =
      match op.resolves cfg name w.machine.store with
      | .error _ s =>
        .error (.binding op.side name) { w with machine := ⟨w.machine.stack, s⟩ }
      | .ok b s =>
        checkConversion op b.id name (w.bound op b.id s
          (w.warnings ++ b.warnings (op.policy cfg.options.missing) op.side name)) := by
  cases hresolve : op.resolves cfg name w.machine.store with
  | error e s =>
    simp only [AccessOp.resolves] at hresolve
    simp only [bindVariable, bind, EStateM.bind, resolve, hresolve]
  | ok b s =>
    simp only [AccessOp.resolves] at hresolve
    simp only [bindVariable, bind, EStateM.bind, resolve, hresolve, append, warnCreated_eq]
    rfl

theorem bindVariable_cases (cfg : Setting) (op : AccessOp) (name : String) (w : Workspace σ) :
    match bindVariable cfg op name w with
    | .ok _ w' => Compiled cfg w (.access op (.named name)) w'
    | .error r w' => Refused cfg w (.access op (.named name)) r w' := by
  rw [bindVariable_eq]
  cases hresolve : op.resolves cfg name w.machine.store with
  | error e s => exact .unresolved hresolve
  | ok b s =>
    dsimp only
    generalize w.warnings ++ b.warnings (op.policy cfg.options.missing) op.side name = warnings
    rw [checkConversion_eq, show (w.bound op b.id s warnings).machine.store = s from rfl]
    by_cases hmissing : op.isPhysical = true ∧ VariableStore.hasConversion s b.id = false
    · rw [if_pos hmissing]
      exact .unconverted warnings hresolve hmissing.1 hmissing.2
    · rw [if_neg hmissing]
      refine .access warnings hresolve fun hphysical => ?_
      cases hconversion : VariableStore.hasConversion s b.id with
      | true => rfl
      | false => exact absurd ⟨hphysical, hconversion⟩ hmissing

/-- Compiling an action that wants no immediate answer. -/
theorem perform_compile (cfg : Setting) {a : Action} (ha : a.isImmediate = false)
    (w : Workspace σ) :
    match perform cfg .compile a w with
    | .ok _ w' => Compiled cfg w a w'
    | .error r w' => Refused cfg w a r w' := by
  cases a with
  | push v => exact .push v
  | operate op => exact .operate op
  | access op target =>
    cases target with
    | named name => exact bindVariable_cases cfg op name w
    | reference r => exact .dereference op r
  | follow r => exact .follow r
  | demand d function =>
    cases d with
    | frame =>
      unfold perform meetDemand
      cases cfg.options.frameFunctions with
      | true => exact .frame function
      | false => exact .frame function
    | memory => exact .memory function
    | immediate => exact .immediate function
  | invoke i count usesFrame =>
    simp only [perform, Mode.isCheck, Bool.and_false]
    exact .invoke i count usesFrame
  | enumText name text =>
    have hperform : perform cfg .compile (.enumText name text) w =
        EStateM.bind (enumNumber name text) (emitLiteral cfg .compile) w := rfl
    rw [hperform, EStateM.bind, enumNumber_eq]
    cases hname : VariableStore.lookup w.machine.store name with
    | none => exact .enumName hname
    | some id =>
      dsimp only
      cases htext : VariableStore.enumValue? w.machine.store id text with
      | none => exact .enumText hname htext
      | some raw => exact .enumText hname htext
  | query q subject => cases ha
  | compareText bounded ignoreCase left right => cases ha

/-- No script starts with a question or a comparison. -/
theorem Guarded.head {a : Action} {actions : List Action} (h : Guarded (a :: actions)) :
    a.isImmediate = false := by
  cases a with
  | query q subject => exact h.elim
  | compareText bounded ignoreCase left right => exact h.elim
  | push | operate | access | follow | demand | invoke | enumText => rfl

/-- Nor does what comes after an action that went through: that is no demand for an immediate
answer. -/
theorem Guarded.tail {cfg : Setting} {w w' : Workspace σ} {a : Action} {actions : List Action}
    (h : Guarded (a :: actions)) (ha : Compiled cfg w a w') : Guarded actions := by
  cases ha <;> exact h

/-- What every action keeps, going through or refused, is kept by a script. The invariant `P` may
speak of the actions that are left. -/
theorem performAll_compile {cfg : Setting} {P : List Action → Workspace σ → Prop}
    {Q : Refusal → Workspace σ → Prop}
    (hstep : ∀ a rest w w', a.Listed → P (a :: rest) w → Compiled cfg w a w' → P rest w')
    (hstop : ∀ a rest w r w', P (a :: rest) w → Refused cfg w a r w' → Q r w')
    {actions : List Action} (hlisted : ∀ a ∈ actions, a.Listed) (hguarded : Guarded actions)
    {w : Workspace σ} (hw : P actions w) :
    match performAll cfg .compile actions w with
    | .ok _ w' => P [] w'
    | .error r w' => Q r w' := by
  induction actions generalizing w with
  | nil => exact hw
  | cons a actions ih =>
    have hfirst := perform_compile cfg hguarded.head w
    simp only [performAll, bind, EStateM.bind]
    cases hperform : perform cfg .compile a w with
    | error r w' =>
      rw [hperform] at hfirst
      exact hstop a actions w r w' hw hfirst
    | ok u w' =>
      rw [hperform] at hfirst
      exact ih (fun b hb => hlisted b (List.mem_cons_of_mem a hb)) (hguarded.tail hfirst)
        (hstep a actions w w' (hlisted a (by simp)) hw hfirst)

/-- What every step of compiling keeps holds of the workspace in the end, however it ends. -/
theorem interpret_compile {cfg : Setting}
    {P : List Action → Workspace σ → Prop} {Q : Refusal → Workspace σ → Prop}
    (hstep : ∀ a rest w w', a.Listed → P (a :: rest) w → Compiled cfg w a w' → P rest w')
    (hstop : ∀ a rest w r w', P (a :: rest) w → Refused cfg w a r w' → Q r w')
    (hfault : ∀ f w, P [] w → Q (SourceFault.refusal f) w) (source : String) {w : Workspace σ}
    (hw : P (Script.ofText cfg.dialect source).actions w) :
    match interpret cfg .compile (.ofText cfg.dialect source) w with
    | .ok _ w' => P [] w' ∧ (Script.ofText cfg.dialect source).fault = none
    | .error r w' => Q r w' := by
  have hscript := Script.ofText_disciplined cfg.dialect source
  have hall := performAll_compile hstep hstop hscript.listed hscript.guarded hw
  simp only [interpret, bind, EStateM.bind]
  cases hperform : performAll cfg .compile (Script.ofText cfg.dialect source).actions w with
  | error r w' =>
    rw [hperform] at hall
    exact hall
  | ok u w' =>
    rw [hperform] at hall
    dsimp only
    cases hend : (Script.ofText cfg.dialect source).fault with
    | none => exact ⟨hall, rfl⟩
    | some f => exact hfault f w' hall

omit [VariableStore σ] in
/-- A comparison of texts takes its limit from the stack, if it has one, and does nothing else. -/
theorem textOrder_eq (mode : Mode) (bounded ignoreCase : Bool) (left right : String) :
    ∃ order : Option Nat → Value, textOrder mode bounded ignoreCase left right =
      if bounded then do
        let limit ← WorkM.onStack Stack.pop
        return order (some limit.toUInt64.toNat)
      else (return order none : WorkM σ Value) := by
  let order (limit : Option Nat) : Value :=
    .ofFloat (orderNumber (compareBytes (comparedBytes ignoreCase limit left)
      (comparedBytes ignoreCase limit right)))
  cases mode with
  | compile | direct =>
    cases bounded with
    | false => exact ⟨order, rfl⟩
    | true => exact ⟨order, bind_map_left _ _ _⟩
  | check strict =>
    cases bounded with
    | false => exact ⟨fun _ => .ofFloat 1.0, rfl⟩
    | true => exact ⟨fun _ => .ofFloat 1.0, bind_map_left _ _ _⟩

/-! ## Reasons of refusals

Whatever is asked of the scope stays true where the scope is not touched, and what work raises then
is among the refusals `E`. -/

section Refusals

variable {Q : Option Scope → Prop} {E : Refusal → Prop}

omit [VariableStore σ] in
theorem onMachine_raises (hrun : ∀ e, E (.run e)) {α : Type} (x : MachineM σ α) :
    Raises (fun w => Q w.scope) E (onMachine x) := by
  intro w hw
  simp only [onMachine]
  cases x w.machine with
  | ok a m => exact hw
  | error e m => exact hrun e

omit [VariableStore σ] in
theorem onStack_raises (hrun : ∀ e, E (.run e)) {α : Type} (x : StackM α) :
    Raises (fun w => Q w.scope) E (WorkM.onStack x : WorkM σ α) :=
  onMachine_raises hrun _

omit [VariableStore σ] in
theorem store_raises : Raises (fun w => Q w.scope) E (WorkM.store : WorkM σ σ) := fun _ hw => hw

omit [VariableStore σ] in
theorem locals_raises (cfg : Setting) (mode : Mode) :
    Raises (fun w => Q w.scope) E (locals cfg mode : WorkM σ (Option Scope)) := by
  intro w hw
  obtain ⟨found, hfound⟩ := locals_ok cfg mode w
  rw [hfound]
  exact hw

theorem emit_raises (hrun : ∀ e, E (.run e)) (cfg : Setting) (mode : Mode) (i : Instruction) :
    Raises (fun w => Q w.scope) E (emit cfg mode i : WorkM σ Unit) := by
  cases mode with
  | compile => exact fun _ hw => hw
  | direct | check => exact (onMachine_raises hrun _).bind fun _ => raises_pure _

omit [VariableStore σ] in
theorem textOrder_raises (hrun : ∀ e, E (.run e)) (mode : Mode) (bounded ignoreCase : Bool)
    (left right : String) :
    Raises (fun w => Q w.scope) E
      (textOrder mode bounded ignoreCase left right : WorkM σ Value) := by
  obtain ⟨order, horder⟩ := textOrder_eq (σ := σ) mode bounded ignoreCase left right
  rw [horder]
  cases bounded with
  | false => exact raises_pure _
  | true => exact (onStack_raises hrun _).bind fun _ => raises_pure _

theorem checkConversion_raises (hconversion : ∀ name, E (.binding .conversion name))
    (op : AccessOp) (id : VarId) (name : String) :
    Raises (fun w => Q w.scope) E (checkConversion op id name : WorkM σ Unit) := by
  intro w hw
  rw [checkConversion_eq]
  by_cases hmissing : op.isPhysical = true ∧ VariableStore.hasConversion w.machine.store id = false
  · simp only [if_pos hmissing]
    exact hconversion name
  · simpa only [if_neg hmissing] using hw

omit [VariableStore σ] in
theorem meetDemand_raises (hplace : ∀ f, E (.place f)) (cfg : Setting) (mode : Mode)
    (function : String) (d : Demand) :
    Raises (fun w => Q w.scope) E (meetDemand cfg mode function d : WorkM σ Unit) := by
  intro w hw
  cases d with
  | frame =>
    by_cases hframe : (mode = .direct || !cfg.options.frameFunctions) = true
    · simp only [meetDemand, if_pos hframe]
      exact hplace _
    · simp only [meetDemand, if_neg hframe]
      exact hw
  | memory =>
    by_cases hcompile : mode = .compile
    · simp only [meetDemand, if_pos hcompile]
      exact hw
    · simp only [meetDemand, if_neg hcompile]
      exact hplace _
  | immediate =>
    by_cases hcompile : mode = .compile
    · simp only [meetDemand, if_pos hcompile]
      exact hplace _
    · simp only [meetDemand, if_neg hcompile]
      exact hw

omit [VariableStore σ] in
theorem warnCreated_raises (b : Binding) (policy : ExistPolicy) (side : BindingSide)
    (name : String) :
    Raises (fun w => Q w.scope) E (warnCreated b policy side name : WorkM σ Unit) := by
  intro w hw
  rw [warnCreated_eq]
  exact hw

theorem resolve_raises (hbinding : ∀ side name, E (.binding side name)) (side : BindingSide)
    (name : String) (policy : ExistPolicy) (owner : Option Int32) :
    Raises (fun w => Q w.scope) E (resolve side name policy owner : WorkM σ Binding) := by
  intro w hw
  simp only [resolve]
  cases VariableStore.resolve name policy owner w.machine.store with
  | ok b s => exact hw
  | error e s => exact hbinding side name

theorem enumNumber_raises (hbinding : ∀ side name, E (.binding side name))
    (htext : ∀ name text, E (.text (.noEnumText name text))) (name text : String) :
    Raises (fun w => Q w.scope) E (enumNumber name text : WorkM σ Value) := by
  intro w hw
  rw [enumNumber_eq]
  cases VariableStore.lookup w.machine.store name with
  | none => exact hbinding .read name
  | some id =>
    dsimp only
    cases VariableStore.enumValue? w.machine.store id text with
    | none => exact htext name text
    | some raw => exact hw

theorem bindVariable_raises (hbinding : ∀ side name, E (.binding side name)) (cfg : Setting)
    (op : AccessOp) (name : String) :
    Raises (fun w => Q w.scope) E (bindVariable cfg op name : WorkM σ Unit) := by
  apply (resolve_raises hbinding _ _ _ _).bind
  intro b
  refine Raises.bind (fun _ hw => hw) fun _ => ?_
  exact (warnCreated_raises _ _ _ _).bind fun _ =>
    checkConversion_raises (hbinding .conversion) _ _ _

theorem findVariable_raises (hbinding : ∀ side name, E (.binding side name)) (cfg : Setting)
    (op : AccessOp) (name : String) :
    Raises (fun w => Q w.scope) E (findVariable cfg op name : WorkM σ VarId) := by
  unfold findVariable
  split
  · apply (resolve_raises hbinding _ _ _ _).bind
    intro b
    refine Raises.bind (fun _ hw => hw) fun _ => ?_
    exact (warnCreated_raises _ _ _ _).bind fun _ => raises_pure _
  · apply store_raises.bind
    intro s
    split
    · exact raises_pure _
    · exact raises_throw (hbinding .read name)

/-- A write to a local variable changes the scope, so that nothing is asked of it. -/
theorem accessLocal_raises (hrun : ∀ e, E (.run e)) (cfg : Setting) (op : AccessOp)
    (name : String) : Raises (fun _ => True) E (accessLocal cfg op name : WorkM σ Bool) := by
  apply (locals_raises (Q := fun _ => True) cfg .direct).bind
  intro found
  split
  · exact raises_pure false
  · split
    · split
      · exact (emit_raises (Q := fun _ => True) hrun cfg .direct _).bind fun _ => raises_pure true
      · exact raises_pure false
    · apply (onStack_raises (Q := fun _ => True) hrun _).bind
      intro v
      split
      · exact fun _ h => h
      · exact raises_pure false
    · exact raises_pure false

theorem accessStore_raises (hrun : ∀ e, E (.run e))
    (hbinding : ∀ side name, E (.binding side name)) (cfg : Setting) (op : AccessOp)
    (name : String) :
    Raises (fun w => Q w.scope) E (accessStore cfg op name : WorkM σ Unit) := by
  apply (findVariable_raises hbinding cfg op name).bind
  intro id
  apply (checkConversion_raises (hbinding .conversion) op id name).bind
  intro _
  exact emit_raises hrun cfg .direct _

theorem checkVariable_raises (hrun : ∀ e, E (.run e))
    (hbinding : ∀ side name, E (.binding side name)) (cfg : Setting) (strict : Bool)
    (op : AccessOp) (name : String) :
    Raises (fun w => Q w.scope) E (checkVariable cfg strict op name : WorkM σ Unit) := by
  simp only [checkVariable]
  split
  · exact raises_pure ()
  · refine (locals_raises cfg _).bind fun found => store_raises.bind fun s => ?_
    split
    · exact raises_throw (hbinding .read name)
    · exact emit_raises hrun cfg _ _

/-- What an access raises in any mode, if looking for a local variable raises no more. -/
theorem variableAccess_raises (hrun : ∀ e, E (.run e))
    (hbinding : ∀ side name, E (.binding side name)) (hplace : ∀ f, E (.place f)) {cfg : Setting}
    (hlocal : ∀ op name,
      Raises (fun w => Q w.scope) E (accessLocal cfg op name : WorkM σ Bool))
    (mode : Mode) (op : AccessOp) (name : String) :
    Raises (fun w => Q w.scope) E (variableAccess cfg mode op name : WorkM σ Unit) := by
  cases mode with
  | compile => exact bindVariable_raises hbinding cfg op name
  | check strict => exact checkVariable_raises hrun hbinding cfg strict op name
  | direct =>
    simp only [variableAccess, accessVariable]
    split
    · split
      · exact raises_throw (hplace _)
      · exact emit_raises hrun cfg .direct _
    · apply (hlocal op name).bind
      intro found
      cases found with
      | true => exact raises_pure ()
      | false => exact accessStore_raises hrun hbinding cfg op name

/-- What an action raises, if what it does with local variables raises no more. -/
theorem perform_raises_of (hrun : ∀ e, E (.run e)) (hbinding : ∀ side name, E (.binding side name))
    (hplace : ∀ f, E (.place f)) (htext : ∀ name text, E (.text (.noEnumText name text)))
    {cfg : Setting} {mode : Mode}
    (hlocal : ∀ op name,
      Raises (fun w => Q w.scope) E (accessLocal cfg op name : WorkM σ Bool))
    {a : Action}
    (htarget : ∀ op target, a = .access op target →
      Raises (fun w => Q w.scope) E (targetName cfg mode target : WorkM σ String))
    (hfollow : ∀ reference, a = .follow reference →
      Raises (fun w => Q w.scope) E (dereference cfg mode reference : WorkM σ String)) :
    Raises (fun w => Q w.scope) E (perform cfg mode a : WorkM σ Unit) := by
  have haccess := variableAccess_raises hrun hbinding hplace hlocal mode
  cases a with
  | push v => exact emit_raises hrun cfg mode _
  | operate op => exact emit_raises hrun cfg mode _
  | access op target => exact (htarget op target rfl).bind fun name => haccess op name
  | follow reference => exact (hfollow reference rfl).bind fun _ => raises_pure ()
  | demand d function => exact meetDemand_raises hplace cfg mode function d
  | invoke i count usesFrame =>
    simp only [perform]
    split
    · exact (onStack_raises hrun _).bind fun _ => onStack_raises hrun _
    · exact emit_raises hrun cfg mode i
  | enumText name text =>
    simp only [perform]
    split
    · exact haccess .read name
    · exact (enumNumber_raises hbinding htext name text).bind fun v => emit_raises hrun cfg mode _
  | query q subject =>
    simp only [perform]
    split
    · exact emit_raises hrun cfg mode _
    · exact store_raises.bind fun s => emit_raises hrun cfg mode _
  | compareText bounded ignoreCase left right =>
    exact (textOrder_raises hrun mode bounded ignoreCase left right).bind fun v =>
      emit_raises hrun cfg mode _

end Refusals

/-! ## Variables of an evaluation -/

def Workspace.holding (w : Workspace σ) (b : Binding) (s : σ) (warnings : List String) :
    Workspace σ :=
  { w with
    machine := ⟨w.machine.stack, s⟩
    bindings := w.bindings ++ [b]
    warnings := warnings }

theorem findVariable_read {cfg : Setting} {op : AccessOp} (hop : op.writes = false) (name : String)
    (w : Workspace σ) :
    findVariable cfg op name w =
      match VariableStore.lookup w.machine.store name with
      | some id => .ok id w
      | none => .error (.binding .read name) w := by
  unfold findVariable
  simp only [hop, Bool.false_eq_true, if_false, bind, EStateM.bind, WorkM.store]
  cases VariableStore.lookup w.machine.store name <;> rfl

theorem findVariable_write_ok {cfg : Setting} {op : AccessOp} (hop : op.writes = true)
    {name : String} {w : Workspace σ} {b : Binding} {s : σ}
    (hresolve : VariableStore.resolve name cfg.options.missing.writePolicy cfg.options.owner
      w.machine.store = .ok b s) :
    findVariable cfg op name w =
      .ok b.id (w.holding b s
        (w.warnings ++ b.warnings cfg.options.missing.writePolicy .write name)) := by
  have hbind : resolve .write name cfg.options.missing.writePolicy cfg.options.owner w =
      .ok b { w with machine := ⟨w.machine.stack, s⟩ } := by
    simp only [resolve, hresolve]
  calc findVariable cfg op name w
      = (warnCreated b cfg.options.missing.writePolicy .write name >>= fun _ => pure b.id)
          (w.holding b s w.warnings) := by
        unfold findVariable
        rw [if_pos hop, bind_apply, hbind]
        rfl
    _ = _ := by
        rw [bind_apply, warnCreated_eq]
        rfl

theorem findVariable_write_error {cfg : Setting} {op : AccessOp} (hop : op.writes = true)
    {name : String} {w : Workspace σ} {e : BindError} {s : σ}
    (hresolve : VariableStore.resolve name cfg.options.missing.writePolicy cfg.options.owner
      w.machine.store = .error e s) :
    findVariable cfg op name w =
      .error (.binding .write name) { w with machine := ⟨w.machine.stack, s⟩ } := by
  unfold findVariable
  simp only [hop, if_true, bind, EStateM.bind, resolve, hresolve]

end SignalCalc
