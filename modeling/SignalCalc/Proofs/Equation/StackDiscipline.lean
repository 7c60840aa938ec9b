import SignalCalc.Proofs.Equation.Outcome
import SignalCalc.Proofs.Machine.Run
import SignalCalc.Store.Memory

/-! # Stack discipline

An equation that calls no plugin never misuses the stack. Its code finds every entry that it takes,
leaves exactly one when it goes through, and runs out of room only if its static depth says so. An
evaluation and a check at once are as well behaved.
-/

namespace SignalCalc

open WorkM

/-- The errors of code that was put together wrongly: it takes what is not there, has an operand
that does not fit, calls what nobody registered, or leaves nothing. -/
def RunError.isIndiscipline : RunError → Bool
  | .stackUnderflow | .malformedOperand _ | .crcArguments .. | .unknownPlugin _ | .noResult => true
  | .stackOverflow | .missingFrame _ | .plugin .. | .store _ => false

theorem RunError.Tolerable.disciplined {e : RunError} {depth : Nat} (h : e.Tolerable depth) :
    e.isIndiscipline = false := by
  rcases h with houtside | ⟨rfl, -⟩
  · cases e with
    | missingFrame | store => rfl
    | stackOverflow | stackUnderflow | crcArguments | malformedOperand | unknownPlugin | plugin
    | noResult => cases houtside
  · rfl

/-! ## Edge memories do not matter -/

namespace Instruction

theorem use_forget (i : Instruction) : i.forget.use = i.use := by
  obtain ⟨operation, operand⟩ := i
  cases operand <;> rfl

theorem isPlugin_forget (i : Instruction) : i.forget.isPlugin = i.isPlugin := by
  obtain ⟨operation, operand⟩ := i
  cases operand <;> rfl

theorem fits_forget (i : Instruction) : i.forget.fits = i.fits := by
  obtain ⟨operation, operand⟩ := i
  cases operation with
  | plugin id => cases operand <;> rfl
  | builtin op =>
    cases operand with
    | edge last =>
      cases op with
      | stack op => cases op <;> rfl
      | access | arithmetic | logic | bits | math | cast | edge | frame | crc => rfl
    | absent | literal | bound | argCount => rfl

end Instruction

/-! ## Compiled code -/

variable {σ : Type}

/-- Code under construction: it calls a plugin, or its instructions fit and bring the stack to a
height from which the actions that are left bring it to `total`. -/
def Coded (total : Nat) (rest : List Action) (w : Workspace σ) : Prop :=
  (∃ i ∈ w.code, i.isPlugin = true) ∨
    (∀ i ∈ w.code, i.isPlugin = false ∧ i.fits = true) ∧
      ∃ depth, depthAfter 0 (w.code.map (·.use)) = some depth ∧
        depthAfter depth (rest.map (·.use)) = some total

theorem Coded.append {total : Nat} {a : Action} {rest : List Action} {w : Workspace σ}
    (h : Coded total (a :: rest) w) {i : Instruction} (hfits : i.fits = true)
    (huse : i.isPlugin = true ∨ i.use = a.use) :
    Coded total rest { w with code := w.code ++ [i] } := by
  rcases h with ⟨j, hj, hplugin⟩ | ⟨hcode, depth, hdepth, htotal⟩
  · exact .inl ⟨j, List.mem_append_left _ hj, hplugin⟩
  · rcases huse with hplugin | huse
    · exact .inl ⟨i, by simp, hplugin⟩
    · cases hi : i.isPlugin with
      | true => exact .inl ⟨i, by simp, hi⟩
      | false =>
        simp only [List.map_cons, depthAfter] at htotal
        split at htotal
        · next htakes =>
          refine .inr ⟨?_, depth - a.use.takes + a.use.gives, ?_, htotal⟩
          · intro j hj
            rcases List.mem_append.mp hj with hj | hj
            · exact hcode j hj
            · rw [List.mem_singleton.mp hj]
              exact ⟨hi, hfits⟩
          · simp only [List.map_append, List.map_cons, List.map_nil, depthAfter_append, hdepth,
              huse, depthAfter, Option.bind_some, if_pos htakes]
        · cases htotal

theorem Coded.skip {total : Nat} {a : Action} {rest : List Action} {w w' : Workspace σ}
    (h : Coded total (a :: rest) w) (huse : a.use = ⟨0, 0⟩) (hcode : w'.code = w.code) :
    Coded total rest w' := by
  unfold Coded at h ⊢
  rw [hcode]
  refine h.imp_right fun ⟨hfit, depth, hdepth, htotal⟩ => ⟨hfit, depth, hdepth, ?_⟩
  simpa [depthAfter, huse] using htotal

section Compiling

variable [VariableStore σ]

theorem Coded.compiled {cfg : Setting} {total : Nat} {a : Action} {rest : List Action}
    {w w' : Workspace σ} (ha : a.Listed) (hw : Coded total (a :: rest) w)
    (h : Compiled cfg w a w') : Coded total rest w' := by
  cases h with
  | push v => exact hw.append rfl (.inr rfl)
  | operate op => exact hw.append ha (.inr rfl)
  | invoke i count usesFrame =>
    refine hw.append (Called.fits ha) ?_
    obtain ⟨operation, operand⟩ := i
    cases operation with
    | builtin op => exact .inr rfl
    | plugin id => exact .inl rfl
  | enumText hname htext => exact hw.append rfl (.inr rfl)
  | access warnings hresolve _ => exact hw.append rfl (.inr rfl)
  | frame function => exact hw.skip rfl rfl
  | memory function => exact hw.skip rfl rfl

/-- The instructions of compiled code fit, and bring an empty stack to a height of one, as far as
they are no calls of plugins. -/
theorem compile_depth {cfg : Setting} {scope : Option Scope} {source : String} {s : σ} {p : Program}
    (hp : (compile cfg scope source s).result = .ok p) (hplugin : ∀ i ∈ p.code, i.isPlugin = false) :
    (∀ i ∈ p.code, i.isPlugin = false ∧ i.fits = true) ∧
      depthAfter 0 (p.code.map (·.use)) = some 1 := by
  obtain ⟨total, htotal, hone⟩ := (Script.ofText_disciplined cfg.dialect source).depth
  have hcoded := interpret_compile (w := .start s scope)
    (P := Coded total) (Q := fun _ _ => True)
    (fun _ _ _ _ ha hw h => hw.compiled ha h) (fun _ _ _ _ _ _ _ => trivial)
    (fun _ _ _ => trivial) source (.inr ⟨fun i hi => (List.not_mem_nil hi).elim, 0, rfl, htotal⟩)
  obtain ⟨w, hw, -, rfl⟩ := compile_ok hp
  rw [hw] at hcoded
  obtain ⟨hcoded, hfault⟩ := hcoded
  rcases hcoded with ⟨i, hi, hyes⟩ | ⟨hcode, depth, hdepth, hrest⟩
  · rw [hplugin i hi] at hyes
    cases hyes
  · cases hrest
    rw [hone hfault] at hdepth
    exact ⟨hcode, hdepth⟩

end Compiling

/-! ## Actions at once -/

/-- A refusal that says nothing against the use of the stack: it is not about the run at all, or it
is a tolerable error of the run. -/
def Refusal.Tolerable : Refusal → Nat → Prop
  | .run e, depth => e.Tolerable depth
  | _, _ => True

theorem Refusal.Tolerable.mono (r : Refusal) (a b : Nat) (h : r.Tolerable a) (hab : a ≤ b) :
    r.Tolerable b := by
  cases r with
  | run e => exact RunError.Tolerable.mono h hab
  | text | arity | binding | place => trivial

def Workspace.height (w : Workspace σ) : Nat := w.machine.stack.size

abbrev WorkM.Uses {α : Type} (u : StackUse) (x : WorkM σ α) : Prop :=
  SignalCalc.Uses Workspace.height Refusal.Tolerable u x

theorem WorkM.Uses.bind {α β : Type} {n k m : Nat} {x : WorkM σ α} {f : α → WorkM σ β}
    (hx : WorkM.Uses ⟨n, k⟩ x) (hf : ∀ a, WorkM.Uses ⟨k, m⟩ (f a)) (hkm : k ≤ m) :
    WorkM.Uses ⟨n, m⟩ (x >>= f) :=
  SignalCalc.Uses.bind Refusal.Tolerable.mono hx hf hkm

/-- A refusal that is not about the run can come at any height. -/
theorem throw_uses {α : Type} (u : StackUse) {r : Refusal} (hr : ∀ n, r.Tolerable n) :
    WorkM.Uses u (throw r : WorkM σ α) :=
  fun _ _ => hr _

theorem onMachine_uses {α : Type} {u : StackUse} {x : MachineM σ α} (hx : MachineM.Uses u x) :
    WorkM.Uses u (onMachine x : WorkM σ α) := by
  intro w hw
  have h := hx w.machine hw
  unfold onMachine
  cases hxs : x w.machine with
  | ok a m =>
    rw [hxs] at h
    exact h
  | error e m =>
    rw [hxs] at h
    exact h

theorem onStack_uses {α : Type} {u : StackUse} {x : StackM α} (hx : StackM.Uses u x) :
    WorkM.Uses u (WorkM.onStack x : WorkM σ α) :=
  onMachine_uses (Machine.onStack_uses hx)

/-- Work that does not touch the stack, and whose refusals are not about the run. -/
def Idle {α : Type} (x : WorkM σ α) : Prop :=
  ∀ w, match x w with
    | .ok _ w' => w'.machine.stack = w.machine.stack
    | .error r _ => ∀ n, r.Tolerable n

theorem Idle.uses {α : Type} {x : WorkM σ α} (hx : Idle x) (n : Nat) : WorkM.Uses ⟨n, n⟩ x := by
  intro w hw
  have h := hx w
  dsimp only at hw ⊢
  split at h
  · next hresult =>
    rw [hresult]
    dsimp only
    unfold Workspace.height at hw ⊢
    rw [h]
    omega
  · next hresult =>
    rw [hresult]
    exact h _

theorem idle_pure {α : Type} (a : α) : Idle (pure a : WorkM σ α) := fun _ => rfl

theorem idle_throw {α : Type} {r : Refusal} (hr : ∀ n, r.Tolerable n) :
    Idle (throw r : WorkM σ α) := fun _ => hr

theorem Idle.bind {α β : Type} {x : WorkM σ α} {f : α → WorkM σ β} (hx : Idle x)
    (hf : ∀ a, Idle (f a)) : Idle (x >>= f) := by
  intro w
  have hfirst := hx w
  simp only [Bind.bind, EStateM.bind]
  cases hxs : x w with
  | error r w' =>
    rw [hxs] at hfirst
    exact hfirst
  | ok a w' =>
    rw [hxs] at hfirst
    have hsecond := hf a w'
    dsimp only
    split at hsecond
    · exact hsecond.trans hfirst
    · exact hsecond

theorem locals_idle (cfg : Setting) (mode : Mode) :
    Idle (locals cfg mode : WorkM σ (Option Scope)) := by
  intro w
  obtain ⟨found, hfound⟩ := locals_ok cfg mode w
  rw [hfound]

theorem store_idle : Idle (WorkM.store : WorkM σ σ) := fun _ => rfl

theorem dereference_idle (cfg : Setting) (mode : Mode) (r : String) :
    Idle (dereference cfg mode r : WorkM σ String) := by
  refine (locals_idle cfg mode).bind fun found => ?_
  cases found with
  | none => exact idle_throw fun _ => trivial
  | some scope =>
    dsimp only
    split
    · exact idle_pure _
    · exact idle_throw fun _ => trivial

theorem targetName_idle (cfg : Setting) (mode : Mode) (target : Target) :
    Idle (targetName cfg mode target : WorkM σ String) := by
  cases target with
  | named name => exact idle_pure name
  | reference r => exact dereference_idle cfg mode r

theorem meetDemand_idle (cfg : Setting) (mode : Mode) (function : String) (d : Demand) :
    Idle (meetDemand cfg mode function d : WorkM σ Unit) := by
  cases d with
  | frame =>
    rw [meetDemand]
    split
    · exact idle_throw fun _ => trivial
    · exact fun _ => rfl
  | memory =>
    rw [meetDemand]
    split
    · exact idle_pure _
    · exact idle_throw fun _ => trivial
  | immediate =>
    rw [meetDemand]
    split
    · exact idle_throw fun _ => trivial
    · exact idle_pure _

section Performing

variable [VariableStore σ]

theorem enumNumber_idle (name text : String) : Idle (enumNumber name text : WorkM σ Value) := by
  intro w
  rw [enumNumber_eq]
  cases VariableStore.lookup w.machine.store name with
  | none => exact fun _ => trivial
  | some id =>
    dsimp only
    cases VariableStore.enumValue? w.machine.store id text with
    | none => exact fun _ => trivial
    | some raw => rfl

theorem checkConversion_idle (op : AccessOp) (id : VarId) (name : String) :
    Idle (checkConversion op id name : WorkM σ Unit) := by
  intro w
  rw [checkConversion_eq]
  by_cases h : op.isPhysical = true ∧ VariableStore.hasConversion w.machine.store id = false
  · rw [if_pos h]
    exact fun _ => trivial
  · rw [if_neg h]

theorem findVariable_idle (cfg : Setting) (op : AccessOp) (name : String) :
    Idle (findVariable cfg op name : WorkM σ VarId) := by
  intro w
  cases hwrites : op.writes with
  | true =>
    cases hr : VariableStore.resolve name cfg.options.missing.writePolicy cfg.options.owner
        w.machine.store with
    | ok b t =>
      rw [findVariable_write_ok hwrites hr]
      rfl
    | error e t =>
      rw [findVariable_write_error hwrites hr]
      exact fun _ => trivial
  | false =>
    rw [findVariable_read hwrites]
    cases VariableStore.lookup w.machine.store name with
    | some id => rfl
    | none => exact fun _ => trivial

theorem emit_uses (cfg : Setting) {mode : Mode} (hmode : mode ≠ .compile) {i : Instruction}
    (hplugin : i.isPlugin = false) (hfits : i.fits = true) :
    WorkM.Uses i.use (emit cfg mode i : WorkM σ Unit) := by
  have hstep := onMachine_uses (Machine.step_uses (σ := σ) cfg.plugins
    { lockHeld := cfg.options.lockHeld } hplugin hfits)
  cases mode with
  | compile => exact absurd rfl hmode
  | direct | check => exact hstep.bind (fun _ => uses_pure _ _) (Nat.le_refl _)

theorem emitLiteral_uses (cfg : Setting) {mode : Mode} (hmode : mode ≠ .compile) (v : Value) :
    WorkM.Uses ⟨0, 1⟩ (emitLiteral cfg mode v : WorkM σ Unit) :=
  emit_uses cfg hmode (i := .literal v) rfl rfl

theorem accessStore_uses (cfg : Setting) (op : AccessOp) (name : String) :
    WorkM.Uses ⟨op.takes, 1⟩ (accessStore cfg op name : WorkM σ Unit) := by
  have htakes : op.takes ≤ 1 := by cases op <;> decide
  refine ((findVariable_idle cfg op name).uses op.takes).bind (fun id => ?_) htakes
  refine ((checkConversion_idle op id name).uses op.takes).bind (fun _ => ?_) htakes
  exact emit_uses cfg (by simp) (i := .access op id) rfl rfl

/-- An access to a local variable does what the access wants, or leaves the stack to the store. -/
theorem accessLocal_height (cfg : Setting) (op : AccessOp) (name : String) {w : Workspace σ}
    (hw : op.takes ≤ w.height) :
    match accessLocal cfg op name w with
    | .ok true w' => w'.height = w.height - op.takes + 1
    | .ok false w' => w'.height = w.height
    | .error r _ => r.Tolerable (w.height - op.takes + 1) := by
  obtain ⟨found, hfound⟩ := locals_ok cfg .direct w
  unfold accessLocal
  rw [bind_apply, hfound]
  cases found with
  | none => rfl
  | some scope =>
    cases op with
    | read =>
      dsimp only
      cases scope.read? name with
      | none => rfl
      | some v =>
        have hpush := emitLiteral_uses cfg (show Mode.direct ≠ .compile by simp) v w (Nat.zero_le _)
        dsimp only
        rw [bind_apply]
        cases hemit : emitLiteral cfg .direct v w with
        | ok u w' =>
          rw [hemit] at hpush
          exact hpush
        | error r w' =>
          rw [hemit] at hpush
          exact hpush
    | write =>
      have hpeek := onStack_uses (σ := σ) Stack.peek_uses w hw
      dsimp only
      rw [bind_apply]
      cases hresult : WorkM.onStack Stack.peek w with
      | error r w' =>
        rw [hresult] at hpeek
        exact hpeek
      | ok v w' =>
        rw [hresult] at hpeek
        dsimp only
        cases scope.write? name v with
        | some scope => exact hpeek
        | none =>
          -- peeking takes one entry and puts it back
          have hsize : 1 ≤ w.height := hw
          dsimp only at hpeek
          change w'.height = w.height
          omega
    | readPhysical | writePhysical | readBits | writeBits | invertedBits => rfl

theorem accessVariable_uses (cfg : Setting) (op : AccessOp) (name : String) :
    WorkM.Uses ⟨op.takes, 1⟩ (accessVariable cfg op name : WorkM σ Unit) := by
  unfold accessVariable
  split
  · split
    · exact throw_uses _ fun _ => trivial
    · next hreads =>
      have htakes : op.takes = 0 := if_neg hreads
      rw [htakes]
      exact emitLiteral_uses cfg (by simp) _
  · intro w hw
    have hlocal := accessLocal_height cfg op name hw
    simp only [bind, EStateM.bind]
    cases hresult : accessLocal cfg op name w with
    | error r w' =>
      rw [hresult] at hlocal
      exact hlocal
    | ok done w' =>
      rw [hresult] at hlocal
      cases done with
      | true => exact hlocal
      | false =>
        have hstore := accessStore_uses cfg op name w' (by rw [hlocal]; exact hw)
        rw [hlocal] at hstore
        exact hstore

theorem checkVariable_uses (cfg : Setting) (strict : Bool) (op : AccessOp) (name : String) :
    WorkM.Uses ⟨op.takes, 1⟩ (checkVariable cfg strict op name : WorkM σ Unit) := by
  unfold checkVariable
  split
  · next hwrites =>
    have htakes : op.takes = 1 := if_pos hwrites
    rw [htakes]
    exact uses_pure 1 ()
  · next hreads =>
    have htakes : op.takes = 0 := if_neg hreads
    rw [htakes]
    refine ((locals_idle cfg _).uses 0).bind (fun scope => ?_) (Nat.zero_le _)
    refine (store_idle.uses 0).bind (fun s => ?_) (Nat.zero_le _)
    dsimp only
    split
    · exact throw_uses _ fun _ => trivial
    · exact emitLiteral_uses cfg (by simp) _

omit [VariableStore σ] in
theorem stubResult_uses (count : Nat) : WorkM.Uses ⟨count, 1⟩ (stubResult count : WorkM σ Unit) :=
  (onStack_uses (Stack.popMany_uses count)).bind (fun _ => onStack_uses (Stack.push_uses _))
    (Nat.zero_le _)

omit [VariableStore σ] in
theorem textOrder_uses (mode : Mode) (bounded ignoreCase : Bool) (left right : String) :
    WorkM.Uses ⟨if bounded then 1 else 0, 0⟩
      (textOrder mode bounded ignoreCase left right : WorkM σ Value) := by
  obtain ⟨order, horder⟩ := textOrder_eq (σ := σ) mode bounded ignoreCase left right
  rw [horder]
  cases bounded with
  | false => exact uses_pure 0 _
  | true => exact (onStack_uses Stack.pop_uses).bind (fun _ => uses_pure 0 _) (Nat.le_refl _)

/-- A function of the frame takes as many entries as it has arguments. -/
theorem Builtin.frame_use : ∀ b ∈ Builtin.table, b.gate = .frame → b.op ≠ .math .near := by
  decide +kernel

/-- An action that is carried out at once keeps to its use. -/
theorem perform_uses (cfg : Setting) {mode : Mode} (hmode : mode ≠ .compile) {a : Action}
    (ha : a.Listed) (hplugin : a.isPlugin = false) :
    WorkM.Uses a.use (perform cfg mode a : WorkM σ Unit) := by
  have haccess : ∀ op name,
      WorkM.Uses ⟨op.takes, 1⟩ (variableAccess cfg mode op name : WorkM σ Unit) := by
    intro op name
    cases mode with
    | compile => exact absurd rfl hmode
    | direct => exact accessVariable_uses cfg op name
    | check strict => exact checkVariable_uses cfg strict op name
  cases a with
  | push v => exact emitLiteral_uses cfg hmode v
  | operate op => exact emit_uses cfg hmode (i := .plain op) rfl ha
  | access op target =>
    have htakes : op.takes ≤ 1 := by cases op <;> decide
    exact ((targetName_idle cfg mode target).uses op.takes).bind (fun name => haccess op name) htakes
  | follow r =>
    exact ((dereference_idle cfg mode r).bind fun _ => idle_pure _).uses 0
  | demand d function => exact (meetDemand_idle cfg mode function d).uses 0
  | invoke i count usesFrame =>
    unfold perform
    dsimp only
    cases ha with
    | plugin id count usesFrame => cases hplugin
    | @builtin b count hb hcount =>
      obtain ⟨hfits, huse⟩ := Builtin.instruction_use b hb count (Arity.le_maxArguments hcount) hcount
      change WorkM.Uses (b.instruction count).use _
      split
      · next hframe =>
        -- a check puts 0 in the place of the arguments, as many as were counted
        have hgate : b.gate = .frame := by
          simpa using (Bool.and_eq_true_iff.mp hframe).1
        rw [huse, if_neg (Builtin.frame_use b hb hgate)]
        exact stubResult_uses count
      · exact emit_uses cfg hmode rfl hfits
  | enumText name text =>
    unfold perform
    dsimp only
    split
    · exact haccess .read name
    · exact ((enumNumber_idle name text).uses 0).bind (fun v => emitLiteral_uses cfg hmode v)
        (Nat.zero_le _)
  | query q subject =>
    unfold perform
    dsimp only
    split
    · exact emitLiteral_uses cfg hmode _
    · exact (store_idle.uses 0).bind (fun s => emitLiteral_uses cfg hmode _) (Nat.zero_le _)
  | compareText bounded ignoreCase left right =>
    exact (textOrder_uses mode bounded ignoreCase left right).bind
      (fun v => emitLiteral_uses cfg hmode v) (Nat.zero_le _)

/-- Whether a refusal is an error of a run that misused the stack. -/
def Refusal.isIndiscipline : Refusal → Bool
  | .run e => e.isIndiscipline
  | _ => false

theorem Refusal.Tolerable.disciplined {r : Refusal} {depth : Nat} (h : r.Tolerable depth) :
    r.isIndiscipline = false := by
  cases r with
  | run e => exact RunError.Tolerable.disciplined h
  | text | arity | binding | place => rfl

/-- Actions carried out at once bring the stack to the height that their uses say. -/
theorem performAll_height (cfg : Setting) {mode : Mode} (hmode : mode ≠ .compile)
    {actions : List Action} (hactions : ∀ a ∈ actions, a.Listed ∧ a.isPlugin = false)
    {w : Workspace σ} {depth : Nat}
    (hdepth : depthAfter w.height (actions.map (·.use)) = some depth) :
    match performAll cfg mode actions w with
    | .ok _ w' => w'.height = depth
    | .error r _ => r.isIndiscipline = false := by
  -- induction on the actions that are left, from whatever height the stack has by then
  induction actions generalizing w with
  | nil => exact Option.some.inj hdepth
  | cons a actions ih =>
    obtain ⟨hlisted, hplugin⟩ := hactions a (by simp)
    simp only [List.map_cons, depthAfter] at hdepth
    split at hdepth
    · next htakes =>
      have hfirst := perform_uses cfg hmode hlisted hplugin w htakes
      rw [performAll, bind_apply]
      cases hperform : perform cfg mode a w with
      | error r w' =>
        rw [hperform] at hfirst
        exact hfirst.disciplined
      | ok u w' =>
        rw [hperform] at hfirst
        dsimp only at hfirst ⊢
        rw [← hfirst] at hdepth
        exact ih (fun b hb => hactions b (List.mem_cons_of_mem a hb)) hdepth
    · cases hdepth

/-- An equation carried out at once leaves one entry on the stack, or is refused for a reason that
is no misuse of the stack. -/
theorem interpret_height (cfg : Setting) {mode : Mode} (hmode : mode ≠ .compile) {source : String}
    (hplugin : ∀ a ∈ (Script.ofText cfg.dialect source).actions, a.isPlugin = false) (s : σ)
    (scope : Option Scope) :
    match interpret cfg mode (.ofText cfg.dialect source) (.start s scope) with
    | .ok _ w => w.height = 1
    | .error r _ => r.isIndiscipline = false := by
  have hscript := Script.ofText_disciplined cfg.dialect source
  obtain ⟨depth, hdepth, hone⟩ := hscript.depth
  have hall := performAll_height cfg hmode (fun a ha => ⟨hscript.listed a ha, hplugin a ha⟩)
    (w := .start s scope) hdepth
  rw [interpret, bind_apply]
  cases hperform : performAll cfg mode (Script.ofText cfg.dialect source).actions
      (.start s scope) with
  | error r w =>
    rw [hperform] at hall
    exact hall
  | ok u w =>
    rw [hperform] at hall
    dsimp only at hall ⊢
    cases hfault : (Script.ofText cfg.dialect source).fault with
    | none => exact hall.trans (hone hfault)
    | some f => cases f <;> rfl

theorem evaluate_disciplined (cfg : Setting) (scope : Option Scope) {source : String}
    (hplugin : ∀ a ∈ (Script.ofText cfg.dialect source).actions, a.isPlugin = false) (s : σ)
    {error : EquationError} (h : (evaluate cfg scope source s).result = .error error) :
    error.refusal.isIndiscipline = false := by
  have hheight := interpret_height cfg (show Mode.direct ≠ .compile by simp) hplugin s scope
  rcases evaluate_error h with ⟨w, hw⟩ | ⟨w, hw, hbottom, -⟩
  · rw [hw] at hheight
    exact hheight
  · -- one entry is left, so that there is a result
    rw [hw] at hheight
    have hempty : w.machine.stack.entries = [] := List.getLast?_eq_none_iff.mp hbottom
    dsimp only at hheight
    rw [Workspace.height, Stack.size, hempty] at hheight
    cases hheight

theorem check_disciplined (cfg : Setting) (strict : Bool) (scope : Option Scope) {source : String}
    (hplugin : ∀ a ∈ (Script.ofText cfg.dialect source).actions, a.isPlugin = false) (s : σ)
    {error : EquationError} (h : (check cfg strict scope source s).result = .error error) :
    error.refusal.isIndiscipline = false := by
  have hheight := interpret_height cfg (show Mode.check strict ≠ .compile by simp) hplugin s scope
  rw [check, Parser.read_eq_interpret] at h
  cases hinterpret : interpret cfg (.check strict) (.ofText cfg.dialect source)
      (.start s scope) with
  | error r w =>
    rw [hinterpret] at hheight h
    cases h
    exact hheight
  | ok u w =>
    rw [hinterpret] at h
    cases h

end Performing

/-! ## Runs -/

/-- Runs of a program whose instructions fit, call no plugin, and bring the stack to a height of
one. -/
theorem Program.run_disciplined [VariableStore σ] {p : Program}
    (hcode : ∀ i ∈ p.code, i.isPlugin = false ∧ i.fits = true)
    (hdepth : depthAfter 0 (p.code.map (·.use)) = some 1) (plugins : Registry) (ctx : Context)
    (s : σ) :
    match (p.run plugins ctx s).result with
    | .ok v => (p.run plugins ctx s).stack.entries = [v] ∧ p.maxDepth ≤ stackCapacity
    | .error e => e.isIndiscipline = false ∧ (e = .stackOverflow → stackCapacity < p.maxDepth) := by
  have hrun := Machine.run_depth plugins ctx hcode ⟨.empty, s⟩ hdepth
  unfold Program.run
  dsimp only
  cases hstopped : (Machine.run plugins ctx p.code ⟨.empty, s⟩).stopped with
  | some e =>
    rw [hstopped] at hrun
    refine ⟨hrun.disciplined, fun he => ?_⟩
    rcases hrun with houtside | ⟨-, hroom⟩
    · rw [he] at houtside
      cases houtside
    · exact hroom
  | none =>
    rw [hstopped] at hrun
    obtain ⟨hsize, hpeak⟩ := hrun
    obtain ⟨v, hv⟩ := List.length_eq_one_iff.mp hsize
    have hbottom : (Machine.run plugins ctx p.code ⟨.empty, s⟩).machine.stack.bottom? = some v := by
      unfold Stack.bottom?
      rw [hv]
      rfl
    simp only [hbottom]
    exact ⟨hv, hpeak⟩

theorem Program.Descends.disciplined {plugins : Registry} {p q : Program}
    (h : Descends plugins p q) (hcode : ∀ i ∈ p.code, i.isPlugin = false ∧ i.fits = true) :
    (∀ i ∈ q.code, i.isPlugin = false ∧ i.fits = true) ∧
      q.code.map (·.use) = p.code.map (·.use) := by
  refine ⟨?_, map_of_forget Instruction.use_forget h.forget⟩
  have hboth := map_of_forget (f := fun i => (i.isPlugin, i.fits))
    (fun i => by rw [i.isPlugin_forget, i.fits_forget]) h.forget
  intro i hi
  have hmem : (i.isPlugin, i.fits) ∈ q.code.map fun i => (i.isPlugin, i.fits) :=
    List.mem_map_of_mem hi
  rw [hboth] at hmem
  obtain ⟨j, hj, heq⟩ := List.mem_map.mp hmem
  simp only [Prod.mk.injEq] at heq
  rw [← heq.1, ← heq.2]
  exact hcode j hj

/-- The stack discipline of equations. A program without calls of plugins, at any time of its life
and in any run: it never misuses the stack; if it succeeds, the result is the only entry left, and
its static depth fits the stack; if it runs out of room, its static depth does not fit. An
evaluation or a check of an equation that calls no plugin never misuses the stack either. -/
theorem stack_discipline [VariableStore σ] (cfg : Setting) (scope : Option Scope) (source : String)
    (s : σ) :
    (∀ p, (compile cfg scope source s).result = .ok p → (∀ i ∈ p.code, i.isPlugin = false) →
      ∀ plugins q, Program.Descends plugins p q → ∀ (ctx : Context) (t : σ),
        match (q.run plugins ctx t).result with
        | .ok v => (q.run plugins ctx t).stack.entries = [v] ∧ q.maxDepth ≤ stackCapacity
        | .error e =>
          e.isIndiscipline = false ∧ (e = .stackOverflow → stackCapacity < q.maxDepth)) ∧
      ((∀ a ∈ (Script.ofText cfg.dialect source).actions, a.isPlugin = false) →
        (∀ error, (evaluate cfg scope source s).result = .error error →
          error.refusal.isIndiscipline = false) ∧
        ∀ strict error, (check cfg strict scope source s).result = .error error →
          error.refusal.isIndiscipline = false) := by
  refine ⟨?_, fun hplugin => ⟨?_, ?_⟩⟩
  · intro p hp hplugin plugins q hq ctx t
    obtain ⟨hcode, hdepth⟩ := compile_depth hp hplugin
    obtain ⟨hcode, huse⟩ := hq.disciplined hcode
    rw [← huse] at hdepth
    exact q.run_disciplined hcode hdepth plugins ctx t
  · exact fun error h => evaluate_disciplined cfg scope hplugin s h
  · exact fun strict error h => check_disciplined cfg strict scope hplugin s h

/-- A sum leaves its value on the stack and nothing else. -/
theorem stack_discipline_sum :
    ∃ p, (compile {} none "1+2" ({} : MemoryStore)).result = .ok p ∧
      (∀ i ∈ p.code, i.isPlugin = false) ∧
      ∃ v, (p.execute .empty ({} : MemoryStore)).result = .ok v ∧
        (p.execute .empty ({} : MemoryStore)).stack.entries = [v] ∧ p.maxDepth ≤ stackCapacity := by
  have hcompile : ∃ p, (compile {} none "1+2" ({} : MemoryStore)).result = .ok p ∧
      (∀ i ∈ p.code, i.isPlugin = false) ∧
      ∃ v, (p.execute .empty ({} : MemoryStore)).result = .ok v := by
    rw [compile, Parser.read_eq_interpret]
    exact ⟨_, rfl, by decide, _, rfl⟩
  obtain ⟨p, hp, hplugin, v, hv⟩ := hcompile
  have hrun := (stack_discipline {} none "1+2" ({} : MemoryStore)).1 p hp hplugin .empty p .self
    p.context ({} : MemoryStore)
  change (p.run .empty p.context ({} : MemoryStore)).result = .ok v at hv
  rw [hv] at hrun
  exact ⟨p, hp, hplugin, v, hv, hrun⟩

end SignalCalc
