import SignalCalc.Proofs.Equation.Outcome
import SignalCalc.Proofs.Machine.Writes

/-! # What work on an equation touches

Most of the work on an equation goes on between the stack, the code and the note that a frame is
used. What lies beyond, namely the store, the scope, the attachments of an evaluation and the
warnings, is reached by accesses to variables only, and never by a check.
-/

namespace SignalCalc

open WorkM

/-! ## Work that touches nothing -/

/-- The store, the scope, the attachments and the warnings are the same. -/
structure Untouched {σ : Type} (w w' : Workspace σ) : Prop where
  store : w'.machine.store = w.machine.store
  scope : w'.scope = w.scope
  bindings : w'.bindings = w.bindings
  warnings : w'.warnings = w.warnings

namespace Untouched

variable {σ : Type}

theorem refl (w : Workspace σ) : Untouched w w := ⟨rfl, rfl, rfl, rfl⟩

theorem trans {w₁ w₂ w₃ : Workspace σ} (h : Untouched w₁ w₂) (h' : Untouched w₂ w₃) :
    Untouched w₁ w₃ :=
  ⟨h'.store.trans h.store, h'.scope.trans h.scope, h'.bindings.trans h.bindings,
    h'.warnings.trans h.warnings⟩

theorem bind {α β : Type} {x : WorkM σ α} {f : α → WorkM σ β} (hx : Keeps Untouched x)
    (hf : ∀ a, Keeps Untouched (f a)) : Keeps Untouched (x >>= f) :=
  Keeps.bind (R := Untouched) (fun _ _ _ => trans) hx hf

theorem pure {α : Type} (a : α) : Keeps Untouched (Pure.pure a : WorkM σ α) := keeps_pure refl a

theorem throw {α : Type} (r : Refusal) : Keeps Untouched (MonadExcept.throw r : WorkM σ α) :=
  keeps_throw refl r

end Untouched

section Untouched

variable {σ : Type}

def Machine.SameStore (m m' : Machine σ) : Prop := m'.store = m.store

theorem Machine.SameStore.refl (m : Machine σ) : SameStore m m := rfl

theorem Machine.SameStore.bind {α β : Type} {x : MachineM σ α} {f : α → MachineM σ β}
    (hx : Keeps SameStore x) (hf : ∀ a, Keeps SameStore (f a)) : Keeps SameStore (x >>= f) :=
  Keeps.bind (R := SameStore) (fun _ _ _ h h' => Eq.trans h' h) hx hf

theorem Machine.onStack_sameStore {α : Type} (x : StackM α) :
    Keeps SameStore (Machine.onStack x : MachineM σ α) := by
  intro m
  simp only [Machine.onStack]
  cases x m.stack with
  | ok a stack => rfl
  | error e stack => rfl

theorem onMachine_untouched {α : Type} {x : MachineM σ α} (hx : Keeps Machine.SameStore x) :
    Keeps Untouched (onMachine x) := by
  intro w
  have hstore := hx w.machine
  simp only [onMachine]
  cases hxw : x w.machine with
  | ok a m =>
    rw [hxw] at hstore
    exact ⟨hstore, rfl, rfl, rfl⟩
  | error e m =>
    rw [hxw] at hstore
    exact ⟨hstore, rfl, rfl, rfl⟩

theorem onStack_untouched {α : Type} (x : StackM α) :
    Keeps Untouched (WorkM.onStack x : WorkM σ α) :=
  onMachine_untouched (Machine.onStack_sameStore x)

theorem store_untouched : Keeps Untouched (WorkM.store : WorkM σ σ) := Untouched.refl

theorem locals_untouched (cfg : Setting) (mode : Mode) :
    Keeps Untouched (locals cfg mode : WorkM σ (Option Scope)) := by
  intro w
  obtain ⟨found, hfound⟩ := locals_ok cfg mode w
  rw [hfound]
  exact .refl w

theorem dereference_untouched (cfg : Setting) (mode : Mode) (r : String) :
    Keeps Untouched (dereference cfg mode r : WorkM σ String) := by
  apply Untouched.bind (locals_untouched cfg mode)
  intro found
  cases found with
  | none => exact Untouched.throw _
  | some scope =>
    dsimp only
    cases scope.dereference? r with
    | none => exact Untouched.throw _
    | some name => exact Untouched.pure name

theorem targetName_untouched (cfg : Setting) (mode : Mode) (target : Target) :
    Keeps Untouched (targetName cfg mode target : WorkM σ String) := by
  cases target with
  | named name => exact Untouched.pure name
  | reference r => exact dereference_untouched cfg mode r

theorem meetDemand_untouched (cfg : Setting) (mode : Mode) (function : String) (d : Demand) :
    Keeps Untouched (meetDemand cfg mode function d : WorkM σ Unit) := by
  cases d with
  | frame =>
    simp only [meetDemand]
    split
    · exact Untouched.throw _
    · exact fun _ => ⟨rfl, rfl, rfl, rfl⟩
  | memory =>
    simp only [meetDemand]
    split
    · exact Untouched.pure _
    · exact Untouched.throw _
  | immediate =>
    simp only [meetDemand]
    split
    · exact Untouched.throw _
    · exact Untouched.pure _

theorem stubResult_untouched (count : Nat) : Keeps Untouched (stubResult count : WorkM σ Unit) :=
  Untouched.bind (onStack_untouched _) fun _ => onStack_untouched _

theorem textOrder_untouched (mode : Mode) (bounded ignoreCase : Bool) (left right : String) :
    Keeps Untouched (textOrder mode bounded ignoreCase left right : WorkM σ Value) := by
  obtain ⟨order, horder⟩ := textOrder_eq (σ := σ) mode bounded ignoreCase left right
  rw [horder]
  cases bounded with
  | false => exact Untouched.pure _
  | true => exact Untouched.bind (onStack_untouched _) fun _ => Untouched.pure _

variable [VariableStore σ]

/-- An instruction that names no variable leaves the store alone. -/
theorem Machine.step_sameStore (plugins : Registry) (ctx : Context) {i : Instruction}
    (hi : i.binding? = none) :
    Keeps SameStore (step plugins ctx i : MachineM σ Instruction) := by
  obtain ⟨operation, operand⟩ := i
  cases operation with
  | plugin id => exact SameStore.bind (onStack_sameStore _) fun _ => keeps_pure SameStore.refl _
  | builtin op =>
    have hbuiltin : Keeps SameStore (builtin ctx op operand : MachineM σ Operand) := by
      refine builtin_rule (Φ := fun _ x => Keeps SameStore x) ctx op operand
        (fun a => keeps_pure SameStore.refl a) SameStore.bind (keeps_throw SameStore.refl _)
        (fun {_ x} _ => onStack_sameStore x) ?_
      -- only an instruction that names a variable gets to an access
      intro access id haccess
      rw [haccess, Instruction.binding?_access] at hi
      cases hi
    exact SameStore.bind hbuiltin fun _ => keeps_pure SameStore.refl _

theorem emit_untouched (cfg : Setting) (mode : Mode) {i : Instruction} (hi : i.binding? = none) :
    Keeps Untouched (emit cfg mode i : WorkM σ Unit) := by
  cases mode with
  | compile => exact fun _ => ⟨rfl, rfl, rfl, rfl⟩
  | direct | check =>
    apply Untouched.bind (onMachine_untouched (Machine.step_sameStore cfg.plugins _ hi))
    exact fun _ => Untouched.pure ()

theorem checkConversion_untouched (op : AccessOp) (id : VarId) (name : String) :
    Keeps Untouched (checkConversion op id name : WorkM σ Unit) := by
  apply Untouched.bind store_untouched
  intro s
  split
  · exact Untouched.throw _
  · exact Untouched.pure _

theorem enumNumber_untouched (name text : String) :
    Keeps Untouched (enumNumber name text : WorkM σ Value) := by
  apply Untouched.bind store_untouched
  intro s
  cases VariableStore.lookup s name with
  | none => exact Untouched.throw _
  | some id =>
    dsimp only
    cases VariableStore.enumValue? s id text with
    | none => exact Untouched.throw _
    | some raw => exact Untouched.pure _

theorem checkVariable_untouched (cfg : Setting) (strict : Bool) (op : AccessOp) (name : String) :
    Keeps Untouched (checkVariable cfg strict op name : WorkM σ Unit) := by
  simp only [checkVariable]
  split
  · exact Untouched.pure _
  · apply Untouched.bind (locals_untouched cfg _)
    intro scope
    apply Untouched.bind store_untouched
    intro s
    split
    · exact Untouched.throw _
    · exact emit_untouched cfg _ rfl

/-- Only an access to a variable touches anything, and in a check not even that. -/
theorem perform_untouched (cfg : Setting) (mode : Mode) {a : Action} (ha : a.Listed)
    (haccess : mode.isCheck = true ∨ ∀ op target, a ≠ .access op target) :
    Keeps Untouched (perform cfg mode a : WorkM σ Unit) := by
  have hcheck : ∀ op name, mode.isCheck = true →
      Keeps Untouched (variableAccess cfg mode op name : WorkM σ Unit) := by
    intro op name hmode
    cases mode with
    | compile | direct => cases hmode
    | check strict => exact checkVariable_untouched cfg strict op name
  cases a with
  | push v => exact emit_untouched cfg mode rfl
  | operate op => exact emit_untouched cfg mode rfl
  | access op target =>
    have hmode := haccess.resolve_right fun h => h op target rfl
    exact Untouched.bind (targetName_untouched cfg mode target) fun name => hcheck op name hmode
  | follow r => exact Untouched.bind (dereference_untouched cfg mode r) fun _ => Untouched.pure _
  | demand d function => exact meetDemand_untouched cfg mode function d
  | invoke i count usesFrame =>
    simp only [perform]
    split
    · exact stubResult_untouched count
    · exact emit_untouched cfg mode (Called.binding? ha)
  | enumText name text =>
    simp only [perform]
    split
    · next hmode => exact hcheck .read name hmode
    · exact Untouched.bind (enumNumber_untouched name text) fun v => emit_untouched cfg mode rfl
  | query q subject =>
    simp only [perform]
    split
    · exact emit_untouched cfg mode rfl
    · exact Untouched.bind store_untouched fun s => emit_untouched cfg mode rfl
  | compareText bounded ignoreCase left right =>
    exact Untouched.bind (textOrder_untouched mode bounded ignoreCase left right) fun v =>
      emit_untouched cfg mode rfl

end Untouched

/-! ## Scripts -/

section Scripts

variable {σ : Type} [VariableStore σ]

/-- What every action keeps is kept by a script, however it ends. -/
theorem interpret_keeps {cfg : Setting} {mode : Mode} {R : Workspace σ → Workspace σ → Prop}
    (hrefl : ∀ w, R w w) (htrans : ∀ a b c, R a b → R b c → R a c) {script : Script}
    (h : ∀ a ∈ script.actions, Keeps R (perform cfg mode a)) :
    Keeps R (interpret cfg mode script) := by
  have hall : ∀ actions : List Action, (∀ a ∈ actions, Keeps R (perform cfg mode a)) →
      Keeps R (performAll cfg mode actions) := by
    intro actions hactions
    induction actions with
    | nil => exact keeps_pure hrefl ()
    | cons a actions ih =>
      exact (hactions a (by simp)).bind htrans fun _ =>
        ih fun b hb => hactions b (List.mem_cons_of_mem a hb)
  refine (hall _ h).bind htrans fun _ => ?_
  cases script.fault with
  | none => exact keeps_pure hrefl ()
  | some f => exact keeps_throw hrefl _

section Trail

variable {cfg : Setting} {mode : Mode} {R : Workspace σ → Workspace σ → Prop}
  (hrefl : ∀ w, R w w) (htrans : ∀ a b c, R a b → R b c → R a c)
include hrefl htrans

/-- Actions that go through do so one by one, each in a workspace that the earlier ones have left. -/
theorem performAll_ok {actions : List Action} (h : ∀ a ∈ actions, Keeps R (perform cfg mode a))
    {w w' : Workspace σ} (hok : performAll cfg mode actions w = .ok () w') :
    ∀ a ∈ actions, ∃ v v', R w v ∧ perform cfg mode a v = .ok () v' := by
  induction actions generalizing w with
  | nil => simp
  | cons first actions ih =>
    have hfirst := h first (by simp) w
    rw [performAll, bind_apply] at hok
    cases hperform : perform cfg mode first w with
    | error r v =>
      rw [hperform] at hok
      cases hok
    | ok u v =>
      rw [hperform] at hok hfirst
      intro a ha
      rcases List.mem_cons.mp ha with rfl | ha
      · exact ⟨w, v, hrefl w, hperform⟩
      · obtain ⟨v', v'', hkept, hstep⟩ := ih (fun b hb => h b (List.mem_cons_of_mem _ hb)) hok a ha
        exact ⟨v', v'', htrans _ _ _ hfirst hkept, hstep⟩

/-- Actions that are refused are so at one of them. -/
theorem performAll_error {actions : List Action} (h : ∀ a ∈ actions, Keeps R (perform cfg mode a))
    {w w' : Workspace σ} {r : Refusal} (herror : performAll cfg mode actions w = .error r w') :
    ∃ a ∈ actions, ∃ v v', R w v ∧ perform cfg mode a v = .error r v' := by
  induction actions generalizing w with
  | nil => cases herror
  | cons first actions ih =>
    have hfirst := h first (by simp) w
    rw [performAll, bind_apply] at herror
    cases hperform : perform cfg mode first w with
    | error r' v =>
      rw [hperform] at herror
      cases herror
      exact ⟨first, by simp, w, w', hrefl w, hperform⟩
    | ok u v =>
      rw [hperform] at herror hfirst
      obtain ⟨a, ha, v', v'', hkept, hstep⟩ :=
        ih (fun b hb => h b (List.mem_cons_of_mem _ hb)) herror
      exact ⟨a, List.mem_cons_of_mem _ ha, v', v'', htrans _ _ _ hfirst hkept, hstep⟩

end Trail

theorem interpret_check_untouched (cfg : Setting) (strict : Bool) (source : String) :
    Keeps Untouched
      (interpret cfg (.check strict) (.ofText cfg.dialect source) : WorkM σ Unit) := by
  apply interpret_keeps Untouched.refl fun _ _ _ => Untouched.trans
  intro a ha
  have hlisted := (Script.ofText_disciplined cfg.dialect source).listed a ha
  exact perform_untouched cfg _ hlisted (.inl rfl)

/-- A check ends in a workspace that it has not touched, and hands out the store and the scope of
it. -/
theorem check_ends (cfg : Setting) (strict : Bool) (scope : Option Scope) (source : String) (s : σ) :
    ∃ w, Untouched (.start s scope) w ∧
      (check cfg strict scope source s).store = w.machine.store ∧
      (check cfg strict scope source s).scope = w.scope := by
  have hkept := interpret_check_untouched cfg strict source (.start s scope)
  rw [check, Parser.read_eq_interpret]
  cases hrun : interpret cfg (.check strict) (.ofText cfg.dialect source) (.start s scope) with
  | ok u w =>
    rw [hrun] at hkept
    exact ⟨w, hkept, rfl, rfl⟩
  | error r w =>
    rw [hrun] at hkept
    exact ⟨w, hkept, rfl, rfl⟩

theorem check_store (cfg : Setting) (strict : Bool) (scope : Option Scope) (source : String)
    (s : σ) : (check cfg strict scope source s).store = s := by
  obtain ⟨w, hkept, hstore, -⟩ := check_ends cfg strict scope source s
  exact hstore.trans hkept.store

/-- A check has no effects. Whatever it finds, strict or not, the store is the very same afterwards,
with all of its variables, its counter, its processes and its live programs, and so are the local
variables of the script. -/
theorem check_leaves_all (cfg : Setting) (strict : Bool) (scope : Option Scope) (source : String)
    (s : σ) :
    (check cfg strict scope source s).store = s ∧
      (check cfg strict scope source s).scope = scope := by
  obtain ⟨w, hkept, hstore, hscope⟩ := check_ends cfg strict scope source s
  exact ⟨hstore.trans hkept.store, hscope.trans hkept.scope⟩

end Scripts

/-! ## Actions of an evaluation -/

open MemoryStore

/-- One change that an action of an evaluation makes: it touches nothing, it writes values to the
store, it assigns to a local variable, or it resolves the name of a variable that it writes. -/
inductive Moved (cfg : Setting) (a : Action) (w : Workspace MemoryStore) :
    Workspace MemoryStore → Prop where
  | untouched {w' : Workspace MemoryStore} (h : Untouched w w') : Moved cfg a w w'
  | written {ids : VarId → Prop} {m : Machine MemoryStore}
      (h : Written ids w.machine.store m.store) : Moved cfg a w { w with machine := m }
  | assigned {scope scope' : Scope} {name : String} {v : Value} (hscope : w.scope = some scope)
      (h : scope.write? name v = some scope') : Moved cfg a w { w with scope := some scope' }
  | resolved {op : AccessOp} {target : Target} {name : String} {b : Binding} {t : MemoryStore}
      (ha : a = .access op target) (hop : op.writes = true)
      (h : MemoryStore.resolve name cfg.options.missing.writePolicy cfg.options.owner
        w.machine.store = .ok b t) :
      Moved cfg a w
        (w.holding b t (w.warnings ++ b.warnings cfg.options.missing.writePolicy .write name))

section Moved

variable {cfg : Setting} {a : Action} {R : Workspace MemoryStore → Workspace MemoryStore → Prop}

theorem emit_moved (htrans : ∀ u v w, R u v → R v w → R u w)
    (hmoved : ∀ w w', Moved cfg a w w' → R w w') (i : Instruction) :
    Keeps R (emit cfg .direct i) := by
  have hrun : Keeps R (onMachine (Machine.step cfg.plugins
      { lockHeld := cfg.options.lockHeld } i)) := by
    intro w
    have hstep := Machine.step_written cfg.plugins { lockHeld := cfg.options.lockHeld } i w.machine
    simp only [onMachine]
    cases hresult : Machine.step cfg.plugins { lockHeld := cfg.options.lockHeld } i w.machine with
    | ok i' m =>
      rw [hresult] at hstep
      exact hmoved _ _ (.written hstep)
    | error e m =>
      rw [hresult] at hstep
      exact hmoved _ _ (.written hstep)
  exact hrun.bind htrans fun _ => keeps_pure (fun w => hmoved w w (.untouched (.refl w))) ()

theorem findVariable_moved (hmoved : ∀ w w', Moved cfg a w w' → R w w') {op : AccessOp}
    {target : Target} (ha : a = .access op target) (name : String) :
    Keeps R (findVariable cfg op name) := by
  intro w
  have hrefl : R w w := hmoved w w (.untouched (.refl w))
  cases hwrites : op.writes with
  | false =>
    rw [findVariable_read hwrites]
    cases VariableStore.lookup w.machine.store name with
    | some id => exact hrefl
    | none => exact hrefl
  | true =>
    cases hresolve : VariableStore.resolve name cfg.options.missing.writePolicy cfg.options.owner
        w.machine.store with
    | ok b t =>
      rw [findVariable_write_ok hwrites hresolve]
      exact hmoved _ _ (.resolved ha hwrites hresolve)
    | error e t =>
      rw [findVariable_write_error hwrites hresolve]
      obtain ⟨-, -, rfl⟩ := resolve_error hresolve
      exact hrefl

/-- A local variable is read from the scope or assigned to. -/
theorem accessLocal_moved (htrans : ∀ u v w, R u v → R v w → R u w)
    (hmoved : ∀ w w', Moved cfg a w w' → R w w') (op : AccessOp) (name : String) :
    Keeps R (accessLocal cfg op name) := by
  intro w
  have hquiet : ∀ w', Untouched w w' → R w w' := fun w' h => hmoved w w' (.untouched h)
  rw [accessLocal, bind_apply, locals_eq (by simp)]
  cases hlocals : cfg.locals? w.scope with
  | none => exact hquiet w (.refl w)
  | some scope =>
    dsimp only
    cases op with
    | read =>
      dsimp only
      cases scope.read? name with
      | none => exact hquiet w (.refl w)
      | some v =>
        have hemit := emit_untouched (σ := MemoryStore) cfg .direct (i := .literal v) rfl w
        simp only [bind_apply, emitLiteral]
        cases hresult : emit cfg .direct (.literal v) w with
        | ok u w' =>
          rw [hresult] at hemit
          exact hquiet w' hemit
        | error r w' =>
          rw [hresult] at hemit
          exact hquiet w' hemit
    | write =>
      have hpeek := onStack_untouched (σ := MemoryStore) Stack.peek w
      dsimp only
      rw [bind_apply]
      cases hresult : WorkM.onStack Stack.peek w with
      | error r w' =>
        rw [hresult] at hpeek
        exact hquiet w' hpeek
      | ok v w' =>
        rw [hresult] at hpeek
        dsimp only
        cases hwrite : scope.write? name v with
        | none => exact hquiet w' hpeek
        | some scope' =>
          -- the scope that is assigned to is the one that was looked up
          have hscope : w'.scope = some scope := hpeek.scope.trans (scope_of_locals? hlocals)
          exact htrans w w' _ (hquiet w' hpeek) (hmoved w' _ (.assigned hscope hwrite))
    | readPhysical | writePhysical | readBits | writeBits | invertedBits =>
      exact hquiet w (.refl w)

theorem accessVariable_moved (htrans : ∀ u v w, R u v → R v w → R u w)
    (hmoved : ∀ w w', Moved cfg a w w' → R w w') {op : AccessOp} {target : Target}
    (ha : a = .access op target) (name : String) : Keeps R (accessVariable cfg op name) := by
  have hquiet : ∀ {α : Type} {x : WorkM MemoryStore α}, Keeps Untouched x → Keeps R x :=
    fun hx => hx.mono fun w w' h => hmoved w w' (.untouched h)
  have hstore : Keeps R (accessStore cfg op name) := by
    apply (findVariable_moved hmoved ha name).bind htrans
    intro id
    apply (hquiet (checkConversion_untouched op id name)).bind htrans
    exact fun _ => emit_moved htrans hmoved (.access op id)
  simp only [accessVariable]
  split
  · split
    · exact hquiet (Untouched.throw _)
    · exact hquiet (emit_untouched cfg .direct rfl)
  · apply (accessLocal_moved htrans hmoved op name).bind htrans
    intro done
    cases done with
    | true => exact hquiet (Untouched.pure ())
    | false => exact hstore

/-- What contains every change that an action can make, and is transitive, contains all that the
action does during an evaluation, however it ends. -/
theorem perform_direct_rule (htrans : ∀ u v w, R u v → R v w → R u w)
    (hmoved : ∀ w w', Moved cfg a w w' → R w w') (ha : a.Listed) :
    Keeps R (perform cfg .direct a) := by
  have hquiet : ∀ {α : Type} {x : WorkM MemoryStore α}, Keeps Untouched x → Keeps R x :=
    fun hx => hx.mono fun w w' h => hmoved w w' (.untouched h)
  by_cases haccess : ∃ op target, a = .access op target
  · obtain ⟨op, target, rfl⟩ := haccess
    apply (hquiet (targetName_untouched cfg .direct target)).bind htrans
    exact fun name => accessVariable_moved htrans hmoved rfl name
  · refine hquiet (perform_untouched cfg .direct ha (.inr ?_))
    exact fun op target h => haccess ⟨op, target, h⟩

end Moved

end SignalCalc
