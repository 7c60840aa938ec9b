import SignalCalc.Proofs.Machine.Effects
import SignalCalc.Proofs.Store.Reachable

namespace SignalCalc

/-! ## Writes -/

namespace MemoryStore

inductive Written (ids : VarId → Prop) (s : MemoryStore) : MemoryStore → Prop where
  | refl : Written ids s s
  | write {s' s'' : MemoryStore} {id : VarId} {value : Value} {lockHeld : Bool}
      (h : Written ids s s') (hid : ids id)
      (hw : MemoryStore.write id value lockHeld s' = .ok () s'') : Written ids s s''

namespace Written

variable {ids ids' : VarId → Prop} {s s' s'' : MemoryStore}

theorem trans (h : Written ids s s') (h' : Written ids s' s'') : Written ids s s'' := by
  induction h' with
  | refl => exact h
  | write _ hid hw ih => exact ih.write hid hw

theorem mono (hids : ∀ id, ids id → ids' id) (h : Written ids s s') : Written ids' s s' := by
  induction h with
  | refl => exact .refl
  | write _ hid hw ih => exact ih.write (hids _ hid) hw

theorem reachable (h : Written ids s s') (hs : Reachable s) : Reachable s' := by
  induction h with
  | refl => exact hs
  | write _ hid hw ih => exact ih.write hw

theorem lastId (h : Written ids s s') : s'.lastId = s.lastId := by
  induction h with
  | refl => rfl
  | write _ _ hw ih =>
    rw [(write_ok hw).2]
    exact ih

/-- Writes change values and nothing else. -/
theorem slot? (h : Written ids s s') (id : VarId) :
    ∃ value : Value → Value,
      s'.slot? id = (s.slot? id).map fun slot => { slot with value := value slot.value } := by
  induction h with
  | refl => exact ⟨fun v => v, by simp⟩
  | @write s' s'' written value _ _ _ hw ih =>
    obtain ⟨f, hf⟩ := ih
    rw [(write_ok hw).2, slot?_update s' written id (keepsIdentity_put value)]
    split
    · rw [hf]
      cases s.slot? id with
      | none => exact ⟨f, rfl⟩
      | some slot => exact ⟨fun _ => slot.dataType.coerce value, rfl⟩
    · exact ⟨f, hf⟩

theorem isSome_slot? (h : Written ids s s') (id : VarId) :
    (s'.slot? id).isSome = (s.slot? id).isSome := by
  obtain ⟨f, hf⟩ := h.slot? id
  rw [hf, Option.isSome_map]

theorem slot?_other (h : Written ids s s') {id : VarId} (hid : ¬ ids id) :
    s'.slot? id = s.slot? id := by
  induction h with
  | refl => rfl
  | @write s' s'' written value _ _ hwritten hw ih =>
    have hne : id ≠ written := fun heq => hid (heq ▸ hwritten)
    rw [(write_ok hw).2, slot?_update_ne s' (keepsIdentity_put value) hne, ih]

end Written

theorem writePhysical_write {s s' : MemoryStore} {id : VarId} {value : Float} {lockHeld : Bool}
    (hw : MemoryStore.writePhysical id value lockHeld s = .ok () s') :
    ∃ raw, MemoryStore.write id raw lockHeld s = .ok () s' := by
  unfold MemoryStore.writePhysical MemoryStore.conversion? at hw
  cases hslot : s.slot? id with
  | none => simp [hslot] at hw
  | some slot =>
    cases hconversion : slot.conversion with
    | none => simp [hslot, hconversion] at hw
    | some c =>
      simp only [hslot, hconversion] at hw
      split at hw
      · cases hw
      · refine ⟨.ofFloat ((value - c.offset) / c.factor), ?_⟩
        simp only [MemoryStore.write, hslot]
        exact hw

theorem write_keeps (id : VarId) (value : Value) (lockHeld : Bool) :
    Keeps (Written (· = id)) (MemoryStore.write id value lockHeld) := by
  intro s
  cases hw : MemoryStore.write id value lockHeld s with
  | ok u s' => exact Written.refl.write rfl hw
  | error e s' =>
    unfold MemoryStore.write at hw
    split at hw
    · cases hw
    · cases hw
      exact .refl

theorem writePhysical_keeps (id : VarId) (value : Float) (lockHeld : Bool) :
    Keeps (Written (· = id)) (MemoryStore.writePhysical id value lockHeld) := by
  intro s
  cases hw : MemoryStore.writePhysical id value lockHeld s with
  | ok u s' =>
    obtain ⟨raw, hraw⟩ := writePhysical_write hw
    exact Written.refl.write rfl hraw
  | error e s' =>
    unfold MemoryStore.writePhysical at hw
    split at hw
    · cases hw
      exact .refl
    · split at hw
      · cases hw
        exact .refl
      · cases hw

end MemoryStore

open MemoryStore

/-! ## Instructions -/

namespace Instruction

def overwrites (id : VarId) : Instruction → Bool
  | ⟨.builtin (.access op), .bound x⟩ => op.writes && x = id
  | _ => false

theorem overwrites_access (op : AccessOp) (x id : VarId) :
    (access op x).overwrites id = (op.writes && x = id) := rfl

theorem access_of_overwrites {id : VarId} {i : Instruction} (h : i.overwrites id = true) :
    ∃ op : AccessOp, op.writes = true ∧ i = .access op id := by
  unfold overwrites at h
  split at h
  · next op x =>
    simp only [Bool.and_eq_true, decide_eq_true_eq] at h
    exact ⟨op, h.1, by rw [h.2]; rfl⟩
  · cases h

theorem binding?_of_overwrites {id : VarId} {i : Instruction} (h : i.overwrites id = true) :
    i.binding? = some id := by
  obtain ⟨op, -, rfl⟩ := access_of_overwrites h
  exact binding?_access op id

theorem mem_bindings_of_overwrites {id : VarId} {code : List Instruction}
    (h : code.any (·.overwrites id) = true) : id ∈ code.filterMap (·.binding?) := by
  obtain ⟨i, hi, hid⟩ := List.any_eq_true.mp h
  exact List.mem_filterMap.mpr ⟨i, hi, binding?_of_overwrites hid⟩

end Instruction

namespace Machine

def Wrote (ids : VarId → Prop) (m m' : Machine MemoryStore) : Prop :=
  Written ids m.store m'.store

variable {ids : VarId → Prop}

theorem Wrote.refl (m : Machine MemoryStore) : Wrote ids m m := Written.refl

theorem Wrote.bind {α β : Type} {x : MachineM MemoryStore α} {f : α → MachineM MemoryStore β}
    (hx : Keeps (Wrote ids) x) (hf : ∀ a, Keeps (Wrote ids) (f a)) : Keeps (Wrote ids) (x >>= f) :=
  Keeps.bind (R := Wrote ids) (fun _ _ _ h h' => Written.trans h h') hx hf

theorem onStack_keeps {α : Type} (x : StackM α) : Keeps (Wrote ids) (onStack x) := by
  intro m
  unfold onStack
  cases x m.stack with
  | ok a stack => exact Written.refl
  | error e stack => exact Written.refl

theorem onStore_keeps {α : Type} {x : EStateM StoreError MemoryStore α}
    (hx : Keeps (Written ids) x) : Keeps (Wrote ids) (onStore x) := by
  intro m
  have h := hx m.store
  unfold onStore
  cases hxs : x m.store with
  | ok a store =>
    rw [hxs] at h
    exact h
  | error e store =>
    rw [hxs] at h
    exact h

theorem getStore_keeps : Keeps (Wrote ids) (getStore : MachineM MemoryStore MemoryStore) :=
  fun _ => Written.refl

/-- An access writes to its own variable at most, and only if it is there to write. -/
theorem access_keeps (ctx : Context) (op : AccessOp) (id : VarId) :
    Keeps (Wrote ((Instruction.access op id).overwrites · = true))
      (access ctx op id : MachineM MemoryStore Unit) := by
  have hown : ∀ {x : EStateM StoreError MemoryStore Unit}, op.writes = true →
      Keeps (Written (· = id)) x →
      Keeps (Wrote ((Instruction.access op id).overwrites · = true)) (onStore x) := by
    intro x hop hx
    refine onStore_keeps (hx.mono fun _ _ h => h.mono ?_)
    rintro _ rfl
    simp [Instruction.overwrites_access, hop]
  cases op with
  | read =>
    unfold access
    dsimp only
    split
    · exact onStack_keeps _
    · exact Wrote.bind getStore_keeps fun _ => onStack_keeps _
  | readPhysical =>
    unfold access
    dsimp only
    split
    · exact onStack_keeps _
    · refine Wrote.bind getStore_keeps fun store => ?_
      split
      · exact onStack_keeps _
      · exact keeps_throw Wrote.refl _
  | write =>
    exact Wrote.bind (onStack_keeps _) fun v => hown rfl (write_keeps id v _)
  | writePhysical =>
    exact Wrote.bind (onStack_keeps _) fun v => hown rfl (writePhysical_keeps id _ _)
  | readBits | invertedBits =>
    exact Wrote.bind getStore_keeps fun _ => onStack_keeps _
  | writeBits =>
    refine Wrote.bind (onStack_keeps _) fun v => ?_
    refine Wrote.bind getStore_keeps fun store => ?_
    exact Wrote.bind (hown rfl (write_keeps id _ _)) fun _ => onStack_keeps _

/-- An instruction writes the variable that it overwrites, if it overwrites one. -/
theorem step_overwrites (plugins : Registry) (ctx : Context) (i : Instruction) :
    Keeps (Wrote (i.overwrites · = true))
      (step plugins ctx i : MachineM MemoryStore Instruction) := by
  obtain ⟨operation, operand⟩ := i
  cases operation with
  | plugin id => exact Wrote.bind (onStack_keeps _) fun _ => keeps_pure Wrote.refl _
  | builtin op =>
    refine Wrote.bind ?_ fun _ => keeps_pure Wrote.refl _
    refine builtin_rule (Φ := fun _ x => Keeps (Wrote _) x) ctx op operand
      (fun a => keeps_pure Wrote.refl a) Wrote.bind (keeps_throw Wrote.refl _)
      (fun {_ x} _ => onStack_keeps x) fun access id haccess => ?_
    rw [haccess]
    exact access_keeps ctx access id

/-- An instruction writes to the variable that it names, if it names one. -/
theorem step_written (plugins : Registry) (ctx : Context) (i : Instruction) :
    Keeps (Wrote (i.binding? = some ·))
      (step plugins ctx i : MachineM MemoryStore Instruction) :=
  (step_overwrites plugins ctx i).mono fun _ _ =>
    Written.mono fun _ => Instruction.binding?_of_overwrites

/-- A run writes the variables that its code overwrites. -/
theorem run_overwrites (plugins : Registry) (ctx : Context) (code : List Instruction)
    (m : Machine MemoryStore) :
    Wrote (fun id => code.any (·.overwrites id) = true) m (run plugins ctx code m).machine := by
  induction code generalizing m with
  | nil => exact Written.refl
  | cons i code ih =>
    have hfirst : ∀ id, i.overwrites id = true → (i :: code).any (·.overwrites id) = true :=
      fun id hid => by simp [hid]
    have hrest : ∀ id, code.any (·.overwrites id) = true →
        (i :: code).any (·.overwrites id) = true := fun id hid => by
      rw [List.any_cons, hid, Bool.or_true]
    have hstep := step_overwrites plugins ctx i m
    unfold run
    cases hi : step plugins ctx i m with
    | error e m' =>
      rw [hi] at hstep
      exact Written.mono hfirst hstep
    | ok i' m' =>
      rw [hi] at hstep
      exact (Written.mono hfirst hstep).trans (Written.mono hrest (ih m'))

/-- A run writes to variables that its code names. -/
theorem run_written (plugins : Registry) (ctx : Context) (code : List Instruction)
    (m : Machine MemoryStore) :
    Wrote (· ∈ code.filterMap (·.binding?)) m (run plugins ctx code m).machine :=
  Written.mono (fun _ => Instruction.mem_bindings_of_overwrites) (run_overwrites plugins ctx code m)

end Machine

/-! ## Missing variables -/

namespace Machine

def Known (ids : VarId → Prop) (m : Machine MemoryStore) : Prop :=
  ∀ id, ids id → (m.store.slot? id).isSome

theorem Wrote.known {ids known : VarId → Prop} {m m' : Machine MemoryStore} (h : Wrote ids m m')
    (hm : Known known m) : Known known m' := by
  intro id hid
  rw [Written.isSome_slot? h id]
  exact hm id hid

abbrev AsksFor {α : Type} (ids : VarId → Prop) (x : MachineM MemoryStore α) : Prop :=
  Raises (Known ids) (·.isMissing = false) x

theorem onStack_asksFor {α : Type} {x : StackM α} (hx : x.Storeless) (ids : VarId → Prop) :
    AsksFor ids (onStack x) := by
  intro m hm
  have h := hx m.stack trivial
  unfold onStack
  cases hxs : x m.stack with
  | ok a stack => exact hm
  | error e stack =>
    rw [hxs] at h
    exact h

theorem getStore_asksFor (ids : VarId → Prop) :
    AsksFor ids (getStore : MachineM MemoryStore MemoryStore) :=
  fun _ hm => hm

/-- A write that keeps known variables known asks for what it cannot find. -/
theorem onStore_asksFor {ids : VarId → Prop} {x : EStateM StoreError MemoryStore Unit}
    (hkeeps : Keeps (Written ids) x)
    (hfinds : ∀ s, (∀ id, ids id → (s.slot? id).isSome) → ∀ e s', x s = .error e s' →
      (RunError.store e).isMissing = false) : AsksFor ids (onStore x) := by
  intro m hm
  have hkept := onStore_keeps hkeeps m
  have herror := hfinds m.store hm
  unfold onStore at hkept ⊢
  cases hxs : x m.store with
  | ok a store =>
    rw [hxs] at hkept
    exact Wrote.known hkept hm
  | error e store => exact herror e store hxs

theorem write_asksFor (id : VarId) (value : Value) (lockHeld : Bool) :
    AsksFor (· = id) (onStore (MemoryStore.write id value lockHeld)) := by
  refine onStore_asksFor (write_keeps id value lockHeld) ?_
  intro s hs e s' hw
  obtain ⟨slot, hslot⟩ := Option.isSome_iff_exists.mp (hs id rfl)
  simp [MemoryStore.write, hslot] at hw

theorem conversion?_error {s : MemoryStore} {id : VarId} (hid : (s.slot? id).isSome)
    {e : StoreError} (h : s.conversion? id = .error e) : e = .noConversion id := by
  obtain ⟨slot, hslot⟩ := Option.isSome_iff_exists.mp hid
  unfold MemoryStore.conversion? at h
  simp only [hslot] at h
  split at h
  · cases h
  · cases h
    rfl

theorem writePhysical_asksFor (id : VarId) (value : Float) (lockHeld : Bool) :
    AsksFor (· = id) (onStore (MemoryStore.writePhysical id value lockHeld)) := by
  refine onStore_asksFor (writePhysical_keeps id value lockHeld) ?_
  intro s hs e s' hw
  unfold MemoryStore.writePhysical at hw
  split at hw
  · next e' hconversion =>
    cases hw
    rw [conversion?_error (hs id rfl) hconversion]
    rfl
  · split at hw
    · cases hw
      rfl
    · cases hw

theorem access_asksFor (ctx : Context) (op : AccessOp) (id : VarId) :
    AsksFor (· = id) (access ctx op id : MachineM MemoryStore Unit) := by
  have hpush : ∀ v, AsksFor (· = id) (push v : MachineM MemoryStore Unit) := fun v =>
    onStack_asksFor (Stack.push_storeless v) _
  cases op with
  | read =>
    unfold access
    dsimp only
    split
    · exact hpush _
    · exact (getStore_asksFor _).bind fun _ => hpush _
  | readPhysical =>
    unfold access
    dsimp only
    split
    · exact hpush _
    · -- the conversion may be missing, but not the variable
      intro m hm
      simp only [bind, EStateM.bind, getStore, VariableStore.readPhysical, MemoryStore.readPhysical]
      cases hconversion : m.store.conversion? id with
      | error e =>
        rw [conversion?_error (hm id rfl) hconversion]
        rfl
      | ok pair => exact hpush _ m hm
  | write =>
    exact (onStack_asksFor Stack.peek_storeless _).bind fun v => write_asksFor id v _
  | writePhysical =>
    exact (onStack_asksFor Stack.peek_storeless _).bind fun v => writePhysical_asksFor id _ _
  | readBits | invertedBits => exact (getStore_asksFor _).bind fun _ => hpush _
  | writeBits =>
    refine (onStack_asksFor Stack.pop_storeless _).bind fun v => ?_
    refine (getStore_asksFor _).bind fun store => ?_
    exact (write_asksFor id _ _).bind fun _ => hpush _

/-- A built-in operation asks for the variable that its instruction names at most. -/
theorem builtin_asksFor (ctx : Context) (op : Opcode) (operand : Operand) :
    AsksFor ((⟨.builtin op, operand⟩ : Instruction).binding? = some ·)
      (builtin ctx op operand : MachineM MemoryStore Operand) := by
  refine builtin_rule (Φ := fun _ x => AsksFor _ x) ctx op operand
    (fun a => raises_pure a) Raises.bind (raises_throw rfl) (fun hx => onStack_asksFor hx _)
    fun access id haccess => ?_
  simp only [haccess, Instruction.binding?_access, Option.some.injEq, @eq_comm _ id]
  exact access_asksFor ctx access id

/-- An instruction whose variable is there stops for want of a variable only when it calls a plugin
that says so. -/
theorem step_missing {plugins : Registry} {ctx : Context} {i : Instruction}
    {m m' : Machine MemoryStore} {e : RunError} (hknown : Known (i.binding? = some ·) m)
    (h : step plugins ctx i m = .error e m') (he : e.isMissing = true) :
    ∃ id call stack, i.operation = .plugin id ∧ plugins.call id call m.stack = .error e stack := by
  obtain ⟨operation, operand⟩ := i
  cases operation with
  | plugin id =>
    simp only [step, bind, EStateM.bind, onStack] at h
    split at h
    · cases h
    · next e' m'' hcall =>
      split at hcall
      · cases hcall
      · next hplugin =>
        cases hcall
        cases h
        exact ⟨id, _, _, rfl, hplugin⟩
  | builtin op =>
    -- a built-in operation asks for its own variable only, and that one is there
    have hbuiltin := builtin_asksFor ctx op operand m hknown
    simp only [step, bind, EStateM.bind] at h
    split at h
    · cases h
    · next e' m'' hop =>
      cases h
      rw [hop] at hbuiltin
      rw [hbuiltin] at he
      cases he

/-- A run of code whose variables are all there stops for want of a variable only when a plugin
that it calls says so. -/
theorem run_missing {plugins : Registry} {ctx : Context} {code : List Instruction}
    {m : Machine MemoryStore} {e : RunError} (hknown : Known (· ∈ code.filterMap (·.binding?)) m)
    (h : (run plugins ctx code m).stopped = some e) (he : e.isMissing = true) :
    ∃ i ∈ code, ∃ id call stack stack', i.operation = .plugin id ∧
      plugins.call id call stack = .error e stack' := by
  induction code generalizing m with
  | nil => cases h
  | cons i code ih =>
    have hfirst : Known (i.binding? = some ·) m := fun id hid =>
      hknown id (List.mem_filterMap.mpr ⟨i, by simp, hid⟩)
    have hstep := step_written plugins ctx i m
    unfold run at h
    cases hi : step plugins ctx i m with
    | error e' m' =>
      rw [hi] at h
      cases h
      obtain ⟨id, call, stack, hop, hcall⟩ := step_missing hfirst hi he
      exact ⟨i, by simp, id, call, _, stack, hop, hcall⟩
    | ok i' m' =>
      rw [hi] at h hstep
      have hrest : Known (· ∈ code.filterMap (·.binding?)) m' := by
        refine Wrote.known hstep fun id hid => hknown id ?_
        obtain ⟨j, hj, hbinding⟩ := List.mem_filterMap.mp hid
        exact List.mem_filterMap.mpr ⟨j, List.mem_cons_of_mem i hj, hbinding⟩
      obtain ⟨j, hj, hcall⟩ := ih hrest h
      exact ⟨j, List.mem_cons_of_mem i hj, hcall⟩

end Machine

end SignalCalc
