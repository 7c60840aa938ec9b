import SignalCalc.Proofs.Machine.Run
import SignalCalc.Proofs.Store.Sight

/-! # Machines that are alike

The machine sees the variables that its code names and nothing else of its store. Take any relation
between stores under which these variables look the same, and which the same write to both stores
does not break. Two machines with one stack and related stores then do the same: they give the same
results, stop for the same errors, and are alike again afterwards.
-/

namespace SignalCalc

namespace MemoryStore

/-- A relation between stores that show some variables alike, and go on to do so when the same value
is put in both of them for some variable that may be written. -/
structure Likeness (sees writes : VarId → Prop) (R : MemoryStore → MemoryStore → Prop) : Prop where
  sight : ∀ {s t : MemoryStore} {id : VarId}, R s t → sees id → t.sight id = s.sight id
  put : ∀ {s t : MemoryStore} {id : VarId} (value : Value), R s t → writes id →
    R (s.update id (·.put value)) (t.update id (·.put value))

end MemoryStore

namespace Machine

open MemoryStore

/-- The machines have the same stack and related stores. -/
structure Alike (R : MemoryStore → MemoryStore → Prop) (m m' : Machine MemoryStore) : Prop where
  stack : m'.stack = m.stack
  store : R m.store m'.store

/-- A computation that ends in the same way on machines that are alike, and leaves them alike. -/
def Shared {α : Type} (R : MemoryStore → MemoryStore → Prop) (x : MachineM MemoryStore α) : Prop :=
  ∀ m m', Alike R m m' →
    match x m with
    | .ok a n => ∃ n', x m' = .ok a n' ∧ Alike R n n'
    | .error e n => ∃ n', x m' = .error e n' ∧ Alike R n n'

/-! ## Computations -/

section Shared

variable {sees writes : VarId → Prop} {R : MemoryStore → MemoryStore → Prop}

theorem shared_pure {α : Type} (a : α) : Shared R (pure a) := fun _ m' h => ⟨m', rfl, h⟩

theorem shared_throw {α : Type} (e : RunError) : Shared R (throw e : MachineM MemoryStore α) :=
  fun _ m' h => ⟨m', rfl, h⟩

theorem Shared.bind {α β : Type} {x : MachineM MemoryStore α} {f : α → MachineM MemoryStore β}
    (hx : Shared R x) (hf : ∀ a, Shared R (f a)) : Shared R (x >>= f) := by
  intro m m' hm
  have hfirst := hx m m' hm
  simp only [Bind.bind, EStateM.bind]
  cases hxm : x m with
  | error e n =>
    rw [hxm] at hfirst
    obtain ⟨n', hn', halike⟩ := hfirst
    rw [hn']
    exact ⟨n', rfl, halike⟩
  | ok a n =>
    rw [hxm] at hfirst
    obtain ⟨n', hn', halike⟩ := hfirst
    rw [hn']
    exact hf a n n' halike

theorem onStack_shared {α : Type} (x : StackM α) : Shared R (onStack x) := by
  intro m m' hm
  simp only [onStack, hm.stack]
  cases x m.stack with
  | ok a stack => exact ⟨_, rfl, rfl, hm.store⟩
  | error e stack => exact ⟨_, rfl, rfl, hm.store⟩

/-- A computation that looks at its store only for what related stores have in common. -/
theorem getStore_shared {β : Type} {f : MemoryStore → MachineM MemoryStore β}
    (hsame : ∀ s t, R s t → f t = f s) (hf : ∀ s, Shared R (f s)) : Shared R (getStore >>= f) := by
  intro m m' hm
  have hrun : ∀ n : Machine MemoryStore, (getStore >>= f) n = f n.store n := fun _ => rfl
  rw [hrun, hrun, hsame m.store m'.store hm.store]
  exact hf m.store m m' hm

theorem write_shared (hR : Likeness sees writes R) {id : VarId} (hsees : sees id)
    (hwrites : writes id) (value : Value) (lockHeld : Bool) :
    Shared R (onStore (MemoryStore.write id value lockHeld)) := by
  intro m m' hm
  simp only [onStore, write_of_sight, hR.sight hm.store hsees]
  cases m.store.sight id with
  | none => exact ⟨_, rfl, hm⟩
  | some seen => exact ⟨_, rfl, hm.stack, hR.put value hm.store hwrites⟩

theorem writePhysical_shared (hR : Likeness sees writes R) {id : VarId} (hsees : sees id)
    (hwrites : writes id) (value : Float) (lockHeld : Bool) :
    Shared R (onStore (MemoryStore.writePhysical id value lockHeld)) := by
  intro m m' hm
  simp only [onStore, writePhysical_of_sight, hR.sight hm.store hsees]
  cases m.store.sight id with
  | none => exact ⟨_, rfl, hm⟩
  | some seen =>
    obtain ⟨v, type, conversion⟩ := seen
    cases conversion with
    | none => exact ⟨_, rfl, hm⟩
    | some c =>
      -- both stores show this conversion, so both writes fail or put the same raw value
      dsimp only
      by_cases hfactor : c.factor == 0.0
      · rw [if_pos hfactor, if_pos hfactor]
        exact ⟨_, rfl, hm⟩
      · rw [if_neg hfactor, if_neg hfactor]
        exact ⟨_, rfl, hm.stack, hR.put _ hm.store hwrites⟩

/-! ## Instructions and runs -/

theorem access_shared (hR : Likeness sees writes R) (ctx : Context) (op : AccessOp) {id : VarId}
    (hsees : sees id) (hwrites : op.writes = true → writes id) :
    Shared R (access ctx op id : MachineM MemoryStore Unit) := by
  have hpush : ∀ v, Shared R (push v : MachineM MemoryStore Unit) := fun v => onStack_shared _
  have hread : ∀ s t : MemoryStore, R s t → t.read id = s.read id := fun s t h => by
    rw [read_of_sight, read_of_sight, hR.sight h hsees]
  have htype : ∀ s t : MemoryStore, R s t → t.dataType id = s.dataType id := fun s t h => by
    rw [dataType_of_sight, dataType_of_sight, hR.sight h hsees]
  have hbits : ∀ s t : MemoryStore, R s t → rawBits t id = rawBits s id := fun s t h => by
    simp only [rawBits, VariableStore.read, VariableStore.dataType, hread s t h, htype s t h]
  -- of the store an access sees the value and the type of its own variable
  cases op with
  | read =>
    unfold access
    dsimp only
    split
    · exact hpush _
    · refine getStore_shared (fun s t h => ?_) fun _ => hpush _
      simp only [VariableStore.read, hread s t h]
  | readPhysical =>
    unfold access
    dsimp only
    split
    · exact hpush _
    · refine getStore_shared (fun s t h => ?_) fun s => ?_
      · simp only [VariableStore.readPhysical, readPhysical_of_sight, hR.sight h hsees]
      · split
        · exact hpush _
        · exact shared_throw _
  | write => exact (onStack_shared _).bind fun v => write_shared hR hsees (hwrites rfl) v _
  | writePhysical =>
    exact (onStack_shared _).bind fun v => writePhysical_shared hR hsees (hwrites rfl) _ _
  | readBits =>
    refine getStore_shared (fun s t h => ?_) fun _ => hpush _
    rw [hbits s t h]
  | invertedBits =>
    refine getStore_shared (fun s t h => ?_) fun _ => hpush _
    simp only [hbits s t h]
  | writeBits =>
    refine (onStack_shared _).bind fun v => ?_
    refine getStore_shared (fun s t h => ?_) fun s => ?_
    · -- the type decides which value the bits stand for
      simp only [VariableStore.dataType, htype s t h]
    · exact (write_shared hR hsees (hwrites rfl) _ _).bind fun _ => hpush _

/-- Machines that are alike in what an instruction names do the same when they execute it. -/
theorem step_shared (hR : Likeness sees writes R) (plugins : Registry) (ctx : Context)
    {i : Instruction} (hsees : ∀ id, i.binding? = some id → sees id)
    (hwrites : ∀ id, i.overwrites id = true → writes id) :
    Shared R (step plugins ctx i : MachineM MemoryStore Instruction) := by
  obtain ⟨operation, operand⟩ := i
  cases operation with
  | plugin id => exact (onStack_shared _).bind fun _ => shared_pure _
  | builtin op =>
    refine Shared.bind ?_ fun _ => shared_pure _
    refine builtin_rule (Φ := fun _ x => Shared R x) ctx op operand (fun a => shared_pure a)
      Shared.bind (shared_throw _) (fun {_ x} _ => onStack_shared x) fun access id haccess => ?_
    rw [haccess] at hsees hwrites
    refine access_shared hR ctx access (hsees id (Instruction.binding?_access access id)) ?_
    intro hop
    apply hwrites id
    simp [Instruction.overwrites_access, hop]

theorem run_shared (hR : Likeness sees writes R) (plugins : Registry) (ctx : Context)
    {code : List Instruction} (hsees : ∀ i ∈ code, ∀ id, i.binding? = some id → sees id)
    (hwrites : ∀ i ∈ code, ∀ id, i.overwrites id = true → writes id)
    {m m' : Machine MemoryStore} (hm : Alike R m m') :
    (run plugins ctx code m').stopped = (run plugins ctx code m).stopped ∧
      (run plugins ctx code m').code = (run plugins ctx code m).code ∧
      Alike R (run plugins ctx code m).machine (run plugins ctx code m').machine := by
  induction code generalizing m m' with
  | nil => exact ⟨rfl, rfl, hm⟩
  | cons i code ih =>
    rw [List.forall_mem_cons] at hsees hwrites
    have hstep := step_shared hR plugins ctx hsees.1 hwrites.1 m m' hm
    simp only [run]
    cases hi : step plugins ctx i m with
    | error e n =>
      rw [hi] at hstep
      obtain ⟨n', hn', halike⟩ := hstep
      rw [hn']
      exact ⟨rfl, rfl, halike⟩
    | ok j n =>
      rw [hi] at hstep
      obtain ⟨n', hn', halike⟩ := hstep
      obtain ⟨hstopped, hcode, hlast⟩ := ih hsees.2 hwrites.2 halike
      rw [hn']
      exact ⟨hstopped, congrArg (j :: ·) hcode, hlast⟩

end Shared

/-! ## Mimicry -/

/-- The machine `m'` has the stack of `m` and shows what `m` sees. The variables of some numbers are
there. -/
structure Mimics (ids : VarId → Prop) (m m' : Machine MemoryStore) : Prop where
  stack : m'.stack = m.stack
  shows : Shows m'.store m.store
  known : Known ids m

/-- A computation that goes the same way on a machine and on one that mimics it. -/
def Copied {α : Type} (ids : VarId → Prop) (x : MachineM MemoryStore α) : Prop :=
  ∀ m m', Mimics ids m m' →
    match x m with
    | .ok a n => ∃ n', x m' = .ok a n' ∧ Mimics ids n n'
    | .error e _ => ∃ n', x m' = .error e n'

theorem likeness_shows (ids : VarId → Prop) :
    Likeness ids (fun _ => True) fun s t => Shows t s ∧ ∀ id, ids id → (s.slot? id).isSome where
  sight h hid := h.1.sight_eq (h.2 _ hid)
  put value h _ := ⟨h.1.put _ value, fun x hx => by
    rw [isSome_slot?_update _ _ x (keepsIdentity_put value)]
    exact h.2 x hx⟩

theorem step_copied (plugins : Registry) (ctx : Context) {i : Instruction} {ids : VarId → Prop}
    (hids : ∀ id, i.binding? = some id → ids id) :
    Copied ids (step plugins ctx i : MachineM MemoryStore Instruction) := by
  intro m m' hm
  have hshared := step_shared (likeness_shows ids) plugins ctx hids (fun _ _ => trivial) m m'
    ⟨hm.stack, hm.shows, hm.known⟩
  cases hstep : step plugins ctx i m with
  | error e n =>
    rw [hstep] at hshared
    obtain ⟨n', hn', -⟩ := hshared
    exact ⟨n', hn'⟩
  | ok j n =>
    rw [hstep] at hshared
    obtain ⟨n', hn', hstack, hshows, hknown⟩ := hshared
    exact ⟨n', hn', hstack, hshows, hknown⟩

end Machine

end SignalCalc
