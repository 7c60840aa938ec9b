import SignalCalc.Proofs.Equation.Outcome
import SignalCalc.Proofs.Machine.Writes

/-! # Runs with a replaced variable

Two runs on stores that differ in the value of one variable, with that variable replaced. A read
gives the replacement in both runs, and a write gives the variable the same value in both; but the
two operations on raw bits look at the store itself. Code that does not use them on the variable, or
writes the variable first, cannot tell the two stores apart.
-/

namespace SignalCalc

/-! ## Stores behind the veil -/

def Slot.veil (slot : Slot) : Slot := { slot with value := default }

namespace MemoryStore

/-- The store without the value of one variable. -/
def veil (id : VarId) (s : MemoryStore) : MemoryStore := s.update id (·.veil)

theorem keepsIdentity_veil : KeepsIdentity (·.veil) := ⟨fun _ => rfl, fun _ => rfl⟩

theorem update_update (s : MemoryStore) (id : VarId) {f g : Slot → Slot} (hf : KeepsIdentity f) :
    (s.update id f).update id g = s.update id (g ∘ f) := by
  simp only [update, List.map_map, MemoryStore.mk.injEq, and_true]
  refine List.map_congr_left fun slot _ => ?_
  by_cases h : slot.id = id <;> simp [h, hf.id]

variable {id : VarId} {s t : MemoryStore}

theorem slot?_of_veil (h : s.veil id = t.veil id) {x : VarId} (hx : x ≠ id) :
    s.slot? x = t.slot? x := by
  rw [← slot?_update_ne s keepsIdentity_veil hx, ← slot?_update_ne t keepsIdentity_veil hx]
  exact congrArg (·.slot? x) h

/-- Behind the veil everything can be seen but the value. -/
theorem slot?_map_of_veil {α : Type} (h : s.veil id = t.veil id) {f : Slot → α}
    (hf : ∀ slot, f slot.veil = f slot) (x : VarId) : (s.slot? x).map f = (t.slot? x).map f := by
  by_cases hx : x = id
  · have hslot : (s.slot? id).map (·.veil) = (t.slot? id).map (·.veil) := by
      have hs := slot?_update s id id keepsIdentity_veil
      have ht := slot?_update t id id keepsIdentity_veil
      rw [if_pos rfl] at hs ht
      rw [← hs, ← ht]
      exact congrArg (·.slot? id) h
    have hmap : ∀ slot : Option Slot, slot.map f = (slot.map (·.veil)).map f := by
      intro slot
      cases slot <;> simp [hf]
    rw [hx, hmap (s.slot? id), hslot, ← hmap]
  · rw [slot?_of_veil h hx]

theorem dataType_of_veil (h : s.veil id = t.veil id) (x : VarId) : s.dataType x = t.dataType x := by
  unfold dataType
  rw [slot?_map_of_veil h (fun _ => rfl) x]

/-- A write is not seen through the veil, and the same write to both stores is none to tell them
apart. -/
theorem veil_put (h : s.veil id = t.veil id) (x : VarId) (value : Value) :
    (s.update x (·.put value)).veil id = (t.update x (·.put value)).veil id := by
  by_cases hx : x = id
  · have hput : ∀ u : MemoryStore, (u.update id (·.put value)).veil id = u.veil id := by
      intro u
      exact update_update u id (keepsIdentity_put value)
    rw [hx, hput, hput, h]
  · unfold veil at h ⊢
    rw [update_comm s hx (keepsIdentity_put value) keepsIdentity_veil, h,
      update_comm t hx (keepsIdentity_put value) keepsIdentity_veil]

/-- A write to the variable behind the veil makes the stores the same. -/
theorem put_of_veil (h : s.veil id = t.veil id) (value : Value) :
    s.update id (·.put value) = t.update id (·.put value) := by
  have hput : ∀ u : MemoryStore,
      u.update id (·.put value) = (u.veil id).update id (·.put value) := by
    intro u
    exact (update_update u id (g := (·.put value)) keepsIdentity_veil).symm
  rw [hput s, h, ← hput]

/-- A write fails in both stores, or goes through in both. -/
theorem write_of_veil (h : s.veil id = t.veil id) (x : VarId) (value : Value) (lockHeld : Bool) :
    (MemoryStore.write x value lockHeld s = .error (.unknownVariable x) s ∧
      MemoryStore.write x value lockHeld t = .error (.unknownVariable x) t) ∨
    (MemoryStore.write x value lockHeld s = .ok () (s.update x (·.put value)) ∧
      MemoryStore.write x value lockHeld t = .ok () (t.update x (·.put value))) := by
  have hknown := slot?_map_of_veil (f := fun _ => ()) h (fun _ => rfl) x
  unfold MemoryStore.write
  cases hs : s.slot? x <;> cases ht : t.slot? x <;> simp [hs, ht] at hknown ⊢

theorem writePhysical_of_veil (h : s.veil id = t.veil id) (x : VarId) (value : Float)
    (lockHeld : Bool) :
    (∃ e, MemoryStore.writePhysical x value lockHeld s = .error e s ∧
      MemoryStore.writePhysical x value lockHeld t = .error e t) ∨
    (∃ raw, MemoryStore.writePhysical x value lockHeld s = .ok () (s.update x (·.put raw)) ∧
      MemoryStore.writePhysical x value lockHeld t = .ok () (t.update x (·.put raw))) := by
  have hconversion := slot?_map_of_veil (f := Slot.conversion) h (fun _ => rfl) x
  unfold MemoryStore.writePhysical conversion?
  cases hs : s.slot? x with
  | none =>
    have ht : t.slot? x = none := by simpa [hs] using hconversion.symm
    exact .inl ⟨_, rfl, by simp only [ht]⟩
  | some slot =>
    obtain ⟨slot', ht, hsame⟩ : ∃ slot', t.slot? x = some slot' ∧
        slot'.conversion = slot.conversion := by simpa [hs] using hconversion.symm
    simp only [ht, hsame]
    cases slot.conversion with
    | none => exact .inl ⟨_, rfl, rfl⟩
    | some c =>
      dsimp only
      split
      · exact .inl ⟨_, rfl, rfl⟩
      · exact .inr ⟨_, rfl, rfl⟩

end MemoryStore

/-! ## Computations behind the veil -/

namespace Machine

def veil (id : VarId) (m : Machine MemoryStore) : Machine MemoryStore :=
  { m with store := m.store.veil id }

def veilResult {α : Type} (id : VarId) :
    EStateM.Result RunError (Machine MemoryStore) α →
      EStateM.Result RunError (Machine MemoryStore) α
  | .ok a m => .ok a (m.veil id)
  | .error e m => .error e (m.veil id)

/-- On machines that are alike behind the veil, the computation ends alike. -/
def Blind {α : Type} (id : VarId) (x : MachineM MemoryStore α) : Prop :=
  ∀ m m' : Machine MemoryStore, m.veil id = m'.veil id →
    veilResult id (x m) = veilResult id (x m')

/-- The computation, where it goes through, ends on the same machine. -/
def Seals {α : Type} (id : VarId) (x : MachineM MemoryStore α) : Prop :=
  ∀ m m' : Machine MemoryStore, m.veil id = m'.veil id → ∀ a n a' n',
    x m = .ok a n → x m' = .ok a' n' → n = n'

variable {id : VarId}

theorem veil_eq_iff {m m' : Machine MemoryStore} :
    m.veil id = m'.veil id ↔ m.stack = m'.stack ∧ m.store.veil id = m'.store.veil id := by
  simp [veil]

theorem blind_pure {α : Type} (a : α) : Blind id (pure a) := fun _ _ h => by
  simp [pure, EStateM.pure, veilResult, h]

theorem blind_throw {α : Type} (e : RunError) : Blind id (throw e : MachineM MemoryStore α) :=
  fun m m' h => by
    show EStateM.Result.error e (m.veil id) = .error e (m'.veil id)
    rw [h]

theorem veilResult_cases {α : Type} {r r' : EStateM.Result RunError (Machine MemoryStore) α}
    (h : veilResult id r = veilResult id r') :
    (∃ a m m', r = .ok a m ∧ r' = .ok a m' ∧ m.veil id = m'.veil id) ∨
      ∃ e m m', r = .error e m ∧ r' = .error e m' ∧ m.veil id = m'.veil id := by
  cases r with
  | ok a m =>
    cases r' with
    | ok a' m' =>
      obtain ⟨rfl, hm⟩ := EStateM.Result.ok.inj h
      exact .inl ⟨a, m, m', rfl, rfl, hm⟩
    | error e' m' => cases h
  | error e m =>
    cases r' with
    | ok a' m' => cases h
    | error e' m' =>
      obtain ⟨rfl, hm⟩ := EStateM.Result.error.inj h
      exact .inr ⟨e, m, m', rfl, rfl, hm⟩

theorem Blind.bind {α β : Type} {x : MachineM MemoryStore α} {f : α → MachineM MemoryStore β}
    (hx : Blind id x) (hf : ∀ a, Blind id (f a)) : Blind id (x >>= f) := by
  intro m m' hm
  simp only [Bind.bind, EStateM.bind]
  rcases veilResult_cases (hx m m' hm) with ⟨a, n, n', hn, hn', hveil⟩ | ⟨e, n, n', hn, hn', hveil⟩
  · rw [hn, hn']
    exact hf a n n' hveil
  · rw [hn, hn']
    simp [veilResult, hveil]

theorem Blind.seals_bind {α β : Type} {x : MachineM MemoryStore α}
    {f : α → MachineM MemoryStore β} (hx : Blind id x) (hf : ∀ a, Seals id (f a)) :
    Seals id (x >>= f) := by
  intro m m' hm b p b' p' hp hp'
  simp only [Bind.bind, EStateM.bind] at hp hp'
  rcases veilResult_cases (hx m m' hm) with ⟨a, n, n', hn, hn', hveil⟩ | ⟨e, n, n', hn, hn', -⟩
  · rw [hn] at hp
    rw [hn'] at hp'
    exact hf a n n' hveil b p b' p' hp hp'
  · rw [hn] at hp
    cases hp

/-- Once the machines are the same, they stay so. -/
theorem Seals.bind {α β : Type} {x : MachineM MemoryStore α} (hx : Seals id x) (hblind : Blind id x)
    (f : α → MachineM MemoryStore β) : Seals id (x >>= f) := by
  intro m m' hm b p b' p' hp hp'
  simp only [Bind.bind, EStateM.bind] at hp hp'
  rcases veilResult_cases (hblind m m' hm) with ⟨a, n, n', hn, hn', -⟩ | ⟨e, n, n', hn, hn', -⟩
  · have hsame : n = n' := hx m m' hm a n a n' hn hn'
    rw [hn] at hp
    rw [hn', ← hsame] at hp'
    rw [hp] at hp'
    cases hp'
    rfl
  · rw [hn] at hp
    cases hp

theorem onStack_blind {α : Type} (x : StackM α) : Blind id (onStack x) := by
  intro m m' hm
  obtain ⟨hstack, hstore⟩ := veil_eq_iff.mp hm
  unfold onStack
  rw [hstack]
  cases x m'.stack <;> simp [veilResult, veil, hstore]

/-- A computation that looks at its store only for what can be seen behind the veil. -/
theorem getStore_blind {β : Type} {f : MemoryStore → MachineM MemoryStore β}
    (hsame : ∀ s t : MemoryStore, s.veil id = t.veil id → f s = f t) (hf : ∀ s, Blind id (f s)) :
    Blind id (getStore >>= f) := by
  intro m m' hm
  have hrun : ∀ n : Machine MemoryStore, (getStore >>= f) n = f n.store n := fun _ => rfl
  rw [hrun, hrun, hsame m.store m'.store (veil_eq_iff.mp hm).2]
  exact hf m'.store m m' hm

theorem getStore_seals {β : Type} {f : MemoryStore → MachineM MemoryStore β}
    (hsame : ∀ s t : MemoryStore, s.veil id = t.veil id → f s = f t) (hf : ∀ s, Seals id (f s)) :
    Seals id (getStore >>= f) := by
  intro m m' hm a n a' n' hn hn'
  have hrun : ∀ n : Machine MemoryStore, (getStore >>= f) n = f n.store n := fun _ => rfl
  rw [hrun] at hn hn'
  rw [← hsame m.store m'.store (veil_eq_iff.mp hm).2] at hn'
  exact hf m.store m m' hm a n a' n' hn hn'

/-! ## Writes -/

/-- A write that fails in both stores, or stores the same value in both. -/
theorem write_alike {x : VarId} {put : EStateM StoreError MemoryStore Unit}
    (h : ∀ s t : MemoryStore, s.veil id = t.veil id →
      (∃ e, put s = .error e s ∧ put t = .error e t) ∨
      ∃ value, put s = .ok () (s.update x (·.put value)) ∧
        put t = .ok () (t.update x (·.put value))) :
    Blind id (onStore put) ∧ (x = id → Seals id (onStore put)) := by
  constructor
  · intro m m' hm
    obtain ⟨hstack, hstore⟩ := veil_eq_iff.mp hm
    unfold onStore
    rcases h m.store m'.store hstore with ⟨e, hs, ht⟩ | ⟨value, hs, ht⟩
    · simp [hs, ht, veilResult, veil, hstack, hstore]
    · simp [hs, ht, veilResult, veil, hstack, MemoryStore.veil_put hstore x value]
  · intro hx m m' hm a n a' n' hn hn'
    obtain ⟨hstack, hstore⟩ := veil_eq_iff.mp hm
    unfold onStore at hn hn'
    rcases h m.store m'.store hstore with ⟨e, hs, -⟩ | ⟨value, hs, ht⟩
    · simp [hs] at hn
    · simp only [hs, ht, EStateM.Result.ok.injEq, true_and] at hn hn'
      rw [← hn, ← hn', hx, hstack, MemoryStore.put_of_veil hstore value]

theorem onStore_write_alike (x : VarId) (value : Value) (lockHeld : Bool) :
    Blind id (onStore (MemoryStore.write x value lockHeld)) ∧
      (x = id → Seals id (onStore (MemoryStore.write x value lockHeld))) := by
  apply write_alike
  intro s t h
  rcases MemoryStore.write_of_veil h x value lockHeld with hfail | hput
  · exact .inl ⟨_, hfail⟩
  · exact .inr ⟨_, hput⟩

theorem onStore_writePhysical_alike (x : VarId) (value : Float) (lockHeld : Bool) :
    Blind id (onStore (MemoryStore.writePhysical x value lockHeld)) ∧
      (x = id → Seals id (onStore (MemoryStore.writePhysical x value lockHeld))) :=
  write_alike fun _ _ h => MemoryStore.writePhysical_of_veil h x value lockHeld

/-! ## Instructions -/

end Machine

def AccessOp.looksAtBits : AccessOp → Bool
  | .readBits | .invertedBits => true
  | _ => false

namespace Instruction

def peeks (id : VarId) : Instruction → Bool
  | ⟨.builtin (.access op), .bound x⟩ => op.looksAtBits && x = id
  | _ => false

end Instruction

/-- The raw bits of the variable are not looked at before the variable is written. -/
def shielded (id : VarId) : List Instruction → Bool
  | [] => true
  | i :: code => !i.peeks id && (i.overwrites id || shielded id code)

namespace Machine

section Replaced

variable {id : VarId} {ctx : Context} {v : Value}

/-- An access to any variable, unless it looks at the raw bits of the replaced one. -/
theorem access_blind (hctx : ctx.replaced = some (id, v)) {op : AccessOp} {x : VarId}
    (hop : op.looksAtBits = true → x ≠ id) :
    Blind id (access ctx op x : MachineM MemoryStore Unit) := by
  have hpush : ∀ v, Blind id (push v : MachineM MemoryStore Unit) := fun v => onStack_blind _
  have hbits : ∀ s t : MemoryStore, s.veil id = t.veil id → x ≠ id →
      rawBits s x = rawBits t x := by
    intro s t h hx
    simp only [rawBits, VariableStore.read, VariableStore.dataType, MemoryStore.read,
      MemoryStore.dataType_of_veil h x, MemoryStore.slot?_of_veil h hx]
  -- a variable that is not replaced is not the one behind the veil
  have hother : ctx.replacement? x = none → x ≠ id := by
    intro h heq
    simp [Context.replacement?, hctx, heq] at h
  cases op with
  | read =>
    unfold access
    dsimp only
    split
    · exact hpush _
    · next hnone =>
      refine getStore_blind (fun s t h => ?_) fun _ => hpush _
      simp only [VariableStore.read, MemoryStore.read, MemoryStore.slot?_of_veil h (hother hnone)]
  | readPhysical =>
    unfold access
    dsimp only
    split
    · exact hpush _
    · next hnone =>
      refine getStore_blind (fun s t h => ?_) fun s => ?_
      · simp only [VariableStore.readPhysical, MemoryStore.readPhysical, MemoryStore.conversion?,
          MemoryStore.slot?_of_veil h (hother hnone)]
      · split
        · exact hpush _
        · exact blind_throw _
  | write => exact (onStack_blind _).bind fun v => (onStore_write_alike x v _).1
  | writePhysical => exact (onStack_blind _).bind fun v => (onStore_writePhysical_alike x _ _).1
  | readBits =>
    refine getStore_blind (fun s t h => ?_) fun _ => hpush _
    rw [hbits s t h (hop rfl)]
  | invertedBits =>
    refine getStore_blind (fun s t h => ?_) fun _ => hpush _
    simp only [hbits s t h (hop rfl)]
  | writeBits =>
    refine (onStack_blind _).bind fun v => getStore_blind (fun s t h => ?_) fun s => ?_
    · simp only [VariableStore.dataType, MemoryStore.dataType_of_veil h x]
    · exact (onStore_write_alike x _ _).1.bind fun _ => hpush _

/-- A write of the replaced variable, if it goes through, leaves nothing behind the veil. -/
theorem access_seals {op : AccessOp} (hop : op.writes = true) :
    Seals id (access ctx op id : MachineM MemoryStore Unit) := by
  cases op with
  | write => exact (onStack_blind _).seals_bind fun v => (onStore_write_alike id v _).2 rfl
  | writePhysical =>
    exact (onStack_blind _).seals_bind fun v => (onStore_writePhysical_alike id _ _).2 rfl
  | writeBits =>
    refine (onStack_blind _).seals_bind fun v => getStore_seals (fun s t h => ?_) fun s => ?_
    · simp only [VariableStore.dataType, MemoryStore.dataType_of_veil h id]
    · obtain ⟨hblind, hseals⟩ := @onStore_write_alike id id
        ((VariableStore.dataType s id).ofBits v.toUInt64) ctx.lockHeld
      exact (hseals rfl).bind hblind _
  | read | readPhysical | readBits | invertedBits => cases hop

/-- Every instruction but a look at the raw bits of the replaced variable. -/
theorem step_blind (plugins : Registry) (hctx : ctx.replaced = some (id, v)) {i : Instruction}
    (hi : i.peeks id = false) :
    Blind id (step plugins ctx i : MachineM MemoryStore Instruction) := by
  obtain ⟨operation, operand⟩ := i
  cases operation with
  | plugin n => exact (onStack_blind _).bind fun _ => blind_pure _
  | builtin op =>
    refine Blind.bind ?_ fun _ => blind_pure _
    apply builtin_rule (Φ := fun _ x => Blind id x) ctx op operand (fun a => blind_pure a)
      Blind.bind (blind_throw _) (fun {_ x} _ => onStack_blind x)
    intro a x haccess
    refine access_blind hctx fun hbits => ?_
    rw [haccess] at hi
    simpa [Instruction.peeks, Instruction.access, hbits] using hi

theorem step_seals (plugins : Registry) (hctx : ctx.replaced = some (id, v)) {i : Instruction}
    (hi : i.overwrites id = true) :
    Seals id (step plugins ctx i : MachineM MemoryStore Instruction) := by
  obtain ⟨op, hwrites, rfl⟩ := Instruction.access_of_overwrites hi
  have hblind : Blind id (access ctx op id : MachineM MemoryStore Unit) := by
    apply access_blind hctx
    intro hbits
    cases op with
    | write | writePhysical | writeBits => cases hbits
    | read | readPhysical | readBits | invertedBits => cases hwrites
  have hseals : Seals id (builtin ctx (.access op) (.bound id)) :=
    (access_seals hwrites).bind hblind fun _ => pure (Operand.bound id)
  exact hseals.bind (hblind.bind fun _ => blind_pure _) _

/-- Shielded code runs alike on machines that are alike behind the veil. -/
theorem run_blind (plugins : Registry) (hctx : ctx.replaced = some (id, v))
    {code : List Instruction} (hcode : shielded id code = true) {m m' : Machine MemoryStore}
    (hm : m.veil id = m'.veil id) :
    (run plugins ctx code m).stopped = (run plugins ctx code m').stopped ∧
      (run plugins ctx code m).code = (run plugins ctx code m').code ∧
      (run plugins ctx code m).machine.veil id = (run plugins ctx code m').machine.veil id := by
  induction code generalizing m m' with
  | nil => exact ⟨rfl, rfl, hm⟩
  | cons i code ih =>
    simp only [shielded, Bool.and_eq_true, Bool.not_eq_true', Bool.or_eq_true] at hcode
    obtain ⟨hpeeks, hrest⟩ := hcode
    unfold run
    rcases veilResult_cases (step_blind plugins hctx hpeeks m m' hm) with
      ⟨i', n, n', hn, hn', hveil⟩ | ⟨e, n, n', hn, hn', hveil⟩
    · rw [hn, hn']
      rcases hrest with hwrites | hshielded
      · -- from here on there is one machine
        have hsame : n = n' := step_seals plugins hctx hwrites m m' hm i' n i' n' hn hn'
        rw [hsame]
        exact ⟨rfl, rfl, rfl⟩
      · obtain ⟨hstopped, hcode, hmachine⟩ := ih hshielded hveil
        exact ⟨hstopped, congrArg (i' :: ·) hcode, hmachine⟩
    · rw [hn, hn']
      exact ⟨rfl, rfl, hveil⟩

end Replaced

end Machine

/-! ## Programs -/

/-- A run with a variable replaced does not depend on the value stored for it, if the program is
shielded from the variable's raw bits. -/
theorem run_replaced (plugins : Registry) {ctx : Context} {id : VarId} {v : Value}
    (hctx : ctx.replaced = some (id, v)) {p : Program} (hp : shielded id p.code = true)
    {s t : MemoryStore} (h : s.veil id = t.veil id) :
    (p.run plugins ctx s).result = (p.run plugins ctx t).result ∧
      (p.run plugins ctx s).program = (p.run plugins ctx t).program ∧
      (p.run plugins ctx s).stack = (p.run plugins ctx t).stack ∧
      (p.run plugins ctx s).store.veil id = (p.run plugins ctx t).store.veil id := by
  have hstart : Machine.veil id ⟨.empty, s⟩ = Machine.veil id ⟨.empty, t⟩ :=
    Machine.veil_eq_iff.mpr ⟨rfl, h⟩
  obtain ⟨hstopped, hcode, hmachine⟩ := Machine.run_blind plugins hctx hp hstart
  obtain ⟨hstack, hstore⟩ := Machine.veil_eq_iff.mp hmachine
  simp only [Program.run, hstopped, hcode, hstack, hstore, and_self]

def byteStore (n : UInt64) : MemoryStore := (({} : MemoryStore).define "x" .uint8 (.ofUInt64 n)).2

theorem run_replaced_sum :
    ∃ p, (compile {} none "x+1" (byteStore 5)).result = .ok p ∧
      shielded ⟨1⟩ p.code = true ∧ (byteStore 5).veil ⟨1⟩ = (byteStore 6).veil ⟨1⟩ ∧
      (p.executeReplacing .empty ⟨1⟩ 42.0 (byteStore 5)).result =
        (p.executeReplacing .empty ⟨1⟩ 42.0 (byteStore 6)).result := by
  have hcompile : ∃ p, (compile {} none "x+1" (byteStore 5)).result = .ok p ∧
      shielded ⟨1⟩ p.code = true := by
    rw [compile, Parser.read_eq_interpret]
    exact ⟨_, rfl, rfl⟩
  have hveil : (byteStore 5).veil ⟨1⟩ = (byteStore 6).veil ⟨1⟩ := rfl
  obtain ⟨p, hp, hshielded⟩ := hcompile
  have hctx : Context.replaced { p.context with replaced := some (⟨1⟩, .ofFloat 42.0) } =
      some (⟨1⟩, .ofFloat 42.0) := rfl
  exact ⟨p, hp, hshielded, hveil, (run_replaced .empty hctx hshielded hveil).1⟩

/-- The raw bits of a replaced variable are those in the store. -/
theorem rawBits_bypass_replacement :
    ∃ p, (compile {} none "get_binary(x)" (byteStore 5)).result = .ok p ∧
      (byteStore 5).veil ⟨1⟩ = (byteStore 6).veil ⟨1⟩ ∧
      (p.executeReplacing .empty ⟨1⟩ 42.0 (byteStore 5)).result ≠
        (p.executeReplacing .empty ⟨1⟩ 42.0 (byteStore 6)).result := by
  have hcompile : ∃ p, (compile {} none "get_binary(x)" (byteStore 5)).result = .ok p ∧
      p.code = [.access .readBits ⟨1⟩] := by
    rw [compile, Parser.read_eq_interpret]
    exact ⟨_, rfl, rfl⟩
  obtain ⟨p, hp, hcode⟩ := hcompile
  have hresult : ∀ n, (p.executeReplacing .empty ⟨1⟩ 42.0 (byteStore n)).result =
      .ok (Machine.rawBits (byteStore n) ⟨1⟩) := by
    intro n
    simp only [Program.executeReplacing, Program.run, hcode]
    rfl
  refine ⟨p, hp, rfl, ?_⟩
  rw [hresult, hresult]
  intro h
  have hbits := congrArg Value.toUInt64 (Except.ok.inj h)
  exact absurd hbits (by decide)

end SignalCalc
