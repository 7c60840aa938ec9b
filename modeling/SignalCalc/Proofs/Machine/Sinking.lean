import Mathlib.Data.List.Forall2
import SignalCalc.Proofs.Machine.Run
import SignalCalc.Proofs.Store.Sight

/-! # Code over other entries

What a piece of code does to the stack it does to the entries that it may take. It can run on top of
others, which it neither sees nor moves, and if there is room for it up there, there is room for it
without them. This holds also if the variables go by other numbers in the one place than in the
other, as long as they look the same.
-/

namespace SignalCalc

open MemoryStore

/-! ## Computations -/

/-- Where the first computation goes through, the second one does, with the same result, from a state
in which the first one's is `sunk`. It finds what it takes there and leaves the height that its use
says. -/
def Sinks {ε S α : Type} (sunk : S → S → Prop) (height : S → Nat) (u : StackUse)
    (x x' : EStateM ε S α) : Prop :=
  ∀ s s' a t, sunk s s' → u.takes ≤ height s' → x s = .ok a t →
    ∃ t', x' s' = .ok a t' ∧ sunk t t' ∧ height t' = height s' - u.takes + u.gives

section Sinks

variable {ε S α β : Type} {sunk : S → S → Prop} {height : S → Nat}

theorem sinks_pure (n : Nat) (a : α) :
    Sinks sunk height ⟨n, n⟩ (pure a : EStateM ε S α) (pure a) := by
  intro s s' b t hs hn h
  cases h
  dsimp only at hn
  exact ⟨s', rfl, hs, by dsimp only; omega⟩

/-- A failure sinks into anything. -/
theorem sinks_throw (u : StackUse) (e : ε) (x' : EStateM ε S α) :
    Sinks sunk height u (throw e) x' := by
  intro s s' a t _ _ h
  cases h

theorem Sinks.bind {n k m : Nat} {x x' : EStateM ε S α} {f f' : α → EStateM ε S β}
    (hx : Sinks sunk height ⟨n, k⟩ x x') (hf : ∀ a, Sinks sunk height ⟨k, m⟩ (f a) (f' a)) :
    Sinks sunk height ⟨n, m⟩ (x >>= f) (x' >>= f') := by
  intro s s' b t hs hn h
  simp only [Bind.bind, EStateM.bind] at h ⊢
  cases hfirst : x s with
  | error e u => simp [hfirst] at h
  | ok a u =>
    rw [hfirst] at h
    obtain ⟨u', hfirst', hu, hheight⟩ := hx s s' a u hs hn hfirst
    dsimp only at hn hheight
    obtain ⟨t', hsecond', ht, hheight'⟩ := hf a u u' b t hu (by dsimp only; omega) h
    refine ⟨t', by rw [hfirst']; exact hsecond', ht, ?_⟩
    dsimp only at hheight' ⊢
    omega

end Sinks

/-! ## Operations on the stack -/

/-- The first stack has the entries of the second one on top of others. -/
def Stack.Sunk (base : List Value) (st st' : Stack) : Prop := st.entries = st'.entries ++ base

abbrev StackM.Sinks {α : Type} (base : List Value) (u : StackUse) (x : StackM α) : Prop :=
  SignalCalc.Sinks (Stack.Sunk base) Stack.size u x x

section Stack

variable {base : List Value}

namespace Stack

theorem push_sinks (v : Value) : StackM.Sinks base ⟨0, 1⟩ (push v) := by
  intro st st' a t hst _ h
  unfold push at h ⊢
  have hlength := congrArg List.length hst
  rw [List.length_append] at hlength
  by_cases hroom : st.entries.length < stackCapacity
  · rw [dif_pos hroom] at h
    cases h
    -- without the entries below there is even more room
    have hroom' : st'.entries.length < stackCapacity := by omega
    exact ⟨⟨v :: st'.entries, hroom'⟩, dif_pos hroom', congrArg (v :: ·) hst, rfl⟩
  · rw [dif_neg hroom] at h
    cases h

theorem pop_sinks : StackM.Sinks base ⟨1, 0⟩ pop := by
  rintro ⟨entries, hbounded⟩ ⟨entries', hbounded'⟩ a t hst htakes h
  cases entries' with
  | nil => exact absurd htakes (Nat.not_succ_le_zero 0)
  | cons v vs =>
    obtain rfl : entries = v :: (vs ++ base) := hst
    cases h
    exact ⟨_, rfl, rfl, rfl⟩

theorem pop2_sinks : StackM.Sinks base ⟨2, 0⟩ pop2 := by
  rintro ⟨entries, hbounded⟩ ⟨entries', hbounded'⟩ a t hst htakes h
  match entries' with
  | [] => exact absurd htakes (Nat.not_succ_le_zero 1)
  | [_] => exact absurd htakes (Nat.not_succ_le_self 1)
  | w :: v :: vs =>
    obtain rfl : entries = w :: v :: (vs ++ base) := hst
    cases h
    exact ⟨_, rfl, rfl, rfl⟩

theorem peek_sinks : StackM.Sinks base ⟨1, 1⟩ peek := by
  rintro ⟨entries, hbounded⟩ ⟨entries', hbounded'⟩ a t hst htakes h
  cases entries' with
  | nil => exact absurd htakes (Nat.not_succ_le_zero 0)
  | cons v vs =>
    obtain rfl : entries = v :: (vs ++ base) := hst
    cases h
    exact ⟨_, rfl, rfl, rfl⟩

theorem swap_sinks : StackM.Sinks base ⟨2, 2⟩ swap := by
  rintro ⟨entries, hbounded⟩ ⟨entries', hbounded'⟩ a t hst htakes h
  match entries' with
  | [] => exact absurd htakes (Nat.not_succ_le_zero 1)
  | [_] => exact absurd htakes (Nat.not_succ_le_self 1)
  | w :: v :: vs =>
    obtain rfl : entries = w :: v :: (vs ++ base) := hst
    cases h
    exact ⟨_, rfl, rfl, rfl⟩

/-- Taking `n` entries hands on a list of `n` values. -/
theorem popMany_sinks {β : Type} (n m : Nat) {f : List Value → StackM β}
    (hf : ∀ args, args.length = n → StackM.Sinks base ⟨0, m⟩ (f args)) :
    StackM.Sinks base ⟨n, m⟩ (popMany n >>= f) := by
  intro st st' b t hst htakes h
  have htakes' : n ≤ st'.entries.length := htakes
  have hlength : n ≤ st.entries.length := by
    have := congrArg List.length hst
    rw [List.length_append] at this
    omega
  have hargs : st.entries.take n = st'.entries.take n := by
    rw [hst, List.take_append_of_le_length htakes']
  simp only [bind, EStateM.bind, popMany, if_pos hlength, if_pos htakes', hargs] at h ⊢
  have hbelow : Sunk base ⟨st.entries.drop n, Nat.le_trans (by simp) st.bounded⟩
      ⟨st'.entries.drop n, Nat.le_trans (by simp) st'.bounded⟩ := by
    show st.entries.drop n = st'.entries.drop n ++ base
    rw [hst, List.drop_append_of_le_length htakes']
  obtain ⟨t', ht', hsunk, hheight⟩ := hf _ (by simp [Nat.min_eq_left htakes']) _ _ b t hbelow
    (Nat.zero_le _) h
  refine ⟨t', ht', hsunk, hheight.trans ?_⟩
  simp [size]

end Stack

theorem Applies.sinks {n : Nat} {x : StackM Unit} (h : Applies n x) : StackM.Sinks base ⟨n, 1⟩ x := by
  cases h with
  | none v => exact Stack.push_sinks v
  | one f => exact Stack.pop_sinks.bind fun _ => Stack.push_sinks _
  | two f => exact Stack.pop2_sinks.bind fun _ => Stack.push_sinks _
  | three f =>
    apply Stack.popMany_sinks
    intro args hlength
    match args, hlength with
    | [a, b, c], _ => exact Stack.push_sinks _
  | four f =>
    apply Stack.popMany_sinks
    intro args hlength
    match args, hlength with
    | [a, b, c, d], _ => exact Stack.push_sinks _
  | many n f => exact Stack.popMany_sinks n 1 fun _ _ => Stack.push_sinks _

theorem EdgeOp.run_sinks (op : EdgeOp) (last : Option Float) :
    StackM.Sinks base ⟨1, 1⟩ (op.run last) :=
  Stack.pop_sinks.bind fun _ => (Stack.push_sinks _).bind fun _ => sinks_pure 1 _

theorem FrameOp.run_sinks (frame : Option Frame) (op : FrameOp) :
    StackM.Sinks base ⟨op.takes, 1⟩ (op.run frame) := by
  cases frame with
  | none => exact sinks_throw _ _ _
  | some f => exact (op.run_applies f).sinks

end Stack

/-! ## Variables of two stores -/

/-- Numbers of variables in one store and in another, each with one partner at most. -/
structure Pairing (pairs : VarId → VarId → Prop) : Prop where
  right : ∀ {id x y}, pairs id x → pairs id y → x = y
  left : ∀ {id x y}, pairs x id → pairs y id → x = y

/-- Partners look the same. -/
def Paired (pairs : VarId → VarId → Prop) (s t : MemoryStore) : Prop :=
  ∀ id id', pairs id id' → t.sight id' = s.sight id

theorem Paired.put {pairs : VarId → VarId → Prop} (hpairs : Pairing pairs) {s t : MemoryStore}
    (h : Paired pairs s t) {id id' : VarId} (hid : pairs id id') (value : Value) :
    Paired pairs (s.update id (·.put value)) (t.update id' (·.put value)) := by
  intro x x' hx
  rw [sight_put, sight_put, h x x' hx]
  -- the one is the written variable exactly if the other one is
  have hsame : x' = id' ↔ x = id :=
    ⟨fun heq => hpairs.left (heq ▸ hx) hid, fun heq => hpairs.right (heq ▸ hx) hid⟩
  simp only [hsame]

/-- The first machine has the entries of the second one on top of others, and partners look the
same. -/
structure Machine.Sunk (pairs : VarId → VarId → Prop) (base : List Value)
    (m m' : Machine MemoryStore) : Prop where
  stack : m.stack.Sunk base m'.stack
  store : Paired pairs m.store m'.store

/-- Operations of the machine that do not notice entries below, nor which numbers variables have. -/
abbrev MachineM.Sinks {α : Type} (pairs : VarId → VarId → Prop) (base : List Value) (u : StackUse)
    (x x' : MachineM MemoryStore α) : Prop :=
  SignalCalc.Sinks (Machine.Sunk pairs base) (fun m => m.stack.size) u x x'

/-- The context treats partners alike. -/
def Context.Respects (ctx : Context) (pairs : VarId → VarId → Prop) : Prop :=
  ∀ id id', pairs id id' → ctx.replacement? id' = ctx.replacement? id

inductive Instruction.Twin (pairs : VarId → VarId → Prop) : Instruction → Instruction → Prop where
  | same {i : Instruction} (h : i.binding? = none) : Twin pairs i i
  | access (op : AccessOp) {id id' : VarId} (h : pairs id id') :
      Twin pairs (.access op id) (.access op id')

namespace Machine

variable {pairs : VarId → VarId → Prop} {base : List Value}

theorem onStack_sinks {α : Type} {u : StackUse} {x : StackM α} (hx : StackM.Sinks base u x) :
    MachineM.Sinks pairs base u (onStack x) (onStack x) := by
  intro m m' a n hm htakes h
  unfold onStack at h ⊢
  cases hxs : x m.stack with
  | error e stack => simp [hxs] at h
  | ok b stack =>
    rw [hxs] at h
    cases h
    obtain ⟨stack', hxs', hsunk, hheight⟩ := hx _ _ _ _ hm.stack htakes hxs
    rw [hxs']
    exact ⟨_, rfl, ⟨hsunk, hm.store⟩, hheight⟩

theorem push_sinks (v : Value) :
    MachineM.Sinks pairs base ⟨0, 1⟩ (push v) (push v) := onStack_sinks (Stack.push_sinks v)

/-- A look at the store for what partners have in common. -/
theorem getStore_sinks {β : Type} {u : StackUse} {f f' : MemoryStore → MachineM MemoryStore β}
    (hf : ∀ s s', Paired pairs s s' → MachineM.Sinks pairs base u (f s) (f' s')) :
    MachineM.Sinks pairs base u (getStore >>= f) (getStore >>= f') :=
  fun m m' a n hm htakes h => hf m.store m'.store hm.store m m' a n hm htakes h

section Access

variable (hpairs : Pairing pairs) {id id' : VarId} (hid : pairs id id')
include hpairs hid

theorem write_sinks (k : Nat) (value : Value) (lockHeld : Bool) :
    MachineM.Sinks pairs base ⟨k, k⟩ (onStore (MemoryStore.write id value lockHeld))
      (onStore (MemoryStore.write id' value lockHeld)) := by
  intro m m' a n hm htakes h
  dsimp only at htakes
  simp only [onStore, write_of_sight, hm.store id id' hid] at h ⊢
  cases hseen : m.store.sight id with
  | none => simp [hseen] at h
  | some seen =>
    rw [hseen] at h
    cases h
    exact ⟨_, rfl, ⟨hm.stack, hm.store.put hpairs hid value⟩, by dsimp only; omega⟩

theorem writePhysical_sinks (k : Nat) (value : Float) (lockHeld : Bool) :
    MachineM.Sinks pairs base ⟨k, k⟩ (onStore (MemoryStore.writePhysical id value lockHeld))
      (onStore (MemoryStore.writePhysical id' value lockHeld)) := by
  intro m m' a n hm htakes h
  dsimp only at htakes
  simp only [onStore, writePhysical_of_sight, hm.store id id' hid] at h ⊢
  cases hseen : m.store.sight id with
  | none => simp [hseen] at h
  | some seen =>
    obtain ⟨v, type, conversion⟩ := seen
    rw [hseen] at h
    cases conversion with
    | none => cases h
    | some c =>
      dsimp only at h ⊢
      by_cases hfactor : c.factor == 0.0
      · rw [if_pos hfactor] at h
        cases h
      · rw [if_neg hfactor] at h ⊢
        cases h
        exact ⟨_, rfl, ⟨hm.stack, hm.store.put hpairs hid _⟩, by dsimp only; omega⟩

theorem access_sinks {ctx : Context} (hctx : ctx.replacement? id' = ctx.replacement? id)
    (op : AccessOp) :
    MachineM.Sinks pairs base ⟨op.takes, 1⟩ (access ctx op id) (access ctx op id') := by
  have hread : ∀ s s' : MemoryStore, Paired pairs s s' → s'.read id' = s.read id := fun s s' h => by
    rw [read_of_sight, read_of_sight, h id id' hid]
  have htype : ∀ s s' : MemoryStore, Paired pairs s s' → s'.dataType id' = s.dataType id :=
    fun s s' h => by rw [dataType_of_sight, dataType_of_sight, h id id' hid]
  have hbits : ∀ s s' : MemoryStore, Paired pairs s s' → rawBits s' id' = rawBits s id :=
    fun s s' h => by
      simp only [rawBits, VariableStore.read, VariableStore.dataType, hread s s' h, htype s s' h]
  cases op with
  | read =>
    unfold access
    rw [hctx]
    dsimp only
    split
    · exact push_sinks _
    · apply getStore_sinks
      intro s s' h
      simp only [VariableStore.read, hread s s' h]
      exact push_sinks _
  | readPhysical =>
    unfold access
    rw [hctx]
    dsimp only
    split
    · exact push_sinks _
    · apply getStore_sinks
      intro s s' h
      -- a refusal names the variable, so that only reads that go through agree
      simp only [VariableStore.readPhysical, readPhysical_of_sight, h id id' hid]
      cases s.sight id with
      | none => exact sinks_throw _ _ _
      | some seen =>
        obtain ⟨v, type, conversion⟩ := seen
        cases conversion with
        | none => exact sinks_throw _ _ _
        | some c => exact push_sinks _
  | write =>
    exact (onStack_sinks Stack.peek_sinks).bind fun v => write_sinks hpairs hid 1 v _
  | writePhysical =>
    exact (onStack_sinks Stack.peek_sinks).bind fun v => writePhysical_sinks hpairs hid 1 _ _
  | readBits =>
    apply getStore_sinks
    intro s s' h
    rw [hbits s s' h]
    exact push_sinks _
  | invertedBits =>
    apply getStore_sinks
    intro s s' h
    rw [hbits s s' h]
    exact push_sinks _
  | writeBits =>
    refine (onStack_sinks Stack.pop_sinks).bind fun v => ?_
    apply getStore_sinks
    intro s s' h
    simp only [VariableStore.dataType, htype s s' h]
    exact (write_sinks hpairs hid 0 _ _).bind fun _ => push_sinks _

end Access

theorem builtin_sinks (ctx : Context) {op : Opcode} {operand : Operand}
    (hfits : op.fits operand = true)
    (hfree : (⟨.builtin op, operand⟩ : Instruction).binding? = none) :
    MachineM.Sinks pairs base ⟨op.takes operand.count, op.gives⟩ (builtin ctx op operand)
      (builtin ctx op operand) := by
  have hreturn : ∀ {n m : Nat} {x : StackM Unit} (o : Operand), StackM.Sinks base ⟨n, m⟩ x →
      MachineM.Sinks pairs base ⟨n, m⟩ (onStack x >>= fun _ => pure o)
        (onStack x >>= fun _ => pure o) := fun o hx =>
    (onStack_sinks hx).bind fun _ => sinks_pure _ _
  -- by groups of operations; an operand that does not fit, or an access, has been excluded
  cases op with
  | stack op =>
    cases op with
    | literal =>
      cases operand with
      | literal v => exact hreturn _ (Stack.push_sinks v)
      | absent | bound | argCount | edge => cases hfits
    | parameter => exact hreturn _ (Stack.push_sinks _)
    | swap => exact hreturn _ Stack.swap_sinks
  | access op =>
    cases operand with
    | bound id => cases op <;> cases hfree
    | absent | literal | argCount | edge => cases hfits
  | arithmetic op => exact hreturn _ (op.run_applies _).sinks
  | logic op => exact hreturn _ (op.run_applies _).sinks
  | bits op => exact hreturn _ op.run_applies.sinks
  | math op => exact hreturn _ op.run_applies.sinks
  | cast op => exact hreturn _ op.run_applies.sinks
  | edge op =>
    cases operand with
    | edge last => exact (onStack_sinks (op.run_sinks last)).bind fun _ => sinks_pure _ _
    | absent | literal | bound | argCount => cases hfits
  | frame op => exact hreturn _ (op.run_sinks ctx.frame)
  | crc op =>
    cases operand with
    | argCount n => exact hreturn _ (op.run_applies (of_decide_eq_true hfits)).sinks
    | absent | literal | bound | edge => cases hfits

theorem step_access_ok {plugins : Registry} {ctx : Context} {op : AccessOp} {id : VarId}
    {m n : Machine MemoryStore} {i : Instruction} :
    step plugins ctx (.access op id) m = .ok i n ↔
      access ctx op id m = .ok () n ∧ i = .access op id := by
  simp only [step, Instruction.access, builtin, bind, EStateM.bind]
  cases access ctx op id m with
  | error e n' => simp
  | ok u n' => simp [pure, EStateM.pure, and_comm, eq_comm]

/-! ## Runs -/

section Runs

variable (plugins : Registry) {ctx : Context} (hpairs : Pairing pairs) (hctx : ctx.Respects pairs)
include hpairs hctx

/-- An instruction goes through without the entries below if it does on top of them. -/
theorem step_sinks {i j i' : Instruction} (hij : i.Twin pairs j) (hplugin : j.isPlugin = false)
    (hfits : j.fits = true) {m m' n : Machine MemoryStore} (hm : Sunk pairs base m m')
    (htakes : j.use.takes ≤ m'.stack.size) (h : step plugins ctx i m = .ok i' n) :
    ∃ j' n', step plugins ctx j m' = .ok j' n' ∧ Sunk pairs base n n' ∧
      n'.stack.size = m'.stack.size - j.use.takes + j.use.gives := by
  cases hij with
  | same hfree =>
    obtain ⟨operation, operand⟩ := i
    cases operation with
    | plugin id => cases hplugin
    | builtin op =>
      have hsinks : MachineM.Sinks pairs base ⟨op.takes operand.count, op.gives⟩
          (step plugins ctx ⟨.builtin op, operand⟩) (step plugins ctx ⟨.builtin op, operand⟩) :=
        (builtin_sinks ctx hfits hfree).bind fun _ => sinks_pure _ _
      obtain ⟨n', hn', hlast⟩ := hsinks m m' i' n hm htakes h
      exact ⟨i', n', hn', hlast⟩
  | @access op id id' hid =>
    obtain ⟨haccess, -⟩ := step_access_ok.mp h
    obtain ⟨n', hn', hlast⟩ :=
      access_sinks hpairs hid (hctx id id' hid) op m m' () n hm htakes haccess
    exact ⟨_, n', step_access_ok.mpr ⟨hn', rfl⟩, hlast⟩

/-- So does code whose heights are defined. -/
theorem run_sinks {code code' : List Instruction}
    (htwin : List.Forall₂ (Instruction.Twin pairs) code code')
    (hcode : ∀ j ∈ code', j.isPlugin = false ∧ j.fits = true) {m m' : Machine MemoryStore}
    (hm : Sunk pairs base m m') {depth : Nat}
    (hdepth : depthAfter m'.stack.size (code'.map (·.use)) = some depth)
    (h : (run plugins ctx code m).stopped = none) :
    (run plugins ctx code' m').stopped = none ∧
      Sunk pairs base (run plugins ctx code m).machine (run plugins ctx code' m').machine ∧
      (run plugins ctx code' m').machine.stack.size = depth := by
  induction htwin generalizing m m' with
  | nil => exact ⟨rfl, hm, Option.some.inj hdepth⟩
  | @cons i j code code' hij _ ih =>
    rw [List.forall_mem_cons] at hcode
    simp only [List.map_cons, depthAfter] at hdepth
    simp only [run] at h ⊢
    split at hdepth
    · next htakes =>
      cases hi : step plugins ctx i m with
      | error e n => simp [hi] at h
      | ok i' n =>
        rw [hi] at h
        obtain ⟨j', n', hj, hn, hheight⟩ :=
          step_sinks plugins hpairs hctx hij hcode.1.1 hcode.1.2 hm htakes hi
        rw [← hheight] at hdepth
        rw [hj]
        exact ih hcode.2 hn hdepth h
    · cases hdepth

end Runs

end Machine

end SignalCalc
