import SignalCalc.Proofs.Equation.Outcome
import SignalCalc.Proofs.Machine.Run
import SignalCalc.Store.Memory

/-! # Memories of edge detectors

What an edge detector remembers, through any history of the program it belongs to. Nothing but edge
memories changes in a program, every detector remembers what it took from the stack in the last run
that came to it, and copies go separate ways from the moment they are made.
-/

namespace SignalCalc

/-! ## One run -/

def EdgeOp.answer (op : EdgeOp) (last : Option Float) (now : Value) : Value :=
  .ofFloat (if last.any (op.fires · now.toFloat) then 1.0 else 0.0)

namespace Machine

variable {σ : Type} [VariableStore σ]

/-- The top of the stack when a run comes to the `k`-th instruction. There is none when the run stops
before, or comes to it with nothing on the stack. -/
def operandAt (plugins : Registry) (ctx : Context) (code : List Instruction) (k : Nat)
    (m : Machine σ) : Option Value :=
  let before := run plugins ctx (code.take k) m
  match before.stopped with
  | some _ => none
  | none => before.machine.stack.top?

theorem operandAt_succ (plugins : Registry) (ctx : Context) (i : Instruction)
    (code : List Instruction) (k : Nat) (m : Machine σ) :
    operandAt plugins ctx (i :: code) (k + 1) m =
      match step plugins ctx i m with
      | .ok _ m' => operandAt plugins ctx code k m'
      | .error _ _ => none := by
  simp only [operandAt, List.take_succ_cons, run]
  cases step plugins ctx i m <;> rfl

/-- A detector with an operand takes it, pushes its answer and remembers the operand. -/
theorem step_edge (plugins : Registry) (ctx : Context) (op : EdgeOp) (last : Option Float)
    {v : Value} {below : List Value} (hbounded : (v :: below).length ≤ stackCapacity) (store : σ) :
    step plugins ctx ⟨.builtin (.edge op), .edge last⟩ ⟨⟨v :: below, hbounded⟩, store⟩ =
      .ok ⟨.builtin (.edge op), .edge (some v.toFloat)⟩
        ⟨⟨op.answer last v :: below, hbounded⟩, store⟩ := by
  have hroom : below.length < stackCapacity := hbounded
  simp only [step, builtin, onStack, EdgeOp.run, Stack.pop, Stack.push, bind, EStateM.bind, pure,
    EStateM.pure, dif_pos hroom, EdgeOp.answer]
  cases last <;> rfl

/-- A detector without one stops the run. -/
theorem step_edge_empty (plugins : Registry) (ctx : Context) (op : EdgeOp) (last : Option Float)
    {m : Machine σ} (hm : m.stack.entries = []) :
    ∃ m', step plugins ctx ⟨.builtin (.edge op), .edge last⟩ m = .error .stackUnderflow m' := by
  obtain ⟨⟨entries, hbounded⟩, store⟩ := m
  cases hm
  exact ⟨_, rfl⟩

/-- One run and one of its detectors: if the run comes to it with an operand, the operand is what the
detector remembers afterwards, and its answer takes the operand's place on the stack. Otherwise the
detector stays as it was. -/
theorem run_detector (plugins : Registry) (ctx : Context) {code : List Instruction} {k : Nat}
    {op : EdgeOp} {last : Option Float} (hk : code[k]? = some ⟨.builtin (.edge op), .edge last⟩)
    (m : Machine σ) :
    match operandAt plugins ctx code k m with
    | none => (run plugins ctx code m).code[k]? = some ⟨.builtin (.edge op), .edge last⟩
    | some v =>
      (run plugins ctx code m).code[k]? = some ⟨.builtin (.edge op), .edge (some v.toFloat)⟩ ∧
      ∃ below, (run plugins ctx (code.take k) m).machine.stack.entries = v :: below ∧
        (run plugins ctx (code.take (k + 1)) m).stopped = none ∧
        (run plugins ctx (code.take (k + 1)) m).machine.stack.entries =
          op.answer last v :: below := by
  induction code generalizing k m with
  | nil => cases hk
  | cons i code ih =>
    -- the run comes to the detector now, or its first instruction is some other one
    cases k with
    | zero =>
      cases hk
      obtain ⟨⟨entries, hbounded⟩, store⟩ := m
      cases entries with
      | nil =>
        obtain ⟨m', hstep⟩ := step_edge_empty plugins ctx op last (m := ⟨⟨[], hbounded⟩, store⟩) rfl
        simp only [operandAt, List.take_zero, run, Stack.top?, List.head?_nil, hstep,
          List.getElem?_cons_zero]
      | cons v below =>
        simp only [operandAt, List.take_zero, List.take_succ_cons, run, Stack.top?, List.head?_cons,
          step_edge, List.getElem?_cons_zero, true_and]
        exact ⟨below, rfl, rfl⟩
    | succ k =>
      rw [operandAt_succ]
      simp only [List.take_succ_cons, run]
      cases step plugins ctx i m with
      | error e m' => exact hk
      | ok i' m' => exact ih hk m'

end Machine

/-! ## The history of a program -/

inductive Moment (σ : Type) where
  /-- A run, which may succeed or fail. -/
  | run (plugins : Registry) (ctx : Context) (s : σ)
  | reset

variable {σ : Type} [VariableStore σ]

def Moment.apply (p : Program) : Moment σ → Program
  | .run plugins ctx s => (p.run plugins ctx s).program
  | .reset => p.resetEdges

namespace Program

def after (p : Program) : List (Moment σ) → Program
  | [] => p
  | moment :: past => moment.apply (p.after past)

/-- The operand that the `k`-th instruction took in the latest run since the program was compiled or
reset that came to it. -/
def remembered (p : Program) (k : Nat) : List (Moment σ) → Option Float
  | [] | .reset :: _ => none
  | .run plugins ctx s :: past =>
    match Machine.operandAt plugins ctx (p.after past).code k ⟨.empty, s⟩ with
    | some v => some v.toFloat
    | none => p.remembered k past

def Fresh (p : Program) : Prop := p.resetEdges = p

@[simp] theorem run_resetEdges (plugins : Registry) (ctx : Context) (p : Program) (s : σ) :
    (p.run plugins ctx s).program.resetEdges = p.resetEdges := by
  simp only [resetEdges, run, Machine.run_forget]

@[simp] theorem resetEdges_resetEdges (p : Program) : p.resetEdges.resetEdges = p.resetEdges := by
  simp [resetEdges]

/-- Whatever happens to a program, clearing its memories brings it back. -/
theorem Fresh.resetEdges_after {p : Program} (h : p.Fresh) (past : List (Moment σ)) :
    (p.after past).resetEdges = p := by
  induction past with
  | nil => exact h
  | cons moment past ih =>
    cases moment with
    | run plugins ctx s => exact (run_resetEdges plugins ctx _ s).trans ih
    | reset => exact (resetEdges_resetEdges _).trans ih

/-- A detector remembers what its history left in it. -/
theorem Fresh.detector_after {p : Program} (h : p.Fresh) {k : Nat} {op : EdgeOp}
    (hk : p.code[k]? = some ⟨.builtin (.edge op), .edge none⟩) (past : List (Moment σ)) :
    (p.after past).code[k]? = some ⟨.builtin (.edge op), .edge (p.remembered k past)⟩ := by
  induction past with
  | nil => exact hk
  | cons moment past ih =>
    cases moment with
    | reset =>
      have hreset : p.after (Moment.reset :: past) = p := h.resetEdges_after past
      rw [hreset]
      exact hk
    | run plugins ctx s =>
      have hrun := Machine.run_detector plugins ctx ih ⟨.empty, s⟩
      simp only [remembered]
      cases hoperand : Machine.operandAt plugins ctx (p.after past).code k ⟨.empty, s⟩ with
      | none =>
        rw [hoperand] at hrun
        exact hrun
      | some v =>
        rw [hoperand] at hrun
        exact hrun.1

end Program

/-! ## Copies -/

inductive Deed (σ : Type) where
  | happens (copy : Nat) (moment : Moment σ)
  | share (copy : Nat) (s : σ)

/-- The copies after a deed, each with its past. A new one has the past of the one it is made
from. -/
def Deed.apply (copies : List (Program × List (Moment σ))) :
    Deed σ → List (Program × List (Moment σ))
  | .happens i moment => copies.modify i fun (q, past) => (moment.apply q, moment :: past)
  | .share i s => copies ++ (copies[i]?.map fun (q, past) => ((q.share s).1, past)).toList

/-- A program and its copies after some deeds, the latest of which comes first. -/
def Program.copies (p : Program) : List (Deed σ) → List (Program × List (Moment σ))
  | [] => [(p, [])]
  | deed :: deeds => deed.apply (p.copies deeds)

/-- Registrations stay as they are through runs and resets. -/
theorem Program.after_registration (p : Program) (past : List (Moment σ)) :
    (p.after past).registration = p.registration := by
  induction past with
  | nil => rfl
  | cons moment past ih => cases moment <;> exact ih

/-- Every copy is what its own past has made of the program, whatever happened to the others. -/
theorem Program.copies_independent {p : Program} (hp : p.registration = 0) (deeds : List (Deed σ)) :
    ∀ copy ∈ p.copies deeds, copy.1 = p.after copy.2 := by
  induction deeds with
  | nil => simp [copies, after]
  | cons deed deeds ih =>
    intro copy hcopy
    cases deed with
    | happens i moment =>
      obtain ⟨j, hj⟩ := List.mem_iff_getElem?.mp hcopy
      simp only [copies, Deed.apply, List.getElem?_modify, Option.map_eq_map,
        Option.map_eq_some_iff] at hj
      obtain ⟨old, hold, rfl⟩ := hj
      have hbefore := ih old (List.mem_of_getElem? hold)
      by_cases hij : i = j
      · simp only [hij, if_true, hbefore]
        rfl
      · simpa only [hij, if_false] using hbefore
    | share i s =>
      obtain hold | hnew := List.mem_append.mp (show copy ∈ p.copies deeds ++ _ from hcopy)
      · exact ih copy hold
      · simp only [Option.mem_toList, Option.map_eq_some_iff] at hnew
        obtain ⟨source, hsource, rfl⟩ := hnew
        have hbefore := ih source (List.mem_of_getElem? hsource)
        -- a copy loses its registration, and the source has none
        have hnone : source.1.registration = 0 := by rw [hbefore, after_registration, hp]
        have hshare : (source.1.share s).1 = source.1 := by
          simp only [share, ← hnone]
        exact hshare.trans hbefore

/-! ## Compiled programs -/

/-- An instruction as the compiler makes it: it has no memory of a run, and if it is a detector, it
has room for one. -/
def Instruction.Unused (i : Instruction) : Prop :=
  i.forget = i ∧ ∀ op, i.operation = .builtin (.edge op) → i.operand = .edge none

/-- The functions that are detectors may be used in programs only. -/
theorem Builtin.gate_of_isStateful : ∀ b ∈ Builtin.table, b.op.isStateful = true →
    b.gate = .stateful ∧ b.variadic = false := by
  decide

theorem Called.unused {i : Instruction} {count : Nat} {usesFrame : Bool}
    (h : Called i count usesFrame) : i.Unused := by
  cases h with
  | @builtin b count hb hcount =>
    constructor
    · unfold Instruction.forget Builtin.instruction
      cases b.variadic <;> cases b.gate <;> rfl
    · intro op hop
      have hstateful : b.op.isStateful = true := by
        rw [Operation.builtin.inj hop]
        rfl
      obtain ⟨hgate, hvariadic⟩ := Builtin.gate_of_isStateful b hb hstateful
      simp [Builtin.instruction, hgate, hvariadic]
  | plugin id count usesFrame =>
    exact ⟨rfl, fun op hop => by cases hop⟩

theorem Compiled.unused {cfg : Setting} {w w' : Workspace σ} {a : Action} (ha : a.Listed)
    (h : Compiled cfg w a w') (hw : ∀ i ∈ w.code, i.Unused) : ∀ i ∈ w'.code, i.Unused := by
  have happend : ∀ new : Instruction, new.Unused → ∀ i ∈ w.code ++ [new], i.Unused := by
    intro new hnew i hi
    obtain hi | hi := List.mem_append.mp hi
    · exact hw i hi
    · rwa [List.mem_singleton.mp hi]
  cases h with
  | push v => exact happend _ ⟨rfl, fun op hop => by cases hop⟩
  | operate op =>
    refine happend _ ⟨rfl, fun edge hop => ?_⟩
    cases hop
    cases ha
  | invoke i count usesFrame => exact happend i (Called.unused ha)
  | enumText hname htext => exact happend _ ⟨rfl, fun op hop => by cases hop⟩
  | access warnings hresolve hconversion => exact happend _ ⟨rfl, fun op hop => by cases hop⟩
  | frame function => exact hw
  | memory function => exact hw

theorem compile_unused {cfg : Setting} {scope : Option Scope} {source : String} {s : σ}
    {p : Program} (hp : (compile cfg scope source s).result = .ok p) : ∀ i ∈ p.code, i.Unused := by
  obtain ⟨w, hw, -, rfl⟩ := compile_ok hp
  have hall := interpret_compile (P := fun _ w => ∀ i ∈ w.code, i.Unused) (Q := fun _ _ => True)
    (fun a rest w w' ha hw (h : Compiled cfg w a w') => h.unused ha hw)
    (fun _ _ _ _ _ _ _ => trivial) (fun _ _ _ => trivial) source (w := .start s scope)
    (by simp [Workspace.start])
  rw [hw] at hall
  exact hall.1

theorem compile_fresh {cfg : Setting} {scope : Option Scope} {source : String} {s : σ}
    {p : Program} (hp : (compile cfg scope source s).result = .ok p) :
    p.Fresh ∧ p.registration = 0 := by
  have hcode : p.code.map (·.forget) = p.code :=
    (List.map_congr_left fun i hi => (compile_unused hp i hi).1).trans (List.map_id' p.code)
  obtain ⟨w, -, -, rfl⟩ := compile_ok hp
  exact ⟨by simp only [Program.Fresh, Program.resetEdges, hcode], rfl⟩

/-- Edge memories through whole histories. Take a compiled program and its copies, after any number
of runs, each with its own plugins, context and store and each succeeding or failing, of resets and
of further copying. Then every copy is what its own past has made of the program; clearing its
memories gives back the program as it was compiled; each of its detectors remembers the operand of
the latest run that came to it since the last reset, or nothing if none did; and in any further run
that comes to it, a detector replaces its operand by an answer that depends on nothing but the
operation, the operand and that memory. -/
theorem edge_memory_exact {cfg : Setting} {scope : Option Scope} {source : String} {s : σ}
    {p : Program} (hp : (compile cfg scope source s).result = .ok p) (deeds : List (Deed σ))
    {q : Program} {past : List (Moment σ)} (hq : (q, past) ∈ p.copies deeds) :
    q = p.after past ∧ q.resetEdges = p ∧
      ∀ k op, p.code[k]?.map (·.operation) = some (.builtin (.edge op)) →
        q.code[k]? = some ⟨.builtin (.edge op), .edge (p.remembered k past)⟩ ∧
        ∀ plugins ctx (t : σ) v, Machine.operandAt plugins ctx q.code k ⟨.empty, t⟩ = some v →
          ∃ below,
            (Machine.run plugins ctx (q.code.take k) ⟨.empty, t⟩).machine.stack.entries =
              v :: below ∧
            (Machine.run plugins ctx (q.code.take (k + 1)) ⟨.empty, t⟩).stopped = none ∧
            (Machine.run plugins ctx (q.code.take (k + 1)) ⟨.empty, t⟩).machine.stack.entries =
              op.answer (p.remembered k past) v :: below := by
  obtain ⟨hfresh, hregistration⟩ := compile_fresh hp
  have hafter : q = p.after past := p.copies_independent hregistration deeds (q, past) hq
  subst hafter
  refine ⟨rfl, hfresh.resetEdges_after past, fun k op hk => ?_⟩
  obtain ⟨i, hi, hop⟩ := Option.map_eq_some_iff.mp hk
  have hdetector : p.code[k]? = some ⟨.builtin (.edge op), .edge none⟩ := by
    have hoperand := (compile_unused hp i (List.mem_of_getElem? hi)).2 op hop
    rw [hi, ← hop, ← hoperand]
  have hmemory := hfresh.detector_after hdetector past
  refine ⟨hmemory, fun plugins ctx t v hv => ?_⟩
  have hrun := Machine.run_detector plugins ctx hmemory ⟨.empty, t⟩
  rw [hv] at hrun
  exact hrun.2

/-- A detector that sees 2 before it is copied. The copy then sees 5, and only the copy remembers
it. -/
theorem edge_memory_exact_copies :
    let seeing (x : Float) : Moment MemoryStore :=
      .run .empty { replaced := some (⟨1⟩, .ofFloat x) } {}
    ∃ p, (compile {} none "slope_up(x)" ({} : MemoryStore)).result = .ok p ∧
      ∃ source copy, p.copies [.happens 1 (seeing 5.0), .share 0 {}, .happens 0 (seeing 2.0)] =
          [(source, [seeing 2.0]), (copy, [seeing 5.0, seeing 2.0])] ∧
        source.code[1]? = some ⟨.builtin (.edge .rising), .edge (some 2.0)⟩ ∧
        copy.code[1]? = some ⟨.builtin (.edge .rising), .edge (some 5.0)⟩ ∧
        source.resetEdges = p ∧ copy.resetEdges = p := by
  intro seeing
  have hshape : (compile {} none "slope_up(x)" ({} : MemoryStore)).result.toOption.map (fun p =>
      (p.registration, p.code.map fun i => (i.operation, i.binding?))) =
      some (0, [(.builtin (.access .read), some ⟨1⟩), (.builtin (.edge .rising), none)]) := by
    decide +kernel
  obtain ⟨⟨code, source, warnings, usesFrame, lockHeld, registration⟩, hp, hparts⟩ :=
    result_of_toOption hshape
  simp only [Prod.mk.injEq, List.map_eq_cons_iff, List.map_eq_nil_iff] at hparts
  obtain ⟨rfl, ⟨read, operand⟩, _, rfl, ⟨rfl, hread⟩, ⟨edge, memory⟩, _, rfl, ⟨rfl, -⟩, rfl⟩ := hparts
  obtain rfl : operand = .bound ⟨1⟩ := by
    cases operand <;> cases hread
    rfl
  obtain rfl : memory = .edge none :=
    (compile_unused hp ⟨.builtin (.edge .rising), memory⟩ (by simp)).2 .rising rfl
  have hsource := edge_memory_exact hp
    [.happens 1 (seeing 5.0), .share 0 {}, .happens 0 (seeing 2.0)] (List.mem_cons_self ..)
  have hcopy := edge_memory_exact hp
    [.happens 1 (seeing 5.0), .share 0 {}, .happens 0 (seeing 2.0)]
    (List.mem_cons_of_mem _ (List.mem_cons_self ..))
  exact ⟨_, hp, _, _, rfl, (hsource.2.2 1 .rising rfl).1, (hcopy.2.2 1 .rising rfl).1,
    hsource.2.1, hcopy.2.1⟩

end SignalCalc
