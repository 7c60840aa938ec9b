import SignalCalc.Program

/-! # Runs of code

What a run does to its code and how runs of two pieces of code join.

* `step_forget`, `run_forget` — a run changes nothing in its code but edge memories.
* `run_append_of_done`, `run_append_of_stopped` — a run of two pieces of code is the run of the one
  and then of the other.
* `Program.Descends` — what the life of a program, run by run, makes of it.
* `Descends.forget` — through all of it the code stays the same but for edge memories.
-/

namespace SignalCalc

@[simp] theorem Instruction.forget_forget (i : Instruction) : i.forget.forget = i.forget := by
  obtain ⟨operation, operand⟩ := i
  cases operand <;> rfl

@[simp] theorem Instruction.binding?_forget (i : Instruction) : i.forget.binding? = i.binding? := by
  obtain ⟨operation, operand⟩ := i
  cases operand <;> rfl

/-- What can be read off instructions with cleared memories is the same for code that differs in
memories only. -/
theorem map_of_forget {α : Type} {f : Instruction → α} (hf : ∀ i, f i.forget = f i)
    {code code' : List Instruction} (h : code'.map (·.forget) = code.map (·.forget)) :
    code'.map f = code.map f := by
  have hforget : ∀ l : List Instruction, l.map f = (l.map (·.forget)).map f := by
    intro l
    rw [List.map_map]
    exact List.map_congr_left fun i _ => (hf i).symm
  rw [hforget code', h, ← hforget code]

/-- What does not depend on memories and holds of all instructions holds of all instructions of code
that differs in memories only. -/
theorem forall_of_forget {P : Instruction → Prop} (hP : ∀ i, P i.forget ↔ P i)
    {code code' : List Instruction} (h : code'.map (·.forget) = code.map (·.forget))
    (hcode : ∀ i ∈ code, P i) : ∀ i ∈ code', P i := by
  intro i hi
  have hmem : i.forget ∈ code.map (·.forget) := h ▸ List.mem_map_of_mem hi
  obtain ⟨j, hj, hforget⟩ := List.mem_map.mp hmem
  rw [← hP, ← hforget, hP]
  exact hcode j hj

theorem filterMap_binding?_of_forget {code code' : List Instruction}
    (h : code'.map (·.forget) = code.map (·.forget)) :
    code'.filterMap (·.binding?) = code.filterMap (·.binding?) := by
  have hbindings := map_of_forget Instruction.binding?_forget h
  have hfilter : ∀ l : List Instruction,
      l.filterMap (·.binding?) = (l.map (·.binding?)).filterMap fun b => b := by
    intro l
    rw [List.filterMap_map]
    rfl
  rw [hfilter code', hbindings, ← hfilter code]

namespace Machine

variable {σ : Type} [VariableStore σ]

/-- A built-in operation gives back its operand, or the new memory of an edge detector. -/
theorem builtin_operand {ctx : Context} {op : Opcode} {operand operand' : Operand}
    {m m' : Machine σ} (h : builtin ctx op operand m = .ok operand' m') :
    operand' = operand ∨ ∃ last last', operand = .edge last ∧ operand' = .edge last' := by
  -- all but the edge detectors end by returning the operand that they were given
  have hreturn : ∀ {x : MachineM σ Unit} {o : Operand},
      (x >>= fun _ => pure o) m = .ok operand' m' → operand' = o := by
    intro x o hx
    simp only [bind, EStateM.bind] at hx
    split at hx
    · cases hx
      rfl
    · cases hx
  cases op with
  | stack op =>
    cases op with
    | literal =>
      cases operand with
      | literal v => exact .inl (hreturn h)
      | absent | bound | argCount | edge => cases h
    | parameter | swap => exact .inl (hreturn h)
  | access op =>
    cases operand with
    | bound id => exact .inl (hreturn h)
    | absent | literal | argCount | edge => cases h
  | arithmetic op | logic op | bits op | math op | cast op | frame op => exact .inl (hreturn h)
  | edge op =>
    cases operand with
    | edge last =>
      simp only [builtin, bind, EStateM.bind] at h
      split at h
      · cases h
        exact .inr ⟨last, _, rfl, rfl⟩
      · cases h
    | absent | literal | bound | argCount => cases h
  | crc op =>
    cases operand with
    | argCount n => exact .inl (hreturn h)
    | absent | literal | bound | edge => cases h

theorem step_forget {plugins : Registry} {ctx : Context} {i i' : Instruction} {m m' : Machine σ}
    (h : step plugins ctx i m = .ok i' m') : i'.forget = i.forget := by
  obtain ⟨operation, operand⟩ := i
  cases operation with
  | plugin id =>
    simp only [step, bind, EStateM.bind] at h
    split at h
    · cases h
      rfl
    · cases h
  | builtin op =>
    simp only [step, bind, EStateM.bind] at h
    split at h
    · next operand' m'' hb =>
      cases h
      rcases builtin_operand hb with rfl | ⟨last, last', rfl, rfl⟩ <;> rfl
    · cases h

/-- A run changes nothing in its code but edge memories. -/
theorem run_forget (plugins : Registry) (ctx : Context) (code : List Instruction) (m : Machine σ) :
    (run plugins ctx code m).code.map (·.forget) = code.map (·.forget) := by
  induction code generalizing m with
  | nil => rfl
  | cons i code ih =>
    unfold run
    cases hi : step plugins ctx i m with
    | error e m' => rfl
    | ok i' m' =>
      simp only [List.map_cons, ih m', step_forget hi]

/-- A run of two pieces of code, when the first goes through. -/
theorem run_append_of_done {plugins : Registry} {ctx : Context} {first : List Instruction}
    {m : Machine σ} (h : (run plugins ctx first m).stopped = none) (second : List Instruction) :
    (run plugins ctx (first ++ second) m).stopped =
        (run plugins ctx second (run plugins ctx first m).machine).stopped ∧
      (run plugins ctx (first ++ second) m).machine =
        (run plugins ctx second (run plugins ctx first m).machine).machine := by
  induction first generalizing m with
  | nil => exact ⟨rfl, rfl⟩
  | cons i first ih =>
    simp only [List.cons_append, run] at h ⊢
    cases hi : step plugins ctx i m with
    | error e m' => simp [hi] at h
    | ok i' m' =>
      simp only [hi] at h
      exact ih h

/-- A run of two pieces of code, when the first stops. -/
theorem run_append_of_stopped {plugins : Registry} {ctx : Context} {first : List Instruction}
    {m : Machine σ} {e : RunError} (h : (run plugins ctx first m).stopped = some e)
    (second : List Instruction) : (run plugins ctx (first ++ second) m).stopped = some e := by
  induction first generalizing m with
  | nil => cases h
  | cons i first ih =>
    simp only [List.cons_append, run] at h ⊢
    cases hi : step plugins ctx i m with
    | error e' m' => simpa [hi] using h
    | ok i' m' =>
      simp only [hi] at h
      exact ih h

theorem run_singleton (plugins : Registry) (ctx : Context) (i : Instruction) (m : Machine σ) :
    run plugins ctx [i] m =
      match step plugins ctx i m with
      | .ok i' m' => ⟨none, [i'], m'⟩
      | .error e m' => ⟨some e, [i], m'⟩ := by
  unfold run
  cases step plugins ctx i m <;> rfl

end Machine

/-! ## The life of a program -/

namespace Program

/-- What becomes of a program: it is run, on any store and in any context, its edge memories are
cleared, it is copied, and it is registered. -/
inductive Descends (plugins : Registry) (p : Program) : Program → Prop where
  | self : Descends plugins p p
  | run {q : Program} {σ : Type} [VariableStore σ] (ctx : Context) (s : σ)
      (h : Descends plugins p q) : Descends plugins p (q.run plugins ctx s).program
  | reset {q : Program} (h : Descends plugins p q) : Descends plugins p q.resetEdges
  | share {q : Program} {σ : Type} [VariableStore σ] (s : σ) (h : Descends plugins p q) :
      Descends plugins p (q.share s).1
  | register {q : Program} {σ : Type} [VariableStore σ] (n : UInt64) (s : σ)
      (h : Descends plugins p q) : Descends plugins p (q.register n s).1

/-- Through its life a program keeps its code but for edge memories. -/
theorem Descends.forget {plugins : Registry} {p q : Program} (h : Descends plugins p q) :
    q.code.map (·.forget) = p.code.map (·.forget) := by
  induction h with
  | self => rfl
  | run ctx s _ ih => exact (Machine.run_forget plugins ctx _ _).trans ih
  | reset _ ih =>
    rw [← ih]
    simp only [resetEdges, List.map_map, Function.comp_def, Instruction.forget_forget]
  | share s _ ih => exact ih
  | register n s _ ih => exact ih

end Program

end SignalCalc
