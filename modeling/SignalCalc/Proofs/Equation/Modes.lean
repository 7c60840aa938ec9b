import SignalCalc.Proofs.Equation.Refinement

/-! # What the modes have in common

The parser goes its own way in each mode, but it comes to what the script of the equation comes to,
and the script knows no mode. So compiling, evaluating and checking agree on what is wrong with an
equation as it is written. They need not agree on what they say about it: each mode may stop earlier
for a reason of its own, and then never gets to the fault.
-/

namespace SignalCalc

open MemoryStore WorkM

/-- Whether a refusal is about the equation as it is written: its text, or the number of arguments of
a call. That a variable lacks an enumeration text is a matter of the store. -/
def Refusal.isSyntactic : Refusal → Bool
  | .arity .. => true
  | .text (.noEnumText ..) => false
  | .text _ => true
  | .binding .. | .place _ | .run _ => false

def Action.follows : Action → Bool
  | .follow _ | .access _ (.reference _) => true
  | _ => false

/-- Work that finds nothing wrong with the text, as long as there are no local variables. -/
abbrev Textless (cfg : Setting) {α : Type} (x : WorkM MemoryStore α) : Prop :=
  Raises (fun w => NoLocals cfg w.scope) (·.isSyntactic = false) x

variable {cfg : Setting} {mode : Mode}

/-! ## Actions -/

theorem accessLocal_textless (op : AccessOp) (name : String) :
    Textless cfg (accessLocal cfg op name : WorkM MemoryStore Bool) := by
  intro w hw
  simp only [accessLocal]
  rw [bind_apply, locals_none hw]
  exact hw

/-- An action that follows no reference finds nothing wrong with the text, in any mode. -/
theorem perform_raises (mode : Mode) {a : Action} (ha : a.follows = false) :
    Textless cfg (perform cfg mode a : WorkM MemoryStore Unit) := by
  apply perform_raises_of (fun _ => rfl) (fun _ _ => rfl) (fun _ => rfl) (fun _ _ => rfl)
    accessLocal_textless
  · rintro op (name | r) rfl
    · exact raises_pure name
    · cases ha
  · rintro r rfl
    cases ha

/-- Without local variables no reference can be followed, in any mode. -/
theorem perform_follows (mode : Mode) {a : Action} (ha : a.follows = true)
    {w : Workspace MemoryStore} (hw : NoLocals cfg w.scope) :
    ∃ r, perform cfg mode a w = .error r w := by
  cases a with
  | access op target =>
    cases target with
    | named name => cases ha
    | reference reference =>
      have hperform : perform cfg mode (.access op (.reference reference)) w =
          (dereference cfg mode reference >>= variableAccess cfg mode op) w := rfl
      rw [hperform, bind_apply, dereference_refused hw]
      exact ⟨_, rfl⟩
  | follow reference =>
    have hperform : perform cfg mode (.follow reference) w =
        (dereference cfg mode reference >>= fun _ => pure ()) w := rfl
    rw [hperform, bind_apply, dereference_refused hw]
    exact ⟨_, rfl⟩
  | push | operate | demand | invoke | enumText | query | compareText => cases ha

/-! ## Scripts -/

theorem performAll_raises (mode : Mode) {actions : List Action}
    (h : ∀ a ∈ actions, a.follows = false) :
    Textless cfg (performAll cfg mode actions : WorkM MemoryStore Unit) := by
  induction actions with
  | nil => exact raises_pure ()
  | cons a actions ih =>
    exact (perform_raises mode (h a (by simp))).bind fun _ =>
      ih fun b hb => h b (List.mem_cons_of_mem a hb)

/-- No mode gets past an action that follows a reference: it stops there, or earlier. -/
theorem performAll_follows (mode : Mode) {actions : List Action}
    (h : ∃ a ∈ actions, a.follows = true) {w : Workspace MemoryStore} (hw : NoLocals cfg w.scope) :
    ∃ r w', performAll cfg mode actions w = .error r w' := by
  -- induction on the actions; what goes through before the reference leaves no local variables
  induction actions generalizing w with
  | nil => simp at h
  | cons a actions ih =>
    rw [performAll, bind_apply]
    by_cases ha : a.follows = true
    · obtain ⟨r, hr⟩ := perform_follows mode ha hw
      exact ⟨r, w, by rw [hr]⟩
    · have hfirst := perform_raises mode (Bool.not_eq_true _ ▸ ha) w hw
      cases hperform : perform cfg mode a w with
      | error r w' => exact ⟨r, w', rfl⟩
      | ok u w' =>
        rw [hperform] at hfirst
        apply ih _ hfirst
        obtain ⟨b, hb, hfollows⟩ := h
        rcases List.mem_cons.mp hb with rfl | hb
        · exact absurd hfollows ha
        · exact ⟨b, hb, hfollows⟩

/-- What can be wrong with an equation as it is written: its script ends in a fault, or follows a
reference. -/
def Script.Faulty (script : Script) : Prop :=
  script.fault ≠ none ∨ ∃ a ∈ script.actions, a.follows = true

theorem interpret_faulty (mode : Mode) {script : Script} (h : script.Faulty)
    {w : Workspace MemoryStore} (hw : NoLocals cfg w.scope) :
    ∃ r w', interpret cfg mode script w = .error r w' := by
  rw [interpret, bind_apply]
  rcases h with hfault | hfollows
  · cases performAll cfg mode script.actions w with
    | error r w' => exact ⟨r, w', rfl⟩
    | ok u w' =>
      obtain ⟨f, hf⟩ := Option.ne_none_iff_exists'.mp hfault
      exact ⟨f.refusal, w', by rw [hf]; rfl⟩
  · obtain ⟨r, w', hall⟩ := performAll_follows mode hfollows hw
    exact ⟨r, w', by rw [hall]⟩

theorem faulty_of_syntactic {script : Script} {w w' : Workspace MemoryStore} {r : Refusal}
    (hw : NoLocals cfg w.scope) (h : interpret cfg mode script w = .error r w')
    (hr : r.isSyntactic = true) : script.Faulty := by
  by_cases hfollows : ∃ a ∈ script.actions, a.follows = true
  · exact .inr hfollows
  · have hnone : ∀ a ∈ script.actions, a.follows = false := by simpa using hfollows
    have hall := performAll_raises mode hnone w hw
    rw [interpret, bind_apply] at h
    cases hperform : performAll cfg mode script.actions w with
    | error e v =>
      rw [hperform] at hall h
      cases h
      exact absurd hr (by simp [hall])
    | ok u v =>
      -- the actions went through, so that the refusal is the fault at the end
      rw [hperform] at h
      apply Or.inl
      intro hfault
      rw [hfault] at h
      cases h

/-! ## Whole equations -/

def Outcome.refusal? {σ α : Type} (o : Outcome σ α) : Option Refusal :=
  match o.result with
  | .ok _ => none
  | .error e => some e.refusal

def refusedIn (cfg : Setting) (mode : Mode) (scope : Option Scope) (source : String)
    (s : MemoryStore) : Option Refusal :=
  match interpret cfg mode (.ofText cfg.dialect source) (.start s scope) with
  | .ok .. => none
  | .error r _ => some r

variable {scope : Option Scope} {source : String} {s : MemoryStore}

/-- What one mode refuses for the text, every mode refuses. -/
theorem refusedIn_everywhere (hlocals : NoLocals cfg scope) {r : Refusal}
    (h : refusedIn cfg mode scope source s = some r) (hr : r.isSyntactic = true) (mode' : Mode) :
    (refusedIn cfg mode' scope source s).isSome := by
  have hstart : NoLocals cfg (Workspace.start s scope).scope := hlocals
  have hfaulty : (Script.ofText cfg.dialect source).Faulty := by
    simp only [refusedIn] at h
    split at h
    · cases h
    · next hinterpret =>
      cases h
      exact faulty_of_syntactic hstart hinterpret hr
  obtain ⟨r', w, hw⟩ := interpret_faulty mode' hfaulty hstart
  simp only [refusedIn, hw, Option.isSome_some]

theorem refusal?_compile :
    (compile cfg scope source s).refusal? = refusedIn cfg .compile scope source s := by
  simp only [Outcome.refusal?, compile, refusedIn, Parser.read_eq_interpret]
  cases interpret cfg .compile (.ofText cfg.dialect source) (.start s scope) <;> rfl

theorem refusal?_check (strict : Bool) :
    (check cfg strict scope source s).refusal? = refusedIn cfg (.check strict) scope source s := by
  simp only [Outcome.refusal?, check, refusedIn, Parser.read_eq_interpret]
  cases interpret cfg (.check strict) (.ofText cfg.dialect source) (.start s scope) <;> rfl

/-- An evaluation is refused with its script, or because it came to no result. -/
theorem refusal?_evaluate (cfg : Setting) (scope : Option Scope) (source : String)
    (s : MemoryStore) :
    (evaluate cfg scope source s).refusal? = refusedIn cfg .direct scope source s ∨
      (evaluate cfg scope source s).refusal? = some (.run .noResult) := by
  simp only [Outcome.refusal?, evaluate, refusedIn, Parser.read_eq_interpret]
  cases interpret cfg .direct (.ofText cfg.dialect source) (.start s scope) with
  | error r w => exact .inl rfl
  | ok u w =>
    dsimp only
    cases w.machine.stack.bottom? with
    | none => exact .inr rfl
    | some v => exact .inl rfl

/-- The modes accept the same syntax. Without local variables, an equation that one of them refuses
for its text or for the number of arguments of a call is refused by all of them, though each may
give a reason of its own. -/
theorem modes_refuse_together (cfg : Setting) (scope : Option Scope) (source : String)
    (s : MemoryStore) (hlocals : NoLocals cfg scope)
    (h : ∃ r, r.isSyntactic = true ∧
      ((compile cfg scope source s).refusal? = some r ∨
        (evaluate cfg scope source s).refusal? = some r ∨
        (check cfg false scope source s).refusal? = some r)) :
    (compile cfg scope source s).refusal?.isSome ∧
      (evaluate cfg scope source s).refusal?.isSome ∧
      (check cfg false scope source s).refusal?.isSome := by
  -- whichever mode it was, its script was refused for the text, and that holds in every mode
  have hall : ∀ mode, (refusedIn cfg mode scope source s).isSome := by
    obtain ⟨r, hr, hcompile | hevaluate | hcheck⟩ := h
    · rw [refusal?_compile] at hcompile
      exact refusedIn_everywhere hlocals hcompile hr
    · rcases refusal?_evaluate cfg scope source s with hscript | hnone
      · exact refusedIn_everywhere hlocals (hscript.symm.trans hevaluate) hr
      · -- an evaluation without a result found nothing wrong with the text
        rw [hnone] at hevaluate
        cases hevaluate
        cases hr
    · rw [refusal?_check] at hcheck
      exact refusedIn_everywhere hlocals hcheck hr
  refine ⟨?_, ?_, ?_⟩
  · rw [refusal?_compile]
    exact hall .compile
  · rcases refusal?_evaluate cfg scope source s with hscript | hnone
    · rw [hscript]
      exact hall .direct
    · simp [hnone]
  · rw [refusal?_check]
    exact hall (.check false)

/-- A comparison with one text only: an evaluation misses the other one, the compiler does not get
that far. -/
theorem modes_refuse_together_comparison :
    (evaluate {} none "strcmp(a)" ({} : MemoryStore)).refusal? =
        some (.arity "strcmp" (.exactly 2) 1) ∧
      (compile {} none "strcmp(a)" ({} : MemoryStore)).refusal?.isSome := by
  have hevaluate : (evaluate {} none "strcmp(a)" ({} : MemoryStore)).refusal? =
      some (.arity "strcmp" (.exactly 2) 1) := by
    rw [evaluate, Parser.read_eq_interpret]
    rfl
  exact ⟨hevaluate, (modes_refuse_together {} none "strcmp(a)" {} (.inl rfl)
    ⟨_, rfl, .inr (.inl hevaluate)⟩).1⟩

end SignalCalc
