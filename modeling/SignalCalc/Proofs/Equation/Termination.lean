import SignalCalc.Proofs.Equation.Outcome
import SignalCalc.Proofs.Script.Termination

namespace SignalCalc

open WorkM

/-! ## Refusals of the work -/

/-- Whether a refusal can come from the work on an equation, and not from reading it. That a reference
leads nowhere or a variable lacks a text is found out in the work. -/
def Refusal.isOfWork : Refusal → Bool
  | .arity .. => false
  | .text (.noDereference _) | .text (.noEnumText ..) => true
  | .text _ => false
  | .binding .. | .place _ | .run _ => true

variable {σ : Type}

/-- Work that is refused for reasons of its own. -/
abbrev Works {α : Type} (x : WorkM σ α) : Prop :=
  Raises (fun _ => True) (fun r => r.isOfWork = true) x

section Works

variable {cfg : Setting} {mode : Mode}

theorem dereference_works (reference : String) :
    Works (dereference cfg mode reference : WorkM σ String) := by
  apply (locals_raises (Q := fun _ => True) cfg mode).bind
  intro found
  split
  · exact raises_throw rfl
  · split
    · exact raises_pure _
    · exact raises_throw rfl

theorem targetName_works (target : Target) : Works (targetName cfg mode target : WorkM σ String) := by
  cases target with
  | named name => exact raises_pure name
  | reference r => exact dereference_works r

variable [VariableStore σ]

/-- In every mode an action is refused for reasons of the work only. -/
theorem perform_works (a : Action) : Works (perform cfg mode a : WorkM σ Unit) :=
  perform_raises_of (Q := fun _ => True) (fun _ => rfl) (fun _ _ => rfl) (fun _ => rfl)
    (fun _ _ => rfl) (accessLocal_raises (fun _ => rfl) cfg)
    (fun _ target _ => targetName_works target) fun reference _ => dereference_works reference

theorem performAll_works (actions : List Action) :
    Works (performAll cfg mode actions : WorkM σ Unit) := by
  induction actions with
  | nil => exact raises_pure ()
  | cons a actions ih => exact (perform_works a).bind fun _ => ih

/-- A script is refused in its work, or for its own fault. -/
theorem interpret_error {script : Script} {w w' : Workspace σ} {r : Refusal}
    (h : interpret cfg mode script w = .error r w') :
    r.isOfWork = true ∨ ∃ f, script.fault = some f ∧ r = f.refusal := by
  have hworks : Works (performAll cfg mode script.actions : WorkM σ Unit) := performAll_works _
  have hall := hworks w trivial
  rw [interpret, bind_apply] at h
  cases hperform : performAll cfg mode script.actions w with
  | error r' v =>
    rw [hperform] at h hall
    cases h
    exact .inl hall
  | ok u v =>
    rw [hperform] at h
    cases hfault : script.fault with
    | none =>
      rw [hfault] at h
      cases h
    | some f =>
      rw [hfault] at h
      cases h
      exact .inr ⟨f, rfl, rfl⟩

/-- No mode gives up on an equation because of its nesting. -/
theorem interpret_ne_tooDeep {source : String} {w w' : Workspace σ} {r : Refusal}
    (h : interpret cfg mode (.ofText cfg.dialect source) w = .error r w') : r ≠ .text .tooDeep := by
  rintro rfl
  obtain hwork | ⟨f, hfault, hrefusal⟩ := interpret_error h
  · cases hwork
  · apply Script.fault_ofText cfg.dialect source
    cases f with
    | arity function expected got => cases hrefusal
    | text fault =>
      obtain rfl := Refusal.text.inj hrefusal
      exact hfault

end Works

/-! ## Every equation -/

/-- Reading ends on every text. A token takes a word off the front of the text, and where there is no
token, what is left is still an end of the text. The arguments of a call are shorter than the text of
the call. Operands are read from operands inside of them, in a well-founded order, so that no bound is
needed for their nesting, and the length of the text is one. No script ends for want of depth or fuel,
and neither does a compilation, an evaluation or a check of any equation. -/
theorem reading_terminates :
    (∀ cs t rest, Token.next cs = .token t rest → ∃ word, word ≠ [] ∧ cs = word ++ rest) ∧
    (∀ cs rest, Token.next cs = .stop rest → rest <:+ cs) ∧
    (∀ cs fuel, cs.length < fuel → Tokens.scan fuel cs = Tokens.ofText cs) ∧
    (∀ cs name args, Token.call name args ∈ (Tokens.ofText cs).tokens →
      ∀ text ∈ splitArguments args, text.length < cs.length) ∧
    WellFounded Inside ∧
    (∀ dialect : Dialect, ∃ o, dialect.Unbounded o) ∧
    (∀ dialect source, (Script.ofText dialect source).fault ≠ some (.text .tooDeep)) ∧
    ∀ (σ : Type) [VariableStore σ] (cfg : Setting) (scope : Option Scope) (source : String) (s : σ),
      (∀ e, (compile cfg scope source s).result = .error e → e.refusal ≠ .text .tooDeep) ∧
      (∀ e, (evaluate cfg scope source s).result = .error e → e.refusal ≠ .text .tooDeep) ∧
      ∀ strict e, (check cfg strict scope source s).result = .error e → e.refusal ≠ .text .tooDeep := by
  refine ⟨fun _ _ _ => Token.next_word, ?_, ?_, ?_, inside_wellFounded, ?_, Script.fault_ofText, ?_⟩
  · intro cs rest hstop
    rw [← next_stop hstop]
    exact List.dropWhile_suffix _
  · intro cs fuel hfuel
    exact scan_fuel hfuel (Nat.lt_succ_self _)
  · intro cs name args hcall text htext
    exact (length_argument_lt_weight hcall htext).trans_le (Tokens.weight_ofText cs)
  · exact fun dialect => ⟨dialect.operand, dialect.operand_unbounded⟩
  · intro σ _ cfg scope source s
    refine ⟨fun e he => ?_, fun e he => ?_, fun strict e he => ?_⟩
    · obtain ⟨w, hw, -⟩ := compile_error he
      exact interpret_ne_tooDeep hw
    · obtain ⟨w, hw⟩ | ⟨w, -, -, hempty⟩ := evaluate_error he
      · exact interpret_ne_tooDeep hw
      · rw [hempty]
        simp
    · obtain ⟨w, hw⟩ := check_error he
      exact interpret_ne_tooDeep hw

end SignalCalc
