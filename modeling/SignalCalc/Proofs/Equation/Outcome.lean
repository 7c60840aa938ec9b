import SignalCalc.Equation
import SignalCalc.Proofs.Equation.SinglePass

namespace SignalCalc

variable {σ : Type} [VariableStore σ]

theorem result_of_toOption {ε α β : Type} {x : Except ε α} {f : α → β} {b : β}
    (h : x.toOption.map f = some b) : ∃ a, x = .ok a ∧ f a = b := by
  cases x with
  | error e => cases h
  | ok a => exact ⟨a, rfl, Option.some.inj h⟩

section Outcome

variable {cfg : Setting} {scope : Option Scope} {source : String} {s : σ}

/-- A program is what the compiler had when it was through. -/
theorem compile_ok {p : Program} (h : (compile cfg scope source s).result = .ok p) :
    ∃ w, interpret cfg .compile (.ofText cfg.dialect source) (.start s scope) = .ok () w ∧
      (compile cfg scope source s).store = w.machine.store ∧
      p = { code := w.code, source := source, warnings := w.warnings, usesFrame := w.usesFrame,
            lockHeld := cfg.options.lockHeld } := by
  unfold compile at h ⊢
  rw [Parser.read_eq_interpret] at h ⊢
  cases hw : interpret cfg .compile (.ofText cfg.dialect source) (.start s scope) with
  | error r w =>
    rw [hw] at h
    cases h
  | ok u w =>
    rw [hw] at h
    cases h
    exact ⟨w, rfl, rfl, rfl⟩

/-- When the compiler refuses an equation, it gives back what the code so far holds. -/
theorem compile_error {error : EquationError}
    (h : (compile cfg scope source s).result = .error error) :
    ∃ w, interpret cfg .compile (.ofText cfg.dialect source) (.start s scope) =
        .error error.refusal w ∧
      (compile cfg scope source s).store =
        Program.detachAll (w.code.filterMap (·.binding?)) w.machine.store := by
  unfold compile at h ⊢
  rw [Parser.read_eq_interpret] at h ⊢
  cases hw : interpret cfg .compile (.ofText cfg.dialect source) (.start s scope) with
  | error r w =>
    rw [hw] at h
    cases h
    exact ⟨w, rfl, rfl⟩
  | ok u w =>
    rw [hw] at h
    cases h

theorem evaluate_ok {v : Evaluation} (h : (evaluate cfg scope source s).result = .ok v) :
    ∃ w, interpret cfg .direct (.ofText cfg.dialect source) (.start s scope) = .ok () w ∧
      w.machine.stack.bottom? = some v.value := by
  unfold evaluate at h
  rw [Parser.read_eq_interpret] at h
  dsimp only at h
  cases hw : interpret cfg .direct (.ofText cfg.dialect source) (.start s scope) with
  | error r w =>
    rw [hw] at h
    cases h
  | ok u w =>
    rw [hw] at h
    dsimp only at h
    cases hbottom : w.machine.stack.bottom? with
    | none =>
      rw [hbottom] at h
      cases h
    | some value =>
      rw [hbottom] at h
      cases h
      exact ⟨w, rfl, hbottom⟩

/-- An evaluation without a result was refused, or it went through and left nothing. -/
theorem evaluate_error {error : EquationError}
    (h : (evaluate cfg scope source s).result = .error error) :
    (∃ w, interpret cfg .direct (.ofText cfg.dialect source) (.start s scope) =
      .error error.refusal w) ∨
    ∃ w, interpret cfg .direct (.ofText cfg.dialect source) (.start s scope) = .ok () w ∧
      w.machine.stack.bottom? = none ∧ error.refusal = .run .noResult := by
  unfold evaluate at h
  rw [Parser.read_eq_interpret] at h
  dsimp only at h
  cases hw : interpret cfg .direct (.ofText cfg.dialect source) (.start s scope) with
  | error r w =>
    rw [hw] at h
    cases h
    exact .inl ⟨w, rfl⟩
  | ok u w =>
    rw [hw] at h
    dsimp only at h
    cases hbottom : w.machine.stack.bottom? with
    | some value =>
      rw [hbottom] at h
      cases h
    | none =>
      rw [hbottom] at h
      cases h
      exact .inr ⟨w, rfl, hbottom, rfl⟩

/-- An evaluation ends with the release of its attachments, whatever its result. -/
theorem evaluate_store :
    (evaluate cfg scope source s).store =
      match interpret cfg .direct (.ofText cfg.dialect source) (.start s scope) with
      | .ok _ w => releaseBindings cfg.options.missing w.bindings w.machine.store
      | .error _ w => releaseBindings cfg.options.missing w.bindings w.machine.store := by
  unfold evaluate
  rw [Parser.read_eq_interpret]
  dsimp only
  cases interpret cfg .direct (.ofText cfg.dialect source) (.start s scope) with
  | ok u w =>
    dsimp only
    split <;> rfl
  | error r w => rfl

theorem check_error {strict : Bool} {error : EquationError}
    (h : (check cfg strict scope source s).result = .error error) :
    ∃ w, interpret cfg (.check strict) (.ofText cfg.dialect source) (.start s scope) =
      .error error.refusal w := by
  unfold check at h
  rw [Parser.read_eq_interpret] at h
  cases hw : interpret cfg (.check strict) (.ofText cfg.dialect source) (.start s scope) with
  | error r w =>
    rw [hw] at h
    cases h
    exact ⟨w, rfl⟩
  | ok u w =>
    rw [hw] at h
    cases h

end Outcome

end SignalCalc
