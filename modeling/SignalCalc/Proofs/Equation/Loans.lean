import SignalCalc.Proofs.Equation.Footprint
import SignalCalc.Proofs.Store.Lending

namespace SignalCalc

open MemoryStore WorkM

namespace MemoryStore

/-! ## Reachability -/

theorem Reachable.detachAll {s : MemoryStore} (hs : Reachable s) (ids : List VarId) :
    Reachable (Program.detachAll ids s) := by
  induction ids generalizing s with
  | nil => exact hs
  | cons id ids ih => exact ih (hs.detach id)

theorem Reachable.attachAll {s : MemoryStore} (hs : Reachable s) (ids : List VarId) :
    Reachable (Program.attachAll ids s) := by
  induction ids generalizing s with
  | nil => exact hs
  | cons id ids ih => exact ih (hs.attach id)

theorem Reachable.unregister {s : MemoryStore} (hs : Reachable s) (n : UInt64) :
    Reachable (Program.unregister n s) := by
  unfold Program.unregister
  split
  · exact hs
  · exact hs.detachEquation n

theorem Reachable.release {s : MemoryStore} (hs : Reachable s) (p : Program) :
    Reachable (p.release s) :=
  (hs.detachAll p.bindings).unregister p.registration

end MemoryStore

/-! ## Compiling -/

def codeHolds (code : List Instruction) (id : VarId) : Nat := (code.filterMap (·.binding?)).count id

theorem codeHolds_append_none {code : List Instruction} {i : Instruction}
    (hi : i.binding? = none) : codeHolds (code ++ [i]) = codeHolds code := by
  funext id
  simp [codeHolds, List.filterMap_append, hi]

theorem codeHolds_append_access (code : List Instruction) (op : AccessOp) (id : VarId) :
    codeHolds (code ++ [.access op id]) = bump (codeHolds code) id := by
  funext x
  simp only [codeHolds, bump, List.filterMap_append, List.filterMap_cons, List.filterMap_nil,
    Instruction.binding?_access, List.count_append, List.count_singleton, beq_iff_eq, @eq_comm _ id x]

/-- A program under construction holds one attachment for each of its accesses, and nothing else
has changed. -/
structure Draft (owner : Option Int32) (s : MemoryStore) (w : Workspace MemoryStore) : Prop where
  reachable : Reachable w.machine.store
  lends : Lends Eq owner (codeHolds w.code) s w.machine.store

theorem Draft.start {s : MemoryStore} (hs : Reachable s) (owner : Option Int32)
    (scope : Option Scope) : Draft owner s (.start s scope) :=
  ⟨hs, (Lends.refl (fun _ => rfl) owner s).congr fun _ => rfl⟩

section Draft

variable {cfg : Setting} {s : MemoryStore} {w w' : Workspace MemoryStore}

theorem Draft.resolve (hw : Draft cfg.options.owner s w) {op : AccessOp} {name : String}
    {b : Binding} {t : MemoryStore} (warnings : List String)
    (hresolve : op.resolves cfg name w.machine.store = .ok b t) :
    Draft cfg.options.owner s (w.bound op b.id t warnings) where
  reachable := hw.reachable.resolve hresolve
  lends := by
    have hlends := hw.lends.resolve hw.reachable.wellFormed hresolve
    rw [← codeHolds_append_access w.code op b.id] at hlends
    exact hlends

/-- Every action that goes through keeps the account. -/
theorem Draft.compiled (hw : Draft cfg.options.owner s w) {a : Action} (ha : a.Listed)
    (h : Compiled cfg w a w') : Draft cfg.options.owner s w' := by
  have happend : ∀ i : Instruction, i.binding? = none →
      Draft cfg.options.owner s { w with code := w.code ++ [i] } := fun i hi =>
    ⟨hw.reachable, by rw [codeHolds_append_none hi]; exact hw.lends⟩
  cases h with
  | push v => exact happend _ rfl
  | operate op => exact happend _ rfl
  | invoke i count usesFrame => exact happend i (Called.binding? ha)
  | enumText hname htext => exact happend _ rfl
  | access warnings hresolve _ => exact hw.resolve warnings hresolve
  | frame function => exact ⟨hw.reachable, hw.lends⟩
  | memory function => exact hw

/-- So does every action that is refused, also if it had its attachment already. -/
theorem Draft.refused (hw : Draft cfg.options.owner s w) {a : Action} {r : Refusal}
    (h : Refused cfg w a r w') : Draft cfg.options.owner s w' := by
  cases h with
  | unresolved hresolve =>
    obtain ⟨-, -, rfl⟩ := resolve_error hresolve
    exact ⟨hw.reachable, hw.lends⟩
  | unconverted warnings hresolve _ _ => exact hw.resolve warnings hresolve
  | dereference | follow | enumName | enumText | frame | immediate => exact hw

end Draft

/-- A compiled program holds one attachment for each of its accesses. A refused equation holds
nothing. -/
theorem compile_lends {s : MemoryStore} (hs : Reachable s) (cfg : Setting) (scope : Option Scope)
    (source : String) :
    Reachable (compile cfg scope source s).store ∧
      match (compile cfg scope source s).result with
      | .ok p =>
        p.registration = 0 ∧
          Lends Eq cfg.options.owner (fun id => p.bindings.count id) s
            (compile cfg scope source s).store
      | .error _ =>
        Lends Eq cfg.options.owner (fun _ => 0) s (compile cfg scope source s).store := by
  have hdraft := interpret_compile
    (P := fun _ w => Draft cfg.options.owner s w) (Q := fun _ w => Draft cfg.options.owner s w)
    (fun _ _ _ _ ha hw h => hw.compiled ha h) (fun _ _ _ _ _ hw h => hw.refused h)
    (fun _ _ hw => hw) source (.start hs cfg.options.owner scope)
  cases hresult : (compile cfg scope source s).result with
  | ok p =>
    obtain ⟨w, hw, hstore, rfl⟩ := compile_ok hresult
    rw [hw] at hdraft
    rw [hstore]
    exact ⟨hdraft.1.reachable, rfl, hdraft.1.lends⟩
  | error e =>
    obtain ⟨w, hw, hstore⟩ := compile_error hresult
    rw [hw] at hdraft
    rw [hstore]
    refine ⟨hdraft.reachable.detachAll _, ?_⟩
    have hlends : Lends Eq cfg.options.owner
        (fun id => (w.code.filterMap (·.binding?)).count id + 0) s w.machine.store := hdraft.lends
    exact hlends.detachAll hs.wellFormed hdraft.reachable.wellFormed

theorem Program.release_unregistered {p : Program} (hp : p.registration = 0) (s : MemoryStore) :
    p.release s = Program.detachAll p.bindings s := by
  unfold Program.release Program.unregister
  rw [if_pos hp]

/-- The store once nothing of a compiled equation is left: it was refused, or its program is
released without having run. -/
def compileAndRelease (cfg : Setting) (scope : Option Scope) (source : String) (s : MemoryStore) :
    MemoryStore :=
  let outcome := compile cfg scope source s
  match outcome.result with
  | .ok p => p.release outcome.store
  | .error _ => outcome.store

/-- The attachments that an evaluation has taken are on loan to it, and what it has created bears new
numbers, each its own. -/
structure Loan (owner : Option Int32) (s : MemoryStore) (bindings : List Binding)
    (t : MemoryStore) : Prop where
  reachable : Reachable t
  lends : Lends (fun _ _ => True) owner (fun id => (bindings.map (·.id)).count id) s t
  fresh : ∀ b ∈ bindings, b.created = true → s.lastId < b.id.val ∧ b.id.val ≤ t.lastId
  nodup : ((bindings.filter (·.created)).map (·.id)).Nodup

theorem Loan.start {s : MemoryStore} (hs : Reachable s) (owner : Option Int32) :
    Loan owner s [] s :=
  ⟨hs, (Lends.refl (fun _ => trivial) owner s).congr fun _ => rfl, by simp, by simp⟩

theorem Loan.written {owner : Option Int32} {s t t' : MemoryStore} {bindings : List Binding}
    {ids : VarId → Prop} (h : Loan owner s bindings t) (hw : Written ids t t') :
    Loan owner s bindings t' where
  reachable := hw.reachable h.reachable
  lends := by
    induction hw with
    | refl => exact h.lends
    | write _ _ hw ih =>
      rw [(write_ok hw).2]
      exact ih.put _ _
  fresh := by
    rw [hw.lastId]
    exact h.fresh
  nodup := h.nodup

theorem Loan.resolve {owner : Option Int32} {s t t' : MemoryStore} {bindings : List Binding}
    (h : Loan owner s bindings t) {name : String} {policy : ExistPolicy} {b : Binding}
    (hr : MemoryStore.resolve name policy owner t = .ok b t') :
    Loan owner s (bindings ++ [b]) t' where
  reachable := h.reachable.resolve hr
  lends := by
    refine (h.lends.resolve h.reachable.wellFormed hr).congr fun id => ?_
    simp [bump, List.count_singleton, @eq_comm _ id]
  fresh := by
    intro b' hb' hcreated
    rcases List.mem_append.mp hb' with hold | hnew
    · obtain ⟨hlt, hle⟩ := h.fresh b' hold hcreated
      rcases resolve_ok hr with ⟨id, -, -, rfl⟩ | ⟨-, -, -, rfl⟩
      · exact ⟨hlt, hle⟩
      · exact ⟨hlt, Nat.le_succ_of_le hle⟩
    · rw [List.mem_singleton.mp hnew] at hcreated ⊢
      rcases resolve_ok hr with ⟨id, -, rfl, -⟩ | ⟨-, -, rfl, rfl⟩
      · cases hcreated
      · exact ⟨Nat.lt_succ_of_le h.lends.lastId_le, Nat.le_refl _⟩
  nodup := by
    rcases resolve_ok hr with ⟨id, -, rfl, -⟩ | ⟨-, -, rfl, -⟩
    · simpa [List.filter_append] using h.nodup
    · simp only [List.filter_append, List.filter_cons, if_true, List.filter_nil, List.map_append,
        List.map_cons, List.map_nil]
      -- the new number lies above all that were handed out
      refine List.nodup_append.mpr ⟨h.nodup, by simp, ?_⟩
      intro id hid id' hid' heq
      obtain ⟨b', hb', rfl⟩ := List.mem_map.mp hid
      obtain ⟨hmem, hcreated⟩ := List.mem_filter.mp hb'
      have hle := (h.fresh b' hmem hcreated).2
      rw [heq, List.mem_singleton.mp hid'] at hle
      exact absurd hle (Nat.not_succ_le_self _)

/-- Work that keeps the account of an evaluation. -/
def Lent (owner : Option Int32) (s : MemoryStore) (w w' : Workspace MemoryStore) : Prop :=
  Loan owner s w.bindings w.machine.store → Loan owner s w'.bindings w'.machine.store

theorem Lent.trans {owner : Option Int32} {s : MemoryStore} {w₁ w₂ w₃ : Workspace MemoryStore}
    (h : Lent owner s w₁ w₂) (h' : Lent owner s w₂ w₃) : Lent owner s w₁ w₃ := fun hw => h' (h hw)

theorem Moved.lent {cfg : Setting} {a : Action} {s : MemoryStore} {w w' : Workspace MemoryStore}
    (h : Moved cfg a w w') : Lent cfg.options.owner s w w' := by
  intro hw
  cases h with
  | untouched h =>
    rw [h.store, h.bindings]
    exact hw
  | written h => exact hw.written h
  | assigned hscope h => exact hw
  | resolved ha hop h => exact hw.resolve h

/-- The variables that an evaluation keeps: those that it created, or none if it removes them. -/
def keptBindings (missing : MissingVariables) (bindings : List Binding) : List VarId :=
  (bindings.filter fun b => b.created && !missing.removesCreated).map (·.id)

/-- At the end of an evaluation, what it keeps is on loan, and nothing else. -/
theorem Loan.released {owner : Option Int32} {s t : MemoryStore} {bindings : List Binding}
    (h : Loan owner s bindings t) (hs : s.WellFormed) (missing : MissingVariables) :
    Lends (fun _ _ => True) owner (fun id => (keptBindings missing bindings).count id) s
      (releaseBindings missing bindings t) := by
  unfold releaseBindings
  refine Lends.detachAll (h.lends.congr fun id => ?_) hs h.reachable.wellFormed
  have hsplit := ((bindings.filter_append_perm fun b => !b.created || missing.removesCreated).map
    (·.id)).count_eq id
  rw [List.map_append, List.count_append] at hsplit
  rw [← hsplit]
  simp only [keptBindings, Bool.not_or, Bool.not_not]

theorem keptBindings_eq_nil {missing : MissingVariables} (h : missing.removesCreated = true)
    (bindings : List Binding) : keptBindings missing bindings = [] := by
  simp [keptBindings, h]

theorem keptBindings_nodup {bindings : List Binding}
    (h : ((bindings.filter (·.created)).map (·.id)).Nodup) (missing : MissingVariables) :
    (keptBindings missing bindings).Nodup := by
  cases hremoves : missing.removesCreated with
  | true =>
    rw [keptBindings_eq_nil hremoves]
    exact List.nodup_nil
  | false => simpa [keptBindings, hremoves] using h

/-- What an evaluation leaves on loan are variables that it created, once each; there are none if it
removes what it created. -/
theorem evaluate_lends {s : MemoryStore} (hs : Reachable s) (cfg : Setting) (scope : Option Scope)
    (source : String) :
    Reachable (evaluate cfg scope source s).store ∧
      ∃ created : List VarId, created.Nodup ∧ (∀ id ∈ created, s.lastId < id.val) ∧
        (cfg.options.missing.removesCreated = true → created = []) ∧
        Lends (fun _ _ => True) cfg.options.owner (fun id => created.count id) s
          (evaluate cfg scope source s).store := by
  have hlent := interpret_keeps (R := Lent cfg.options.owner s) (fun _ hw => hw)
    (fun _ _ _ => Lent.trans)
    (fun a ha => perform_direct_rule (fun _ _ _ => Lent.trans) (fun _ _ => Moved.lent)
      ((Script.ofText_disciplined cfg.dialect source).listed a ha))
    (.start s scope)
  -- whether it ends well or not, the same release is at the end
  have hfinish : ∀ {bindings : List Binding} {t : MemoryStore},
      Loan cfg.options.owner s bindings t →
      Reachable (releaseBindings cfg.options.missing bindings t) ∧
        ∃ created : List VarId, created.Nodup ∧ (∀ id ∈ created, s.lastId < id.val) ∧
          (cfg.options.missing.removesCreated = true → created = []) ∧
          Lends (fun _ _ => True) cfg.options.owner (fun id => created.count id) s
            (releaseBindings cfg.options.missing bindings t) := by
    intro bindings t hloan
    refine ⟨hloan.reachable.detachAll _, keptBindings cfg.options.missing bindings,
      keptBindings_nodup hloan.nodup _, ?_, fun h => keptBindings_eq_nil h bindings,
      hloan.released hs.wellFormed _⟩
    intro id hid
    obtain ⟨b, hb, rfl⟩ := List.mem_map.mp hid
    obtain ⟨hmem, hkept⟩ := List.mem_filter.mp hb
    exact (hloan.fresh b hmem (Bool.and_eq_true_iff.mp hkept).1).1
  rw [evaluate_store]
  split at hlent
  · next h =>
    rw [h]
    exact hfinish (hlent (.start hs _))
  · next h =>
    rw [h]
    exact hfinish (hlent (.start hs _))

end SignalCalc
