import SignalCalc.Proofs.Equation.Outcome
import SignalCalc.Proofs.Store.Lending

/-! # Writes to missing variables

Under `StopOnWrite` a write never brings a variable into being, but a read does, and the policies
apply one access at a time, in the order in which the code is written. So the variable of a write
was there before, or the same program reads it first: `x += 1` may create `x`, `x = 1` may not.
-/

namespace SignalCalc

open MemoryStore

def ReadBy (code : List Instruction) (id : VarId) : Prop :=
  ∃ op : AccessOp, op.writes = false ∧ .access op id ∈ code

theorem ReadBy.append {code : List Instruction} {id : VarId} (h : ReadBy code id)
    (i : Instruction) : ReadBy (code ++ [i]) id := by
  obtain ⟨op, hop, hmem⟩ := h
  exact ⟨op, hop, List.mem_append_left [i] hmem⟩

/-- Whatever the code writes was in the store, or is read before it is written. -/
def Backed (s : MemoryStore) (code : List Instruction) : Prop :=
  ∀ before op id after, code = before ++ .access op id :: after → op.writes = true →
    (s.slot? id).isSome = true ∨ ReadBy before id

theorem Backed.append {s : MemoryStore} {code : List Instruction} (h : Backed s code)
    {i : Instruction} (hi : ∀ op id, i = .access op id → op.writes = true →
      (s.slot? id).isSome = true ∨ ReadBy code id) :
    Backed s (code ++ [i]) := by
  intro before op id after hcode hwrites
  -- the write is the new instruction, or it stands in the code as it was
  rcases List.eq_nil_or_concat after with rfl | ⟨front, last, rfl⟩
  · obtain ⟨rfl, hlast⟩ := List.append_inj' hcode rfl
    exact hi op id (List.singleton_inj.mp hlast) hwrites
  · rw [List.concat_eq_append, ← List.cons_append, ← List.append_assoc] at hcode
    obtain ⟨hfront, -⟩ := List.append_inj' hcode rfl
    exact h before op id front hfront hwrites

/-- Code under construction: the variables that there are now were there at the start or are read by
it, and so are those that it writes. -/
structure Announced (s : MemoryStore) (w : Workspace MemoryStore) : Prop where
  known : ∀ id, (w.machine.store.slot? id).isSome = true →
    (s.slot? id).isSome = true ∨ ReadBy w.code id
  backed : Backed s w.code

theorem Announced.start (s : MemoryStore) (scope : Option Scope) :
    Announced s (.start s scope) where
  known _ hid := .inl hid
  backed before op id after hcode _ := by
    cases before <;> cases hcode

section Announced

variable {cfg : Setting} {s : MemoryStore} {w w' : Workspace MemoryStore}

/-- An instruction that accesses no variable announces none. -/
theorem Announced.append (hw : Announced s w) {i : Instruction} (hi : i.binding? = none) :
    Announced s { w with code := w.code ++ [i] } where
  known id hid := (hw.known id hid).imp_right fun h => h.append i
  backed := by
    apply hw.backed.append
    intro op id heq
    rw [heq, Instruction.binding?_access] at hi
    cases hi

theorem slot?_attach_isSome (t : MemoryStore) (id x : VarId) :
    ((t.attach id).slot? x).isSome = (t.slot? x).isSome :=
  isSome_slot?_update t id x (keepsIdentity_attachments (· + 1))

/-- A known variable stays announced, whatever the access. -/
theorem Announced.attach (hw : Announced s w) (op : AccessOp) {name : String} {id : VarId}
    (hname : w.machine.store.lookup name = some id) (warnings : List String) :
    Announced s (w.bound op id (w.machine.store.attach id) warnings) where
  known x hx := by
    have hbefore : (w.machine.store.slot? x).isSome = true := by
      rw [← slot?_attach_isSome w.machine.store id x]
      exact hx
    exact (hw.known x hbefore).imp_right fun h => h.append _
  backed := by
    apply hw.backed.append
    intro op' id' heq _
    obtain ⟨slot, hmem, -, hid⟩ := mem_of_lookup hname
    have hslot : (w.machine.store.slot? id).isSome = true := by
      cases hnone : w.machine.store.slot? id with
      | some _ => rfl
      | none => exact absurd hid (slot?_eq_none_iff.mp hnone slot hmem)
    cases heq
    exact hw.known id hslot

/-- A variable that a read creates is announced by that read. -/
theorem Announced.create (hw : Announced s w) {op : AccessOp} (hop : op.writes = false)
    (name : String) (owner : Option Int32) (warnings : List String) :
    Announced s (w.bound op w.machine.store.freshId
      (w.machine.store.insert (newSlot name owner)) warnings) where
  known x hx := by
    change ((w.machine.store.insert (newSlot name owner)).slot? x).isSome = true at hx
    rw [slot?_insert, Option.isSome_or, Bool.or_eq_true] at hx
    by_cases hfresh : x = w.machine.store.freshId
    · exact .inr ⟨op, hop, by simp [Workspace.bound, hfresh]⟩
    · have hbefore : (w.machine.store.slot? x).isSome = true := by
        apply hx.resolve_right
        simp [newSlot, Ne.symm hfresh]
      exact (hw.known x hbefore).imp_right fun h => h.append _
  backed := by
    apply hw.backed.append
    intro op' id' heq hwrites
    cases heq
    rw [hop] at hwrites
    cases hwrites

theorem Announced.compiled (hmissing : cfg.options.missing = .stopOnWrite) (hw : Announced s w)
    {a : Action} (ha : a.Listed) (h : Compiled cfg w a w') : Announced s w' := by
  cases h with
  | push v => exact hw.append rfl
  | operate op => exact hw.append rfl
  | invoke i count usesFrame => exact hw.append (Called.binding? ha)
  | enumText hname htext => exact hw.append rfl
  | @access op name b t warnings hresolve _ =>
    rcases resolve_ok hresolve with ⟨id, hname, rfl, rfl⟩ | ⟨-, hpolicy, rfl, rfl⟩
    · exact hw.attach op hname warnings
    · -- only a read may create its variable
      have hop : op.writes = false := by
        cases hwrites : op.writes with
        | false => rfl
        | true => simp [AccessOp.policy, hwrites, hmissing, MissingVariables.writePolicy] at hpolicy
      exact hw.create hop name cfg.options.owner warnings
  | frame function => exact ⟨hw.known, hw.backed⟩
  | memory function => exact hw

end Announced

/-- What compiles under `StopOnWrite` writes only variables that the store had before, or that the
program reads earlier on. -/
theorem stopOnWrite_backed {cfg : Setting} (hmissing : cfg.options.missing = .stopOnWrite)
    (scope : Option Scope) (source : String) (s : MemoryStore) {p : Program}
    (hp : (compile cfg scope source s).result = .ok p) : Backed s p.code := by
  obtain ⟨w, hw, -, rfl⟩ := compile_ok hp
  have hend := interpret_compile (P := fun _ w => Announced s w) (Q := fun _ _ => True)
    (fun a rest w w' ha hw h => hw.compiled hmissing ha h) (fun _ _ _ _ _ _ _ => trivial)
    (fun _ _ _ => trivial) source (Announced.start s scope)
  rw [hw] at hend
  exact hend.1.backed

theorem stopOnWrite_backed_self :
    ∃ p, (compile { options := { missing := .stopOnWrite } } none "x=x"
        ({} : MemoryStore)).result = .ok p ∧
      p.bindings = [⟨1⟩, ⟨1⟩] ∧ Backed {} p.code := by
  have hcompile : ∃ p, (compile { options := { missing := .stopOnWrite } } none "x=x"
      ({} : MemoryStore)).result = .ok p ∧ p.bindings = [⟨1⟩, ⟨1⟩] := by
    rw [compile, Parser.read_eq_interpret]
    exact ⟨_, rfl, rfl⟩
  obtain ⟨p, hp, hbindings⟩ := hcompile
  exact ⟨p, hp, hbindings, stopOnWrite_backed rfl none "x=x" {} hp⟩

/-- The store alone does not back the writes: the right-hand side of an assignment is read first,
and that read creates the variable which is then written. -/
theorem stopOnWrite_creates_read_first :
    ¬ ∀ (source : String) (s : MemoryStore), Reachable s → ∀ p,
      (compile { options := { missing := .stopOnWrite } } none source s).result = .ok p →
      ∀ op id, op.writes = true → .access op id ∈ p.code → (s.slot? id).isSome = true := by
  intro h
  have hcompile : ∃ p, (compile { options := { missing := .stopOnWrite } } none "x=x"
      ({} : MemoryStore)).result = .ok p ∧ .access .write ⟨1⟩ ∈ p.code := by
    rw [compile, Parser.read_eq_interpret]
    exact ⟨_, rfl, .tail _ (.head _)⟩
  obtain ⟨p, hp, hwrite⟩ := hcompile
  have hslot := h "x=x" {} .empty p hp .write ⟨1⟩ rfl hwrite
  cases hslot

end SignalCalc
