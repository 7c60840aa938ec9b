import SignalCalc.Equation
import SignalCalc.Proofs.Machine.Mimicry

/-! # Independent programs

A program reaches a store through the variables that its code names: it sees no others, and of these
it changes the ones that it overwrites. A change of the store that does not reach them passes by a
run of the program, be it a single write or the whole run of another program. So two programs
neither of which overwrites what the other one names can run in either order.
-/

namespace SignalCalc

open MemoryStore

namespace Program

def overwrites (p : Program) (id : VarId) : Bool := p.code.any (·.overwrites id)

variable (plugins : Registry) (ctx : Context)

/-- A run leaves every variable alone that the program does not overwrite, also when it fails. -/
theorem run_other {p : Program} {id : VarId} (h : p.overwrites id = false) (s : MemoryStore) :
    (p.run plugins ctx s).store.slot? id = s.slot? id := by
  have hwritten := Machine.run_overwrites plugins ctx p.code ⟨.empty, s⟩
  exact Written.slot?_other hwritten (Bool.eq_false_iff.mp h)

/-! ## Changes that pass by -/

/-- A change of the store that the program cannot notice: it leaves the variables that the program
names as they look, and it can be put off until a write of the program is done. -/
def Misses (p : Program) (change : MemoryStore → MemoryStore) : Prop :=
  Likeness (· ∈ p.bindings) (p.overwrites · = true) fun s t => t = change s

/-- A change that a program cannot notice can be put off until a run is done. -/
theorem run_past {p : Program} {change : MemoryStore → MemoryStore} (h : p.Misses change)
    (s : MemoryStore) :
    (p.run plugins ctx (change s)).result = (p.run plugins ctx s).result ∧
      (p.run plugins ctx (change s)).program = (p.run plugins ctx s).program ∧
      (p.run plugins ctx (change s)).store = change (p.run plugins ctx s).store := by
  have hsees : ∀ i ∈ p.code, ∀ id, i.binding? = some id → id ∈ p.bindings :=
    fun i hi _ hid => List.mem_filterMap.mpr ⟨i, hi, hid⟩
  have hwrites : ∀ i ∈ p.code, ∀ id, i.overwrites id = true → p.overwrites id = true :=
    fun i hi _ hid => List.any_eq_true.mpr ⟨i, hi, hid⟩
  have hstart : Machine.Alike (fun s t => t = change s) ⟨.empty, s⟩ ⟨.empty, change s⟩ := ⟨rfl, rfl⟩
  obtain ⟨hstopped, hcode, hlast⟩ := Machine.run_shared h plugins ctx hsees hwrites hstart
  simp only [run, hstopped, hcode, hlast.stack, hlast.store, and_self]

theorem misses_put {p : Program} {id : VarId} (h : id ∉ p.bindings) (value : Value) :
    p.Misses (·.update id (·.put value)) where
  sight := by
    rintro s _ x rfl hx
    have hne : x ≠ id := fun heq => h (heq ▸ hx)
    rw [sight_put, if_neg hne]
  put := by
    rintro s _ x other rfl hx
    have hne : x ≠ id := fun heq => h (heq ▸ Instruction.mem_bindings_of_overwrites hx)
    exact (update_comm s hne (keepsIdentity_put other) (keepsIdentity_put value)).symm

end Program

/-! ## Two programs -/

/-- Neither program overwrites a variable that the other one names. -/
def Independent (p q : Program) : Prop :=
  (∀ id ∈ q.bindings, p.overwrites id = false) ∧ ∀ id ∈ p.bindings, q.overwrites id = false

instance (p q : Program) : Decidable (Independent p q) :=
  inferInstanceAs (Decidable ((∀ id ∈ q.bindings, p.overwrites id = false) ∧
    ∀ id ∈ p.bindings, q.overwrites id = false))

theorem Independent.symm {p q : Program} (h : Independent p q) : Independent q p := ⟨h.2, h.1⟩

/-- A whole run of the one program is a change that the other one cannot notice. -/
theorem Independent.misses_run {p q : Program} (h : Independent p q) (plugins : Registry)
    (ctx : Context) : p.Misses fun s => (q.run plugins ctx s).store where
  sight := by
    rintro s _ x rfl hx
    simp only [MemoryStore.sight, q.run_other plugins ctx (h.2 x hx) s]
  put := by
    rintro s _ x value rfl hx
    -- the write of `p` is in turn a change that a run of `q` cannot notice
    have hunnamed : x ∉ q.bindings := fun hq => by simp [h.1 x hq] at hx
    exact ((q.run_past plugins ctx (Program.misses_put hunnamed value)) s).2.2.symm

/-- Runs of independent programs can be exchanged. In both orders each program has the same result
and is left with the same edge memories, and the store ends up the same, even if a run fails
halfway. -/
theorem independent_runs_commute (plugins : Registry) {p q : Program} (h : Independent p q)
    (ctx ctx' : Context) (s : MemoryStore) :
    let pFirst := p.run plugins ctx s
    let qSecond := q.run plugins ctx' pFirst.store
    let qFirst := q.run plugins ctx' s
    let pSecond := p.run plugins ctx qFirst.store
    pSecond.result = pFirst.result ∧ qSecond.result = qFirst.result ∧
      qSecond.store = pSecond.store ∧
      pSecond.program = pFirst.program ∧ qSecond.program = qFirst.program := by
  intro pFirst qSecond qFirst pSecond
  obtain ⟨hpResult, hpProgram, hstore⟩ := p.run_past plugins ctx (h.misses_run plugins ctx') s
  obtain ⟨hqResult, hqProgram, -⟩ := q.run_past plugins ctx' (h.symm.misses_run plugins ctx) s
  exact ⟨hpResult, hqResult, hstore.symm, hpProgram, hqProgram⟩

/-- Two edge detectors on one variable. The second program writes its answer and then fails for want
of a frame. -/
theorem edge_detectors_commute :
    let cfg : Setting := { options := { frameFunctions := true } }
    let first := compile cfg none "y=has_changed(x)" ({} : MemoryStore)
    let second := compile cfg none "(z=slope_up(x))+can_size()" first.store
    ∃ p q, first.result = .ok p ∧ second.result = .ok q ∧ Independent p q ∧
      (q.execute .empty second.store).result = .error (.missingFrame .size) ∧
      (q.execute .empty (p.execute .empty second.store).store).result =
        (q.execute .empty second.store).result ∧
      (q.execute .empty (p.execute .empty second.store).store).store =
        (p.execute .empty (q.execute .empty second.store).store).store := by
  intro cfg first second
  have hcheck : (match first.result, second.result with
      | .ok p, .ok q => decide (Independent p q) &&
        match (q.execute .empty second.store).result with
        | .error (.missingFrame .size) => true
        | _ => false
      | _, _ => false) = true := by decide +kernel
  split at hcheck
  · next p q hp hq =>
    rw [Bool.and_eq_true, decide_eq_true_eq] at hcheck
    obtain ⟨hindependent, hfails⟩ := hcheck
    have hstops : (q.execute .empty second.store).result = .error (.missingFrame .size) := by
      split at hfails
      · assumption
      · cases hfails
    obtain ⟨-, hresult, hstore, -⟩ :=
      independent_runs_commute .empty hindependent p.context q.context second.store
    exact ⟨p, q, hp, hq, hindependent, hstops, hresult, hstore⟩
  · cases hcheck

end SignalCalc
