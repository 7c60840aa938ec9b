import SignalCalc.Proofs.Equation.Loans
import SignalCalc.Proofs.Store.Identity
import SignalCalc.Proofs.Value.Range

/-! # Stored values conform to their types

A value comes to a slot by declaring the variable, by creating it under its name, or by a write, and
each of these takes the value to the type of the slot. So in every state that requests, equations
and programs can bring about, a variable reads as a value of its type. What is not in the store
reads as a value of the type that it is said to have.
-/

namespace SignalCalc.MemoryStore

/-- Every slot holds a value of its type. -/
def Conforming (s : MemoryStore) : Prop := ∀ slot ∈ s.slots, slot.dataType.Holds slot.value

variable {s : MemoryStore}

theorem Conforming.update (h : s.Conforming) (id : VarId) {f : Slot → Slot}
    (hf : ∀ slot, slot.dataType.Holds slot.value → (f slot).dataType.Holds (f slot).value) :
    (s.update id f).Conforming := by
  intro slot hmem
  obtain ⟨old, hold, rfl⟩ := mem_update.mp hmem
  split
  · exact hf old (h old hold)
  · exact h old hold

theorem Conforming.insert (h : s.Conforming) {new : VarId → Slot}
    (hnew : (new s.freshId).dataType.Holds (new s.freshId).value) : (s.insert new).Conforming := by
  intro slot hmem
  rcases List.mem_append.mp hmem with hold | hlast
  · exact h slot hold
  · rw [List.mem_singleton.mp hlast]
    exact hnew

theorem Conforming.put (h : s.Conforming) (id : VarId) (value : Value) :
    (s.update id (·.put value)).Conforming :=
  h.update id fun slot _ => slot.dataType.holds_coerce value

theorem Conforming.updateNamed (h : s.Conforming) (name : String) {f : Slot → Slot}
    (hf : ∀ slot, slot.dataType.Holds slot.value → (f slot).dataType.Holds (f slot).value) :
    (s.updateNamed name f).2.Conforming := by
  unfold MemoryStore.updateNamed
  split
  · exact h.update _ hf
  · exact h

theorem Conforming.define (h : s.Conforming) (name : String) (type : DataType) (value : Value) :
    (s.define name type value).2.Conforming := by
  rcases define_cases s name type value with ⟨id, -, hdefine⟩ | ⟨-, hdefine⟩
  · rw [hdefine]
    exact h.update id fun _ _ => type.holds_coerce value
  · rw [hdefine]
    exact h.insert (type.holds_coerce value)

theorem Conforming.detach (h : s.Conforming) (id : VarId) : (s.detach id).Conforming := by
  unfold MemoryStore.detach
  split
  · split
    · intro slot hmem
      exact h slot (List.mem_filter.mp hmem).1
    · exact h.update id fun _ hslot => hslot
  · exact h

theorem Reachable.conforming (h : Reachable s) : s.Conforming := by
  induction h with
  | empty => simp [Conforming]
  | define name type value _ ih => exact ih.define name type value
  | setConversion name c _ ih => exact ih.updateNamed name fun _ hslot => hslot
  | addEnum name text value _ ih => exact ih.updateNamed name fun _ hslot => hslot
  | resolve _ hr ih =>
    rcases resolve_ok hr with ⟨id, -, -, rfl⟩ | ⟨-, -, -, rfl⟩
    · exact ih.update id fun _ hslot => hslot
    · -- a variable that is created holds the double 0
      exact ih.insert ⟨rfl, _, rfl⟩
  | write _ hw ih =>
    rw [(write_ok hw).2]
    exact ih.put _ _
  | writePhysical _ hw ih =>
    obtain ⟨raw, rfl⟩ := writePhysical_ok hw
    exact ih.put _ raw
  | attach id _ ih => exact ih.update id fun _ hslot => hslot
  | detach id _ ih => exact ih.detach id
  | setProcess | attachEquation | detachEquation => assumption

theorem Conforming.read (h : s.Conforming) (id : VarId) : (s.dataType id).Holds (s.read id) := by
  unfold MemoryStore.dataType MemoryStore.read
  cases hslot : s.slot? id with
  | some slot => exact h slot (mem_of_slot? hslot).1
  | none => exact ⟨rfl, _, rfl⟩

/-! ## Events -/

/-- What happens to a store: a request of the host, or work on an equation or with a program. -/
inductive Event where
  | request (r : Request)
  | compile (cfg : Setting) (scope : Option Scope) (source : String)
  | evaluate (cfg : Setting) (scope : Option Scope) (source : String)
  | run (plugins : Registry) (ctx : Context) (p : Program)

def happen (s : MemoryStore) : Event → MemoryStore
  | .request r => s.serve r
  | .compile cfg scope source => (SignalCalc.compile cfg scope source s).store
  | .evaluate cfg scope source => (SignalCalc.evaluate cfg scope source s).store
  | .run plugins ctx p => (p.run plugins ctx s).store

theorem Reachable.happen (h : Reachable s) (e : Event) : Reachable (s.happen e) := by
  cases e with
  | request r => exact h.serve r
  | compile cfg scope source => exact (compile_lends h cfg scope source).1
  | evaluate cfg scope source => exact (evaluate_lends h cfg scope source).1
  | run plugins ctx p =>
    exact Written.reachable (Machine.run_written plugins ctx p.code ⟨.empty, s⟩) h

theorem Reachable.happenAll (h : Reachable s) (events : List Event) :
    Reachable (events.foldl MemoryStore.happen s) := by
  induction events generalizing s with
  | nil => exact h
  | cons e events ih => exact ih (h.happen e)

/-- After any events on an empty store, whatever is requested, compiled, evaluated or run, with
values of every kind: every number, in use or not, reads as a value of its type. -/
theorem stored_values_conform (events : List Event) (id : VarId) :
    let s := events.foldl happen {}
    (s.dataType id).Holds (s.read id) :=
  (Reachable.happenAll .empty events).conforming.read id

end SignalCalc.MemoryStore
