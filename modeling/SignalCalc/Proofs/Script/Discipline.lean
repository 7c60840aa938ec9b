import SignalCalc.Proofs.Script.Walk

/-! # Discipline of scripts

What reading an equation lists is never just any list of actions. Every production of the grammar
that is read to its end leaves one more entry on the stack than it found and takes none that it did
not put there; a production that ends in a fault has not taken any either. Functions are called with
as many arguments as their operations take. What needs an answer at once stands behind the demand
for it.
-/

namespace SignalCalc

/-! ## Pieces of a script -/

/-- A piece of a script that takes the stack from a height of `n` entries to one of `m`, whatever
lies below them. Questions and comparisons are guarded in it, unless the whole of it stands behind
a demand (`g`). -/
structure Segment (g : Bool) (n m : Nat) (actions : List Action) : Prop where
  listed : ∀ a ∈ actions, a.Listed
  guarded : g = true ∨ Guarded actions
  depth : depthAfter n (actions.map (·.use)) = some m

def Fragment (g : Bool) (n : Nat) (actions : List Action) : Prop := ∃ m, Segment g n m actions

variable {g : Bool}

theorem Segment.nil (n : Nat) : Segment g n n [] := ⟨by simp, .inr trivial, rfl⟩

theorem Segment.append {n k m : Nat} {first second : List Action} (h₁ : Segment g n k first)
    (h₂ : Segment g k m second) : Segment g n m (first ++ second) where
  listed a ha := by
    rcases List.mem_append.mp ha with ha | ha
    · exact h₁.listed a ha
    · exact h₂.listed a ha
  guarded := by
    rcases h₁.guarded with hg | hfirst
    · exact .inl hg
    · exact h₂.guarded.imp_right hfirst.append
  depth := by
    rw [List.map_append, depthAfter_append, h₁.depth]
    exact h₂.depth

theorem Segment.raise {n m : Nat} {actions : List Action} (h : Segment g n m actions) (k : Nat) :
    Segment g (n + k) (m + k) actions :=
  ⟨h.listed, h.guarded, depthAfter_add n k _ h.depth⟩

theorem Segment.single {a : Action} (hlisted : a.Listed) (hguarded : g = true ∨ Guarded [a]) :
    Segment g a.use.takes a.use.gives [a] where
  listed b hb := by
    rw [List.mem_singleton.mp hb]
    exact hlisted
  guarded := hguarded
  depth := by simp [depthAfter]

/-- Behind a demand for an immediate answer anything may stand. -/
theorem Segment.ask {n m : Nat} {a : Action} (ha : a.Asks) {actions : List Action}
    (h : Segment (g || a.guards) n m actions) : Segment g n m (a :: actions) where
  listed b hb := by
    rcases List.mem_cons.mp hb with rfl | hb
    · cases ha <;> trivial
    · exact h.listed b hb
  guarded := by
    cases ha with
    | immediate function => exact .inr trivial
    | follow r =>
      have hguarded := h.guarded
      rwa [show (Action.follow r).guards = false from rfl, Bool.or_false] at hguarded
  depth := by cases ha <;> simpa [depthAfter, Action.use] using h.depth

/-! ## Pieces of the descent -/

section Pieces

open Reading

variable {α β : Type} {n m : Nat} {ts : Tokens}

/-- On these tokens reading takes the stack from a height of `n` entries to one of `m` when it goes
through, and ends somewhere in between when it does not. -/
def MovesAt (g : Bool) (n m : Nat) (ts : Tokens) (r : Reading α) : Prop :=
  match (r ts).result with
  | .ok _ => Segment g n m (r ts).actions
  | .error _ => Fragment g n (r ts).actions

theorem movesAt_segment {r : Reading α} (h : Segment g n m (r ts).actions) :
    MovesAt g n m ts r := by
  unfold MovesAt
  split
  · exact h
  · exact ⟨m, h⟩

theorem movesAt_silent {r : Reading α} (h : (r ts).actions = []) (n : Nat) :
    MovesAt g n n ts r := by
  apply movesAt_segment
  rw [h]
  exact .nil n

/-- A fault can stand for anything. -/
theorem movesAt_refuse (f : SourceFault) : MovesAt g n m ts (refuse f : Reading α) := ⟨n, .nil n⟩

theorem MovesAt.raise {r : Reading α} (h : MovesAt g n m ts r) (k : Nat) :
    MovesAt g (n + k) (m + k) ts r := by
  unfold MovesAt at h ⊢
  split at h
  · exact h.raise k
  · obtain ⟨l, h⟩ := h
    exact ⟨l + k, h.raise k⟩

theorem MovesAt.bind {k : Nat} {r : Reading α} {next : α → Reading β} (hr : MovesAt g n k ts r)
    (hnext : ∀ a us, MovesAt g k m us (next a)) : MovesAt g n m ts (r >>= next) := by
  unfold MovesAt at hr ⊢
  simp only [Bind.bind, andThen]
  cases hresult : (r ts).result with
  | error e =>
    rw [hresult] at hr
    exact hr
  | ok pair =>
    obtain ⟨a, rest⟩ := pair
    rw [hresult] at hr
    have hsecond := hnext a rest
    unfold MovesAt at hsecond
    dsimp only
    split at hsecond
    · exact hr.append hsecond
    · obtain ⟨l, hsecond⟩ := hsecond
      exact ⟨l, hr.append hsecond⟩

theorem MovesAt.ask {a : Action} (ha : a.Asks) {next : Reading α}
    (h : MovesAt (g || a.guards) n m ts next) :
    MovesAt g n m ts (Reading.emit a >>= fun _ => next) := by
  unfold MovesAt at h ⊢
  simp only [Bind.bind, andThen, Reading.emit, List.singleton_append]
  split at h
  · exact h.ask ha
  · obtain ⟨l, h⟩ := h
    exact ⟨l, h.ask ha⟩

theorem movesAt_look {r : Reading α} {a : α} {next : α → Reading β} (hr : r ts = ⟨[], .ok (a, ts)⟩)
    (h : MovesAt g n m ts (next a)) : MovesAt g n m ts (r >>= next) := by
  have hboth : (r >>= next) ts = next a ts := by simp [Bind.bind, andThen, hr]
  unfold MovesAt at h ⊢
  rwa [hboth]

theorem movesAt_advance (n : Nat) : MovesAt g n n ts advance :=
  movesAt_silent (by unfold advance settle; split <;> rfl) n

theorem MovesAt.within {r : Reading Unit} {text : List Char}
    (h : MovesAt g n m (Tokens.ofText text) r) : MovesAt g n m ts (within text r) := by
  unfold MovesAt at h ⊢
  unfold Reading.within
  dsimp only
  cases hresult : (r (Tokens.ofText text)).result with
  | error e =>
    rw [hresult] at h
    exact h
  | ok pair =>
    rw [hresult] at h
    exact h

theorem movesAt_emit {a : Action} (hlisted : a.Listed) (hguarded : g = true ∨ Guarded [a]) :
    MovesAt g a.use.takes a.use.gives ts (Reading.emit a) :=
  movesAt_segment (.single hlisted hguarded)

theorem movesAt_closing (n : Nat) : MovesAt g n n ts closing := by
  apply movesAt_look rfl
  split
  · exact movesAt_advance n
  · exact movesAt_refuse _

theorem movesAt_demandGate (n : Nat) (gate : Gate) (function : String) :
    MovesAt g n n ts (demandGate gate function) := by
  have hdemand : ∀ d, MovesAt g n n ts (Reading.emit (.demand d function)) := fun d => by
    simpa [Action.use] using
      (movesAt_emit (a := .demand d function) trivial (.inr (by cases d <;> trivial))).raise n
  cases gate with
  | anywhere => exact movesAt_silent rfl n
  | frame => exact hdemand .frame
  | stateful => exact hdemand .memory

end Pieces

def disciplineTrait (dialect : Dialect) : Trait dialect where
  Holds := MovesAt
  done _ := movesAt_silent rfl _
  bind hr hnext := hr.bind hnext
  raise h k := h.raise k
  emit hlisted _ hguarded := movesAt_emit hlisted hguarded
  ask ha hnext := hnext.ask ha
  refuse f := movesAt_refuse f
  look hr h := movesAt_look hr h
  advance _ _ hnext := (movesAt_advance _).bind fun _ us => hnext us
  group _ hx := (movesAt_advance _).bind fun _ us => (hx us).bind fun _ _ => movesAt_closing _
  settle := movesAt_silent (by unfold Reading.settle; split <;> rfl) _
  within h := h.within
  gated {g n _ _ _ i count usesFrame} function hcalled _ huse _ hx := by
    have hinvoke : ∀ us, MovesAt g n 1 us (Reading.emit (.invoke i count usesFrame)) := by
      intro us
      have hemit : MovesAt g _ _ us (Reading.emit (.invoke i count usesFrame)) :=
        movesAt_emit hcalled (.inr trivial)
      rwa [huse] at hemit
    exact (movesAt_demandGate 0 _ function).bind fun _ us =>
      (hx us).bind fun _ vs => hinvoke vs

/-! ## Whole equations -/

/-- What holds of the script of every equation: its actions are as reading lists them, no action
takes an entry that is not there, and an equation without a fault leaves exactly one. -/
structure Script.Disciplined (script : Script) : Prop where
  listed : ∀ a ∈ script.actions, a.Listed
  guarded : Guarded script.actions
  depth : ∃ depth, depthAfter 0 (script.actions.map (·.use)) = some depth ∧
    (script.fault = none → depth = 1)

theorem Script.ofText_disciplined (dialect : Dialect) (source : String) :
    (Script.ofText dialect source).Disciplined := by
  have hmoves : MovesAt false 0 1 (Tokens.ofText source.toList)
      (wholeText (operand dialect (source.toList.length + 1))) :=
    (disciplineTrait dialect).wholeText _
  unfold MovesAt at hmoves
  unfold Script.ofText
  dsimp only
  split at hmoves
  · next pair hresult =>
    rw [hresult]
    exact ⟨hmoves.listed, hmoves.guarded.resolve_left Bool.false_ne_true,
      1, hmoves.depth, fun _ => rfl⟩
  · next f hresult =>
    obtain ⟨depth, hmoves⟩ := hmoves
    rw [hresult]
    exact ⟨hmoves.listed, hmoves.guarded.resolve_left Bool.false_ne_true,
      depth, hmoves.depth, fun h => by cases h⟩

end SignalCalc
