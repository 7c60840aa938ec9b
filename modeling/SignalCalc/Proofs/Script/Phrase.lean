import SignalCalc.Proofs.Script.Discipline

/-! # Phrases

How the demand for a frame and the calls that use one stand in the script of an equation. Where a
call looks at the frame, its demand comes first, then its arguments, then the call itself; arguments
are phrases again. Nothing else demands a frame and nothing else looks at one. This holds of
equations that are read to their end: a fault can cut a call off after its demand.
-/

namespace SignalCalc

/-- Lists of actions in which every use of the frame stands behind its demand. -/
inductive Phrase (plugins : Registry) : List Action → Prop where
  | nil : Phrase plugins []
  | plain {a : Action} (h : a.isPlain = true) : Phrase plugins [a]
  | append {first second : List Action} (h₁ : Phrase plugins first) (h₂ : Phrase plugins second) :
      Phrase plugins (first ++ second)
  | call {i : Instruction} (h : i.frameUse? plugins = some false) (count : Nat) :
      Phrase plugins [.invoke i count false]
  | frameCall {args : List Action} {i : Instruction} (function : String) (hargs : Phrase plugins args)
      (h : i.frameUse? plugins = some true) (count : Nat) :
      Phrase plugins (.demand .frame function :: (args ++ [.invoke i count true]))

namespace Phrase

variable {plugins : Registry} {actions : List Action}

theorem marked (h : Phrase plugins actions) : ∀ a ∈ actions, a.Marked plugins := by
  induction h with
  | nil => simp
  | plain h => simpa using Action.marked_of_isPlain h
  | append _ _ ih₁ ih₂ =>
    intro a ha
    exact (List.mem_append.mp ha).elim (ih₁ a) (ih₂ a)
  | call h count => simpa [Action.Marked] using h
  | frameCall function _ h count ih =>
    intro a ha
    simp only [List.mem_cons, List.mem_append, List.not_mem_nil, or_false] at ha
    rcases ha with rfl | ha | rfl
    · trivial
    · exact ih a ha
    · exact h

/-- Demands and uses of the frame go together. -/
theorem demanded_iff_called (h : Phrase plugins actions) :
    actions.any (·.demandsFrame) = actions.any (·.callsFrame) := by
  induction h with
  | nil => rfl
  | plain h => simp [Action.demandsFrame_of_isPlain h, Action.callsFrame_of_isPlain h]
  | append _ _ ih₁ ih₂ => rw [List.any_append, List.any_append, ih₁, ih₂]
  | call h count => rfl
  | frameCall function _ h count ih => simp [Action.demandsFrame, Action.callsFrame]

end Phrase

/-! ## Pieces of the descent -/

section Pieces

open Reading

variable {α β : Type} {plugins : Registry} {ts : Tokens}

/-- Reading that goes through on these tokens lists a phrase. -/
def PhrasedAt (plugins : Registry) (ts : Tokens) (r : Reading α) : Prop :=
  ∀ pair, (r ts).result = .ok pair → Phrase plugins (r ts).actions

theorem phrasedAt_silent {r : Reading α} (h : (r ts).actions = []) : PhrasedAt plugins ts r := by
  intro pair _
  rw [h]
  exact .nil

theorem phrasedAt_refuse (f : SourceFault) : PhrasedAt plugins ts (refuse f : Reading α) := by
  intro pair h
  cases h

theorem phrasedAt_emit {a : Action} (h : a.isPlain = true) :
    PhrasedAt plugins ts (Reading.emit a) := fun _ _ => .plain h

theorem PhrasedAt.bind {r : Reading α} {next : α → Reading β} (hr : PhrasedAt plugins ts r)
    (hnext : ∀ a us, PhrasedAt plugins us (next a)) : PhrasedAt plugins ts (r >>= next) := by
  intro last h
  obtain ⟨a, rest, hfirst, hsecond, hactions⟩ := bind_ok h
  rw [hactions]
  exact (hr _ hfirst).append (hnext a rest last hsecond)

theorem phrasedAt_look {r : Reading α} {a : α} {next : α → Reading β}
    (hr : r ts = ⟨[], .ok (a, ts)⟩) (h : PhrasedAt plugins ts (next a)) :
    PhrasedAt plugins ts (r >>= next) := by
  have hboth : (r >>= next) ts = next a ts := by simp [Bind.bind, andThen, hr]
  unfold PhrasedAt at h ⊢
  rwa [hboth]

theorem PhrasedAt.ask {a : Action} (ha : a.Asks) {next : Reading α}
    (h : PhrasedAt plugins ts next) :
    PhrasedAt plugins ts (Reading.emit a >>= fun _ => next) := by
  intro pair hresult
  have hplain : Phrase plugins [a] := .plain (by cases ha <;> rfl)
  exact hplain.append (h pair hresult)

theorem phrasedAt_advance : PhrasedAt plugins ts advance :=
  phrasedAt_silent (by unfold advance settle; split <;> rfl)

theorem phrasedAt_closing : PhrasedAt plugins ts closing := by
  apply phrasedAt_look rfl
  split
  · exact phrasedAt_advance
  · exact phrasedAt_refuse _

theorem PhrasedAt.within {r : Reading Unit} {text : List Char}
    (h : PhrasedAt plugins (Tokens.ofText text) r) : PhrasedAt plugins ts (within text r) := by
  intro pair hresult
  unfold Reading.within at hresult ⊢
  cases hr : (r (Tokens.ofText text)).result with
  | error e => simp [hr, Except.map] at hresult
  | ok inner => exact h inner hr

/-- A gate, the arguments, and the call. Only the gate of the frame demands the frame. -/
theorem phrasedAt_gated {gate : Gate} {x : Reading Unit} {i : Instruction} {usesFrame : Bool}
    (hgate : usesFrame = decide (gate = .frame)) (hi : i.frameUse? plugins = some usesFrame)
    (hx : ∀ us, PhrasedAt plugins us x) (function : String) (count : Nat) :
    PhrasedAt plugins ts (demandGate gate function >>= fun _ => x >>= fun _ =>
      Reading.emit (.invoke i count usesFrame)) := by
  intro last h
  obtain ⟨_, us, -, hrest, hactions⟩ := bind_ok h
  obtain ⟨_, vs, hargs, -, hactions'⟩ := bind_ok hrest
  have hphrase := hx us _ hargs
  rw [hactions, hactions']
  subst hgate
  cases gate with
  | frame => exact .frameCall function hphrase hi count
  | anywhere => exact hphrase.append (.call hi count)
  | stateful =>
    -- this gate demands a memory, which is a plain action
    have hmemory : Phrase plugins [.demand .memory function] := .plain rfl
    exact hmemory.append (hphrase.append (.call hi count))

end Pieces

/-- Phrases are put together from phrases in all productions. -/
def phraseTrait {dialect : Dialect} (hplugins : dialect.plugins.Numbered) : Trait dialect where
  Holds _ _ _ ts r := PhrasedAt dialect.plugins ts r
  done _ := phrasedAt_silent rfl
  bind hr hnext := hr.bind hnext
  raise h _ := h
  emit _ hplain _ := phrasedAt_emit hplain
  ask ha hnext := hnext.ask ha
  refuse f := phrasedAt_refuse f
  look hr h := phrasedAt_look hr h
  advance _ _ hnext := phrasedAt_advance.bind fun _ us => hnext us
  group _ hx := phrasedAt_advance.bind fun _ us => (hx us).bind fun _ _ => phrasedAt_closing
  settle := phrasedAt_silent (by unfold Reading.settle; split <;> rfl)
  within h := h.within
  gated function _ hgate _ hframe hx :=
    phrasedAt_gated hgate (hframe hplugins) hx function _

theorem Script.phrase_of_ofText {dialect : Dialect} (hplugins : dialect.plugins.Numbered)
    {source : String} (h : (Script.ofText dialect source).fault = none) :
    Phrase dialect.plugins (Script.ofText dialect source).actions := by
  have hphrased : PhrasedAt dialect.plugins (Tokens.ofText source.toList)
      (wholeText (operand dialect (source.toList.length + 1))) :=
    (phraseTrait hplugins).wholeText (g := false) _
  unfold Script.ofText at h ⊢
  dsimp only at h ⊢
  split at h
  · next pair hresult => exact hphrased pair hresult
  · cases h

end SignalCalc
