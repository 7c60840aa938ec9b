import SignalCalc.Proofs.Equation.Loans
import SignalCalc.Proofs.Machine.Mimicry

/-! # Compiled execution refines direct evaluation

An equation that is evaluated at once and one that is compiled and then run come to the same result.
The two go through the same actions but do different things at each of them: an evaluation carries
the action out on its machine, the compiler resolves a name or adds an instruction. What ties them
together is that the code compiled so far, run on any store that shows what the compiler's store
shows, brings the machine to where the evaluation is.
-/

namespace SignalCalc

open MemoryStore WorkM

def Setting.context (cfg : Setting) : Context := { lockHeld := cfg.options.lockHeld }

def Setting.trace (cfg : Setting) (code : List Instruction) (t : MemoryStore) :
    Machine.Trace MemoryStore :=
  Machine.run cfg.plugins cfg.context code ⟨.empty, t⟩

/-- An evaluation with the machine `m` and a compilation with the store `s` and the code `code` are
at the same place. -/
structure Lockstep (cfg : Setting) (m : Machine MemoryStore) (s : MemoryStore)
    (code : List Instruction) : Prop where
  alike : m.store.outline = s.outline
  wellFormed : s.WellFormed
  known : ∀ id ∈ code.filterMap (·.binding?), (s.slot? id).isSome
  /-- Running the code leads to where the evaluation is. -/
  follows : ∀ t, Shows t s →
    (cfg.trace code t).stopped = none ∧ (cfg.trace code t).machine.stack = m.stack ∧
      Shows (cfg.trace code t).machine.store m.store

/-- Every run of the code on a store that shows what the compiler's store shows stops with an
error. -/
def Doomed (cfg : Setting) (e : RunError) (s : MemoryStore) (code : List Instruction) : Prop :=
  ∀ t, Shows t s → (cfg.trace code t).stopped = some e

variable {cfg : Setting} {m : Machine MemoryStore} {s : MemoryStore} {code : List Instruction}

theorem Lockstep.start (cfg : Setting) (hs : s.WellFormed) : Lockstep cfg ⟨.empty, s⟩ s [] where
  alike := rfl
  wellFormed := hs
  known _ h := (List.not_mem_nil h).elim
  follows _ ht := ⟨rfl, rfl, ht⟩

/-! ## The store -/

/-- The compiler's store only ever shows more. -/
theorem resolve_shows {name : String} {policy : ExistPolicy} {owner : Option Int32} {b : Binding}
    {s s' : MemoryStore} (hr : MemoryStore.resolve name policy owner s = .ok b s') : Shows s' s := by
  intro x seen hseen
  rcases resolve_ok hr with ⟨id, -, -, rfl⟩ | ⟨-, -, -, rfl⟩
  · rw [sight_attach]
    exact hseen
  · rw [sight_insert, hseen]
    rfl

/-- Attachments that either side takes do not break the step. -/
theorem Lockstep.restore (h : Lockstep cfg m s code) {t : MemoryStore} {s' : MemoryStore}
    (ht : t.outline = m.store.outline) (htsight : ∀ x, t.sight x = m.store.sight x)
    (hs : s'.outline = s.outline) (hsight : ∀ x, s'.sight x = s.sight x) (hwf : s'.WellFormed) :
    Lockstep cfg ⟨m.stack, t⟩ s' code where
  alike := ht.trans (h.alike.trans hs.symm)
  wellFormed := hwf
  known id hid := by
    rw [isSome_slot?_of_outline hs]
    exact h.known id hid
  follows u hu := by
    have hshows : Shows u s := fun x seen hseen => hu x seen (by rw [hsight]; exact hseen)
    obtain ⟨hdone, hstack, hstore⟩ := h.follows u hshows
    refine ⟨hdone, hstack, fun x seen hseen => hstore x seen ?_⟩
    rw [← htsight]
    exact hseen

/-- Both sides create the same variable under the same number. Code compiled before cannot know of
it, so that it still holds 0 when a run gets here. -/
theorem Lockstep.create (h : Lockstep cfg m s code) {name : String} (hname : s.lookup name = none)
    (owner : Option Int32) :
    Lockstep cfg ⟨m.stack, m.store.insert (newSlot name owner)⟩ (s.insert (newSlot name owner))
      code := by
  -- the counters of both stores agree, and the code names known variables only
  have hfresh : m.store.freshId = s.freshId := freshId_of_outline h.alike
  have hunknown : s.slot? s.freshId = none := h.wellFormed.slot?_freshId
  have hcode : s.freshId ∉ code.filterMap (·.binding?) := by
    intro hmem
    have hknown := h.known _ hmem
    rw [hunknown] at hknown
    cases hknown
  refine ⟨?_, h.wellFormed.insert rfl hname fun _ => Nat.one_pos, ?_, ?_⟩
  · rw [outline_insert, outline_insert, h.alike]
  · intro id hid
    rw [slot?_insert]
    simp [h.known id hid]
  · intro t ht
    have hshows : Shows t s := fun x seen hseen => ht x seen (by rw [sight_insert, hseen]; rfl)
    obtain ⟨hdone, hstack, hstore⟩ := h.follows t hshows
    refine ⟨hdone, hstack, fun x seen hseen => ?_⟩
    rw [sight_insert] at hseen
    cases hold : m.store.sight x with
    | some old =>
      rw [hold] at hseen
      cases hseen
      exact hstore x _ hold
    | none =>
      rw [hold, hfresh] at hseen
      by_cases hx : s.freshId = x
      · -- the new variable itself: no instruction so far can have written to it
        subst hx
        have hwritten := Machine.run_written cfg.plugins cfg.context code ⟨.empty, t⟩
        have hsame : (cfg.trace code t).machine.store.sight s.freshId = t.sight s.freshId :=
          Written.sight_other hwritten hcode
        rw [hsame]
        refine ht _ _ ?_
        rw [sight_insert, sight, hunknown]
        exact hseen
      · have hid : (newSlot name owner s.freshId).id ≠ x := hx
        rw [if_neg hid] at hseen
        cases hseen

/-! ## Instructions -/

theorem Lockstep.step (h : Lockstep cfg m s code) {i : Instruction}
    (hi : ∀ id, i.binding? = some id → (s.slot? id).isSome) :
    match Machine.step cfg.plugins cfg.context i m with
    | .ok _ m' => Lockstep cfg m' s (code ++ [i])
    | .error e _ => Doomed cfg e s (code ++ [i]) := by
  have hknown : Machine.Known (i.binding? = some ·) m := fun id hid => by
    rw [isSome_slot?_of_outline h.alike]
    exact hi id hid
  -- every run of the code so far ends in a machine that mimics the one of the evaluation
  have hlast : ∀ t, Shows t s →
      Machine.Mimics (i.binding? = some ·) m (cfg.trace code t).machine ∧
        (cfg.trace (code ++ [i]) t).stopped =
          (Machine.run cfg.plugins cfg.context [i] (cfg.trace code t).machine).stopped ∧
        (cfg.trace (code ++ [i]) t).machine =
          (Machine.run cfg.plugins cfg.context [i] (cfg.trace code t).machine).machine := by
    intro t ht
    obtain ⟨hdone, hstack, hstore⟩ := h.follows t ht
    exact ⟨⟨hstack, hstore, hknown⟩, Machine.run_append_of_done hdone [i]⟩
  have hcopied : Machine.Copied (i.binding? = some ·)
      (Machine.step cfg.plugins cfg.context i : MachineM MemoryStore Instruction) :=
    Machine.step_copied cfg.plugins cfg.context fun _ hid => hid
  have hwritten := Machine.step_written cfg.plugins cfg.context i m
  cases hstep : Machine.step cfg.plugins cfg.context i m with
  | error e m' =>
    intro t ht
    obtain ⟨hmimics, hstopped, -⟩ := hlast t ht
    have hsame := hcopied m _ hmimics
    rw [hstep] at hsame
    obtain ⟨n', hn'⟩ := hsame
    rw [hstopped, Machine.run_singleton, hn']
  | ok i' m' =>
    rw [hstep] at hwritten
    refine ⟨(Written.outline_eq hwritten).trans h.alike, h.wellFormed, ?_, ?_⟩
    · intro id hid
      rw [List.filterMap_append, List.mem_append] at hid
      rcases hid with hid | hid
      · exact h.known id hid
      · obtain ⟨j, hj, hbinding⟩ := List.mem_filterMap.mp hid
        rw [List.mem_singleton.mp hj] at hbinding
        exact hi id hbinding
    · intro t ht
      obtain ⟨hmimics, hstopped, hmachine⟩ := hlast t ht
      have hsame := hcopied m _ hmimics
      rw [hstep] at hsame
      obtain ⟨n', hn', hafter⟩ := hsame
      rw [hstopped, hmachine, Machine.run_singleton, hn']
      exact ⟨rfl, hafter.stack, hafter.shows⟩

theorem Doomed.compiled {e : RunError} {c c' : Workspace MemoryStore} {a : Action}
    (h : Doomed cfg e c.machine.store c.code) (ha : Compiled cfg c a c') :
    Doomed cfg e c'.machine.store c'.code := by
  have happend : ∀ i : Instruction, Doomed cfg e c.machine.store (c.code ++ [i]) :=
    fun i t ht => Machine.run_append_of_stopped (h t ht) [i]
  cases ha with
  | push v => exact happend _
  | operate op => exact happend _
  | invoke i count usesFrame => exact happend i
  | enumText hname htext => exact happend _
  | access warnings hresolve _ =>
    exact fun t ht => happend _ t ((resolve_shows hresolve).trans ht)
  | frame function => exact h
  | memory function => exact h

/-! ## Actions -/

def NoLocals (cfg : Setting) (scope : Option Scope) : Prop :=
  cfg.options.scriptLocals = false ∨ scope = none

/-- How an evaluation stands to a compilation that went through, with the store `s` and the code
`code`. -/
def Tracks (cfg : Setting) (s : MemoryStore) (code : List Instruction) :
    EStateM.Result Refusal (Workspace MemoryStore) Unit → Prop
  | .ok _ d => Lockstep cfg d.machine s code ∧ NoLocals cfg d.scope
  | .error (.run e) _ => Doomed cfg e s code
  | .error _ _ => True

/-- How an evaluation stands to a compilation: a refusal of the compiler is one of the evaluation,
unless it is about where the equation stands. -/
def Agrees (cfg : Setting) (direct : EStateM.Result Refusal (Workspace MemoryStore) Unit) :
    EStateM.Result Refusal (Workspace MemoryStore) Unit → Prop
  | .ok _ c => Tracks cfg c.machine.store c.code direct
  | .error r _ => (∃ fault, r = .place fault) ∨ ∃ r' d, direct = .error r' d

theorem locals_none {mode : Mode} {w : Workspace MemoryStore} (h : NoLocals cfg w.scope) :
    locals cfg mode w = .ok none w := by
  unfold locals
  split
  · rfl
  · next henabled =>
    rcases h with hoff | hnone
    · simp [hoff] at henabled
    · rw [hnone]

theorem accessVariable_eq (hreplacement : cfg.options.replacement = none) {d : Workspace MemoryStore}
    (hlocals : NoLocals cfg d.scope) (op : AccessOp) (name : String) :
    accessVariable cfg op name d = accessStore cfg op name d := by
  have hlocal : accessLocal cfg op name d = .ok false d := by
    unfold accessLocal
    rw [bind_apply, locals_none hlocals]
    rfl
  unfold accessVariable
  rw [hreplacement]
  dsimp only [Option.filter_none]
  rw [bind_apply, hlocal]
  rfl

theorem emit_tracks {d : Workspace MemoryStore} (h : Lockstep cfg d.machine s code)
    (hlocals : NoLocals cfg d.scope) {i : Instruction}
    (hi : ∀ id, i.binding? = some id → (s.slot? id).isSome) :
    Tracks cfg s (code ++ [i]) (emit cfg .direct i d) := by
  have hstep := h.step hi
  have hemit : emit cfg .direct i d =
      (onMachine (Machine.step cfg.plugins cfg.context i) >>= fun _ => pure ()) d := rfl
  rw [hemit, bind_apply]
  unfold onMachine
  cases hresult : Machine.step cfg.plugins cfg.context i d.machine with
  | ok i' m' =>
    rw [hresult] at hstep
    exact ⟨hstep, hlocals⟩
  | error e m' =>
    rw [hresult] at hstep
    exact hstep

theorem slot?_of_resolve (hs : s.WellFormed) {name : String} {policy : ExistPolicy}
    {owner : Option Int32} {b : Binding} {s' : MemoryStore}
    (hr : MemoryStore.resolve name policy owner s = .ok b s') : (s'.slot? b.id).isSome := by
  have hnone : Lends Eq owner (fun _ => 0) s s := Lends.refl (fun _ => rfl) owner s
  exact (hnone.resolve hs hr).known b.id (by simp)

/-- The variable of an access. If the compiler resolves its name, the evaluation finds the same
variable or is refused: it does not create what is only read. -/
theorem findVariable_matches {d : Workspace MemoryStore} (h : Lockstep cfg d.machine s code)
    {op : AccessOp} {name : String} {b : Binding} {s' : MemoryStore}
    (hr : op.resolves cfg name s = .ok b s') :
    (∃ d', findVariable cfg op name d = .ok b.id d' ∧ Lockstep cfg d'.machine s' code ∧
      d'.scope = d.scope) ∨
    ∃ d', findVariable cfg op name d = .error (.binding .read name) d' := by
  have hlookup : d.machine.store.lookup name = s.lookup name := lookup_of_outline h.alike name
  cases hwrites : op.writes with
  | false =>
    rw [findVariable_read hwrites]
    -- a read of an evaluation only looks a name up, so that it misses one that the compiler creates
    rcases resolve_ok hr with ⟨id, hname, rfl, rfl⟩ | ⟨hname, -, -, -⟩
    · rw [hname] at hlookup
      refine .inl ⟨d, ?_, ?_, rfl⟩
      · simp only [VariableStore.lookup, hlookup]
      · exact h.restore rfl (fun _ => rfl) (outline_attach s id) (sight_attach s id)
          (h.wellFormed.attach id)
    · rw [hname] at hlookup
      refine .inr ⟨d, ?_⟩
      simp only [VariableStore.lookup, hlookup]
  | true =>
    have hpolicy : op.policy cfg.options.missing = cfg.options.missing.writePolicy := by
      rw [AccessOp.policy, if_pos hwrites]
    rw [AccessOp.resolves, hpolicy] at hr
    rcases resolve_ok hr with ⟨id, hname, rfl, rfl⟩ | ⟨hname, hmissing, rfl, rfl⟩
    · have hdirect : VariableStore.resolve name cfg.options.missing.writePolicy cfg.options.owner
          d.machine.store = .ok ⟨id, false⟩ (d.machine.store.attach id) := by
        rw [hname] at hlookup
        simp only [VariableStore.resolve, MemoryStore.resolve, hlookup, MemoryStore.attach]
      refine .inl ⟨_, findVariable_write_ok hwrites hdirect, ?_, rfl⟩
      exact h.restore (outline_attach _ id) (sight_attach _ id) (outline_attach s id)
        (sight_attach s id) (h.wellFormed.attach id)
    · -- both sides create the variable, under the same number
      have hfresh : d.machine.store.freshId = s.freshId := freshId_of_outline h.alike
      have hdirect : VariableStore.resolve name cfg.options.missing.writePolicy cfg.options.owner
          d.machine.store =
            .ok ⟨s.freshId, true⟩ (d.machine.store.insert (newSlot name cfg.options.owner)) := by
        rw [hname] at hlookup
        simp only [VariableStore.resolve, MemoryStore.resolve, hlookup, if_neg hmissing, hfresh]
        rfl
      exact .inl ⟨_, findVariable_write_ok hwrites hdirect, h.create hname cfg.options.owner, rfl⟩

theorem accessStore_tracks {d : Workspace MemoryStore} (h : Lockstep cfg d.machine s code)
    (hlocals : NoLocals cfg d.scope) {op : AccessOp} {name : String} {b : Binding}
    {s' : MemoryStore} (hr : op.resolves cfg name s = .ok b s')
    (hconversion : op.isPhysical = true → s'.hasConversion b.id = true) :
    Tracks cfg s' (code ++ [.access op b.id]) (accessStore cfg op name d) := by
  unfold accessStore
  rw [bind_apply]
  rcases findVariable_matches h hr with ⟨d', hfind, hlockstep, hscope⟩ | ⟨d', hfind⟩
  · rw [hfind]
    dsimp only
    have hmeets : ¬ (op.isPhysical = true ∧
        VariableStore.hasConversion d'.machine.store b.id = false) := by
      rintro ⟨hphysical, hnone⟩
      have hsame : d'.machine.store.hasConversion b.id = s'.hasConversion b.id :=
        hasConversion_of_outline hlockstep.alike b.id
      rw [hconversion hphysical] at hsame
      exact Bool.noConfusion (hsame.symm.trans hnone)
    rw [bind_apply, checkConversion_eq, if_neg hmeets]
    refine emit_tracks hlockstep (by rw [hscope]; exact hlocals) fun id hid => ?_
    rw [Instruction.binding?_access] at hid
    cases hid
    exact slot?_of_resolve h.wellFormed hr
  · rw [hfind]
    trivial

theorem accessStore_refused {d c c' : Workspace MemoryStore} {op : AccessOp} {name : String}
    {r : Refusal} (h : Lockstep cfg d.machine c.machine.store code)
    (hrefused : Refused cfg c (.access op (.named name)) r c') :
    ∃ r' d', accessStore cfg op name d = .error r' d' := by
  unfold accessStore
  rw [bind_apply]
  cases hrefused with
  | unresolved hresolve =>
    obtain ⟨hname, hpolicy, -⟩ := resolve_error hresolve
    have hlookup : d.machine.store.lookup name = none := by
      rw [lookup_of_outline h.alike name, hname]
    -- a read only looks the name up, a write resolves it under the same policy as the compiler
    cases hwrites : op.writes with
    | false =>
      refine ⟨.binding .read name, d, ?_⟩
      rw [findVariable_read hwrites]
      simp only [VariableStore.lookup, hlookup]
    | true =>
      rw [AccessOp.policy, if_pos hwrites] at hpolicy
      have hdirect : VariableStore.resolve name cfg.options.missing.writePolicy cfg.options.owner
          d.machine.store = .error (.notFound name) d.machine.store := by
        simp only [VariableStore.resolve, MemoryStore.resolve, hlookup, if_pos hpolicy]
      rw [findVariable_write_error hwrites hdirect]
      exact ⟨_, _, rfl⟩
  | unconverted warnings hresolve hphysical hconversion =>
    rcases findVariable_matches h hresolve with ⟨d', hfind, hlockstep, -⟩ | ⟨d', hfind⟩
    · have hnone := (hasConversion_of_outline hlockstep.alike _).trans hconversion
      rw [hfind]
      dsimp only
      rw [bind_apply, checkConversion_eq, if_pos ⟨hphysical, hnone⟩]
      exact ⟨_, _, rfl⟩
    · rw [hfind]
      exact ⟨_, _, rfl⟩

theorem dereference_refused {mode : Mode} {d : Workspace MemoryStore}
    (hlocals : NoLocals cfg d.scope) (reference : String) :
    dereference cfg mode reference d = .error (.text (.noDereference reference)) d := by
  unfold dereference
  rw [bind_apply, locals_none hlocals]
  rfl

theorem enumNumber_alike {d : Workspace MemoryStore} (h : Lockstep cfg d.machine s code)
    (name text : String) :
    enumNumber name text d =
      match s.lookup name with
      | none => .error (.binding .read name) d
      | some id =>
        match s.enumValue? id text with
        | none => .error (.text (.noEnumText name text)) d
        | some raw => .ok (.ofFloat raw.toFloat) d := by
  have hname : VariableStore.lookup d.machine.store name = s.lookup name :=
    lookup_of_outline h.alike name
  have htext : ∀ id, VariableStore.enumValue? d.machine.store id text = s.enumValue? id text :=
    fun id => enumValue?_of_outline h.alike id text
  rw [enumNumber_eq, hname]
  cases s.lookup name with
  | none => rfl
  | some id =>
    cases hraw : s.enumValue? id text with
    | none => simp only [htext, hraw]
    | some raw => simp only [htext, hraw]

theorem perform_access_direct (hreplacement : cfg.options.replacement = none)
    {d : Workspace MemoryStore} (hlocals : NoLocals cfg d.scope) (op : AccessOp) (name : String) :
    perform cfg .direct (.access op (.named name)) d = accessStore cfg op name d :=
  accessVariable_eq hreplacement hlocals op name

theorem perform_enumText_direct (name text : String) (d : Workspace MemoryStore) :
    perform cfg .direct (.enumText name text) d =
      (enumNumber name text >>= emitLiteral cfg .direct) d := rfl

theorem perform_tracks (hreplacement : cfg.options.replacement = none) {a : Action}
    (ha : a.Listed) {d c c' : Workspace MemoryStore}
    (h : Lockstep cfg d.machine c.machine.store c.code) (hlocals : NoLocals cfg d.scope)
    (hcompiled : Compiled cfg c a c') :
    Tracks cfg c'.machine.store c'.code (perform cfg .direct a d) := by
  cases hcompiled with
  | push v => exact emit_tracks h hlocals fun id hid => by cases hid
  | operate op => exact emit_tracks h hlocals fun id hid => by cases hid
  | invoke i count usesFrame =>
    have hinvoke : perform cfg .direct (.invoke i count usesFrame) d = emit cfg .direct i d := by
      simp only [perform, Mode.isCheck, Bool.and_false]
      rfl
    rw [hinvoke]
    refine emit_tracks h hlocals fun id hid => ?_
    rw [Called.binding? ha] at hid
    cases hid
  | enumText hname htext =>
    rw [perform_enumText_direct, bind_apply, enumNumber_alike h]
    simp only [VariableStore.lookup, VariableStore.enumValue?] at hname htext
    simp only [hname, htext]
    exact emit_tracks h hlocals fun id hid => by cases hid
  | access warnings hresolve hconversion =>
    rw [perform_access_direct hreplacement hlocals]
    exact accessStore_tracks h hlocals hresolve hconversion
  | frame function =>
    -- an evaluation has no frame and no memory of earlier runs
    trivial
  | memory function => trivial

/-- An action that the compiler refuses is refused during an evaluation too, unless it is refused
because of where it stands. -/
theorem perform_refused (hreplacement : cfg.options.replacement = none) {a : Action} {r : Refusal}
    {d c c' : Workspace MemoryStore} (h : Lockstep cfg d.machine c.machine.store c.code)
    (hlocals : NoLocals cfg d.scope) (hrefused : Refused cfg c a r c') :
    (∃ fault, r = .place fault) ∨ ∃ r' d', perform cfg .direct a d = .error r' d' := by
  cases hrefused with
  | unresolved hresolve =>
    rw [perform_access_direct hreplacement hlocals]
    exact .inr (accessStore_refused h (.unresolved hresolve))
  | unconverted warnings hresolve hphysical hconversion =>
    rw [perform_access_direct hreplacement hlocals]
    exact .inr (accessStore_refused h (.unconverted warnings hresolve hphysical hconversion))
  | dereference op reference =>
    have hperform : perform cfg .direct (.access op (.reference reference)) d =
        (dereference cfg .direct reference >>= variableAccess cfg .direct op) d := rfl
    rw [hperform, bind_apply, dereference_refused hlocals]
    exact .inr ⟨_, _, rfl⟩
  | follow reference =>
    have hperform : perform cfg .direct (.follow reference) d =
        (dereference cfg .direct reference >>= fun _ => pure ()) d := rfl
    rw [hperform, bind_apply, dereference_refused hlocals]
    exact .inr ⟨_, _, rfl⟩
  | enumName hname =>
    simp only [VariableStore.lookup] at hname
    rw [perform_enumText_direct, bind_apply, enumNumber_alike h, hname]
    exact .inr ⟨_, _, rfl⟩
  | enumText hname htext =>
    simp only [VariableStore.lookup, VariableStore.enumValue?] at hname htext
    rw [perform_enumText_direct, bind_apply, enumNumber_alike h, hname]
    simp only [htext]
    exact .inr ⟨_, _, rfl⟩
  | frame function => exact .inl ⟨_, rfl⟩
  | immediate function => exact .inl ⟨_, rfl⟩

theorem perform_agrees (hreplacement : cfg.options.replacement = none) {a : Action}
    (ha : a.Listed) (himmediate : a.isImmediate = false) {d c : Workspace MemoryStore}
    (h : Lockstep cfg d.machine c.machine.store c.code) (hlocals : NoLocals cfg d.scope) :
    Agrees cfg (perform cfg .direct a d) (perform cfg .compile a c) := by
  have hcompile := perform_compile cfg himmediate c
  cases hresult : perform cfg .compile a c with
  | ok u c' =>
    rw [hresult] at hcompile
    exact perform_tracks hreplacement ha h hlocals hcompile
  | error r c' =>
    rw [hresult] at hcompile
    exact perform_refused hreplacement h hlocals hcompile

theorem performAll_doomed {e : RunError} {actions : List Action}
    (hlisted : ∀ a ∈ actions, a.Listed) (hguarded : Guarded actions)
    {c c' : Workspace MemoryStore} (hc : Doomed cfg e c.machine.store c.code)
    (hall : performAll cfg .compile actions c = .ok () c') :
    Doomed cfg e c'.machine.store c'.code := by
  have hdoomed := performAll_compile (P := fun _ c => Doomed cfg e c.machine.store c.code)
    (Q := fun _ _ => True) (fun _ _ _ _ _ hc ha => hc.compiled ha)
    (fun _ _ _ _ _ _ _ => trivial) hlisted hguarded hc
  rw [hall] at hdoomed
  exact hdoomed

theorem performAll_agrees (hreplacement : cfg.options.replacement = none) {actions : List Action}
    (hlisted : ∀ a ∈ actions, a.Listed) (hguarded : Guarded actions)
    {d c : Workspace MemoryStore} (h : Lockstep cfg d.machine c.machine.store c.code)
    (hlocals : NoLocals cfg d.scope) :
    Agrees cfg (performAll cfg .direct actions d) (performAll cfg .compile actions c) := by
  induction actions generalizing d c with
  | nil => exact ⟨h, hlocals⟩
  | cons a actions ih =>
    have hrest : ∀ b ∈ actions, b.Listed := fun b hb => hlisted b (List.mem_cons_of_mem a hb)
    have hcompile := perform_compile cfg hguarded.head c
    have hfirst := perform_agrees hreplacement (hlisted a (by simp)) hguarded.head h hlocals
    unfold performAll
    rw [bind_apply, bind_apply]
    cases hc : perform cfg .compile a c with
    | ok u c' =>
      rw [hc] at hcompile hfirst
      cases hd : perform cfg .direct a d with
      | ok u' d' =>
        rw [hd] at hfirst
        exact ih hrest (hguarded.tail hcompile) hfirst.1 hfirst.2
      | error r d' =>
        rw [hd] at hfirst
        dsimp only
        cases hall : performAll cfg .compile actions c' with
        | error r' c'' => exact .inr ⟨r, d', rfl⟩
        | ok u'' c'' =>
          -- the evaluation has stopped here, the compiler goes on
          cases r with
          | run e => exact performAll_doomed hrest (hguarded.tail hcompile) hfirst hall
          | text | arity | binding | place => trivial
    | error r c' =>
      rw [hc] at hfirst
      rcases hfirst with hplace | ⟨r', d', hd⟩
      · exact .inl hplace
      · rw [hd]
        exact .inr ⟨r', d', rfl⟩

theorem interpret_agrees (hreplacement : cfg.options.replacement = none) (source : String)
    {d c : Workspace MemoryStore} (h : Lockstep cfg d.machine c.machine.store c.code)
    (hlocals : NoLocals cfg d.scope) :
    Agrees cfg (interpret cfg .direct (.ofText cfg.dialect source) d)
      (interpret cfg .compile (.ofText cfg.dialect source) c) := by
  have hscript := Script.ofText_disciplined cfg.dialect source
  have hall := performAll_agrees hreplacement hscript.listed hscript.guarded h hlocals
  unfold interpret
  cases (Script.ofText cfg.dialect source).fault with
  | none =>
    dsimp only
    rw [bind_pure_unit, bind_pure_unit]
    exact hall
  | some f =>
    -- both end with the fault of the text if they get that far
    rw [bind_apply, bind_apply]
    cases performAll cfg .compile (Script.ofText cfg.dialect source).actions c <;>
      cases performAll cfg .direct (Script.ofText cfg.dialect source).actions d <;>
      exact .inr ⟨_, _, rfl⟩

/-! ## Equations -/

theorem slot?_of_detach {s : MemoryStore} {id x : VarId} {slot : Slot}
    (h : (s.detach id).slot? x = some slot) :
    ∃ old, s.slot? x = some old ∧ old.outline = slot.outline ∧ old.value = slot.value := by
  unfold MemoryStore.detach at h
  split at h
  · split at h
    · by_cases hx : x = id
      · obtain ⟨hmem, hid⟩ := mem_of_slot? h
        have hne := (List.mem_filter.mp hmem).2
        rw [hid, hx] at hne
        simp at hne
      · rw [slot?_erase hx] at h
        exact ⟨slot, h, rfl, rfl⟩
    · rw [slot?_update s id x (keepsIdentity_attachments (· - 1))] at h
      split at h
      · obtain ⟨old, hold, rfl⟩ := Option.map_eq_some_iff.mp h
        exact ⟨old, hold, rfl, rfl⟩
      · exact ⟨slot, h, rfl, rfl⟩
  · exact ⟨slot, h, rfl, rfl⟩

theorem slot?_of_detachAll {s : MemoryStore} {ids : List VarId} {x : VarId} {slot : Slot}
    (h : (Program.detachAll ids s).slot? x = some slot) :
    ∃ old, s.slot? x = some old ∧ old.outline = slot.outline ∧ old.value = slot.value := by
  induction ids generalizing s with
  | nil => exact ⟨slot, h, rfl, rfl⟩
  | cons id ids ih =>
    obtain ⟨kept, hkept, houtline, hvalue⟩ := ih h
    obtain ⟨old, hold, houtline', hvalue'⟩ := slot?_of_detach hkept
    exact ⟨old, hold, houtline'.trans houtline, hvalue'.trans hvalue⟩

/-- A store that shows what another one shows, and is like it otherwise, has its values under the
same names. -/
theorem named?_of_shows {s t : MemoryStore} (ht : t.WellFormed) (hshows : Shows t s)
    (halike : t.outline = s.outline) {slot : Slot} (hslot : s.slot? slot.id = some slot) :
    ∃ slot', t.named? slot.name = some slot' ∧ slot'.value = slot.value := by
  have hseen : s.sight slot.id = some slot.sight := by rw [sight, hslot]; rfl
  obtain ⟨slot', hslot', hsight⟩ := Option.map_eq_some_iff.mp (hshows _ _ hseen)
  have hboth : t.outline.slot? slot.id = s.outline.slot? slot.id := by rw [halike]
  rw [slot?_outline, slot?_outline, hslot, hslot'] at hboth
  have houtline : slot'.outline = slot.outline := Option.some.inj hboth
  have hname : slot'.name = slot.name := congrArg (·.name) houtline
  refine ⟨slot', ?_, congrArg Sight.value hsight⟩
  rw [← hname]
  exact ht.named?_of_mem (mem_of_slot? hslot').1

theorem execute_trace {scope : Option Scope} {source : String} {p : Program}
    (hp : (compile cfg scope source s).result = .ok p) (t : MemoryStore) :
    (p.execute cfg.plugins t).store = (cfg.trace p.code t).machine.store ∧
      (p.execute cfg.plugins t).result =
        match (cfg.trace p.code t).stopped with
        | some e => .error e
        | none =>
          match (cfg.trace p.code t).machine.stack.bottom? with
          | some v => .ok v
          | none => .error .noResult := by
  obtain ⟨c, -, -, rfl⟩ := compile_ok hp
  exact ⟨rfl, rfl⟩

/-- A program runs to the result of an evaluation that went through, and what the evaluation leaves
in the store the run leaves there too. -/
theorem execute_of_lockstep (hs : Reachable s) {scope : Option Scope} {source : String}
    {p : Program} {d : Workspace MemoryStore}
    (hd : interpret cfg .direct (.ofText cfg.dialect source) (.start s scope) = .ok () d)
    (hp : (compile cfg scope source s).result = .ok p)
    (h : Lockstep cfg d.machine (compile cfg scope source s).store p.code) :
    (p.execute cfg.plugins (compile cfg scope source s).store).result =
        (match d.machine.stack.bottom? with
          | some v => .ok v
          | none => .error .noResult) ∧
      ∀ name slot, (evaluate cfg scope source s).store.named? name = some slot →
        ∃ slot', (p.execute cfg.plugins (compile cfg scope source s).store).store.named? name =
          some slot' ∧ slot'.value = slot.value := by
  obtain ⟨hstore, hresult⟩ := execute_trace hp (compile cfg scope source s).store
  obtain ⟨hdone, hstack, hshows⟩ := h.follows _ (Shows.refl _)
  have hwritten := Machine.run_written cfg.plugins cfg.context p.code
    ⟨.empty, (compile cfg scope source s).store⟩
  have hwell := (Written.reachable hwritten (compile_lends hs cfg scope source).1).wellFormed
  have halike := (Written.outline_eq hwritten).trans h.alike.symm
  constructor
  · rw [hresult, hdone, hstack]
  · intro name slot hslot
    obtain ⟨hmem, rfl⟩ := mem_of_named? hslot
    -- from the store that the evaluation leaves, back to its machine, and over to the run
    have hkept := (evaluate_lends hs cfg scope source).1.wellFormed.slot?_of_mem hmem
    rw [evaluate_store, hd] at hkept
    obtain ⟨old, hold, houtline, hvalue⟩ := slot?_of_detachAll hkept
    have hid : old.id = slot.id := congrArg (·.id) houtline
    have hname : old.name = slot.name := congrArg (·.name) houtline
    rw [← hid] at hold
    rw [hstore, ← hname, ← hvalue]
    exact named?_of_shows hwell hshows halike hold

end SignalCalc
