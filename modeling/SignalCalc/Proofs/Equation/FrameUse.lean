import SignalCalc.Proofs.Equation.Outcome
import SignalCalc.Proofs.Machine.Run
import SignalCalc.Proofs.Script.Phrase
import SignalCalc.Store.Memory

/-! # Use of the frame

A program says of itself whether it looks at the frame. It does so exactly if one of its
instructions does; a check of the same equation says the same; and a program that says no runs alike
on every frame and on none, as long as plugins keep their word.
-/

namespace SignalCalc

open WorkM

/-! ## Instructions -/

theorem Instruction.frameUse?_forget (plugins : Registry) (i : Instruction) :
    i.forget.frameUse? plugins = i.frameUse? plugins := by
  obtain ⟨operation, operand⟩ := i
  cases operand <;> rfl

/-- An instruction keeps its use of the frame when plugins join. -/
theorem Registry.Grown.frameUse? {r r' : Registry} (h : r.Grown r') {i : Instruction} {u : Bool}
    (hi : i.frameUse? r = some u) : i.frameUse? r' = some u := by
  obtain ⟨operation, operand⟩ := i
  cases operation with
  | builtin op => exact hi
  | plugin id =>
    obtain ⟨p, hp, hu⟩ := Option.map_eq_some_iff.mp hi
    exact Option.map_eq_some_iff.mpr ⟨p, h.plugin? hp, hu⟩

/-! ## Runs -/

namespace Machine

variable {σ : Type} [VariableStore σ]

theorem builtin_frame {op : Opcode} (hop : op.usesFrame = false) (ctx : Context)
    (frame frame' : Option Frame) (operand : Operand) :
    (builtin { ctx with frame := frame } op operand : MachineM σ Operand) =
      builtin { ctx with frame := frame' } op operand := by
  cases op with
  | frame op => cases hop
  | stack op => cases op <;> cases operand <;> rfl
  | access op => cases operand <;> rfl
  | edge op => cases operand <;> rfl
  | crc op => cases operand <;> rfl
  | arithmetic | logic | bits | math | cast => rfl

theorem step_frame {plugins : Registry} (hplugins : plugins.Honest) {i : Instruction}
    (hi : i.frameUse? plugins = some false) (ctx : Context) (frame frame' : Option Frame) :
    (step plugins { ctx with frame := frame } i : MachineM σ Instruction) =
      step plugins { ctx with frame := frame' } i := by
  obtain ⟨operation, operand⟩ := i
  cases operation with
  | builtin op =>
    have hop : op.usesFrame = false := Option.some.inj hi
    simp only [step, builtin_frame hop ctx frame frame']
  | plugin id =>
    obtain ⟨p, hp, hflag⟩ := Option.map_eq_some_iff.mp hi
    have hbody := hplugins id p hp hflag frame frame'
    simp only [step, Registry.call, hp, hbody]

/-- Code that does not look at the frame runs alike on any two frames, and without one. -/
theorem run_frame {plugins : Registry} (hplugins : plugins.Honest) {code : List Instruction}
    (hcode : ∀ i ∈ code, i.frameUse? plugins = some false) (ctx : Context)
    (frame frame' : Option Frame) (m : Machine σ) :
    run plugins { ctx with frame := frame } code m =
      run plugins { ctx with frame := frame' } code m := by
  induction code generalizing m with
  | nil => rfl
  | cons i code ih =>
    rw [List.forall_mem_cons] at hcode
    -- both runs take the same step and go on from the same machine
    unfold run
    rw [step_frame hplugins hcode.1 ctx frame frame']
    cases step plugins { ctx with frame := frame' } i m with
    | error e m' => rfl
    | ok i' m' =>
      dsimp only
      rw [ih hcode.2 m']

end Machine

/-- A program that does not look at the frame gives the same result on any two frames, and leaves
the same stack, store and edge memories. -/
theorem Program.run_frame {σ : Type} [VariableStore σ] {plugins : Registry}
    (hplugins : plugins.Honest) {p : Program}
    (hcode : ∀ i ∈ p.code, i.frameUse? plugins = some false) (ctx : Context)
    (frame frame' : Option Frame) (s : σ) :
    p.run plugins { ctx with frame := frame } s = p.run plugins { ctx with frame := frame' } s := by
  simp only [Program.run, Machine.run_frame hplugins hcode ctx frame frame']

theorem Program.Descends.frameUse? {plugins : Registry} {p q : Program} (h : Descends plugins p q)
    {r : Registry} {u : Option Bool} (hcode : ∀ i ∈ p.code, i.frameUse? r = u) :
    ∀ i ∈ q.code, i.frameUse? r = u := by
  refine forall_of_forget (fun i => ?_) h.forget hcode
  rw [i.frameUse?_forget]

/-! ## Programs -/

def looksAtFrame (plugins : Registry) (code : List Instruction) : Bool :=
  code.any (·.frameUse? plugins == some true)

section Compiling

variable {σ : Type}

/-- Code under construction. What the workspace says of the frame and what the actions that are left
demand comes to `demanded`; what the instructions do and the actions that are left call comes to
`called`. -/
structure Annotated (plugins : Registry) (demanded called : Bool) (rest : List Action)
    (w : Workspace σ) : Prop where
  marked : ∀ a ∈ rest, a.Marked plugins
  known : ∀ i ∈ w.code, (i.frameUse? plugins).isSome = true
  flag : (w.usesFrame || rest.any (·.demandsFrame)) = demanded
  code : (looksAtFrame plugins w.code || rest.any (·.callsFrame)) = called

namespace Annotated

variable {plugins : Registry} {demanded called : Bool} {a : Action} {rest : List Action}
  {w w' : Workspace σ}

theorem append (h : Annotated plugins demanded called (a :: rest) w) {i : Instruction}
    (hdemand : a.demandsFrame = false) (hcall : i.frameUse? plugins = some a.callsFrame)
    (hcode : w'.code = w.code ++ [i]) (hflag : w'.usesFrame = w.usesFrame) :
    Annotated plugins demanded called rest w' where
  marked b hb := h.marked b (List.mem_cons_of_mem a hb)
  known := by
    intro j hj
    rw [hcode, List.mem_append, List.mem_singleton] at hj
    rcases hj with hj | rfl
    · exact h.known j hj
    · rw [hcall]
      rfl
  flag := by simpa [hflag, hdemand] using h.flag
  code := by
    have hcalls : (i.frameUse? plugins == some true) = a.callsFrame := by simp [hcall]
    rw [← h.code]
    simp only [looksAtFrame, hcode, List.any_append, List.any_cons, List.any_nil, hcalls,
      Bool.or_false, Bool.or_assoc]

theorem compiled [VariableStore σ] {cfg : Setting}
    (h : Annotated plugins demanded called (a :: rest) w) (ha : Compiled cfg w a w') :
    Annotated plugins demanded called rest w' := by
  have hmarked := h.marked a (by simp)
  have hrest : ∀ b ∈ rest, b.Marked plugins := fun b hb => h.marked b (List.mem_cons_of_mem a hb)
  cases ha with
  | push v => exact h.append rfl rfl rfl rfl
  | operate op =>
    have hop : (Instruction.plain op).frameUse? plugins = some false := congrArg some hmarked
    exact h.append rfl hop rfl rfl
  | invoke i count usesFrame => exact h.append rfl hmarked rfl rfl
  | enumText hname htext => exact h.append rfl rfl rfl rfl
  | access warnings hresolve hconversion => exact h.append rfl rfl rfl rfl
  | frame function => exact ⟨hrest, h.known, by simpa [Action.demandsFrame] using h.flag, h.code⟩
  | memory function => exact ⟨hrest, h.known, h.flag, h.code⟩

end Annotated

variable [VariableStore σ]

theorem fault_of_compile_ok {cfg : Setting} {scope : Option Scope} {source : String} {s : σ}
    {p : Program} (hp : (compile cfg scope source s).result = .ok p) :
    (Script.ofText cfg.dialect source).fault = none := by
  obtain ⟨w, hw, -, -⟩ := compile_ok hp
  simp only [interpret, bind_apply] at hw
  split at hw
  · cases hfault : (Script.ofText cfg.dialect source).fault with
    | none => rfl
    | some f =>
      rw [hfault] at hw
      cases hw
  · cases hw

/-- What a compiled program says and does about the frame is what its script demands and calls. -/
theorem compile_frameUse {cfg : Setting} (hplugins : cfg.plugins.Numbered) {scope : Option Scope}
    {source : String} {s : σ} {p : Program} (hp : (compile cfg scope source s).result = .ok p) :
    (∀ i ∈ p.code, (i.frameUse? cfg.plugins).isSome = true) ∧
      p.usesFrame = looksAtFrame cfg.plugins p.code ∧
      p.usesFrame = (Script.ofText cfg.dialect source).actions.any (·.demandsFrame) := by
  have hphrase : Phrase cfg.plugins (Script.ofText cfg.dialect source).actions :=
    Script.phrase_of_ofText hplugins (fault_of_compile_ok hp)
  -- at the start all is still to be done, in the end nothing is
  have hstart : Annotated cfg.plugins
      ((Script.ofText cfg.dialect source).actions.any (·.demandsFrame))
      ((Script.ofText cfg.dialect source).actions.any (·.callsFrame))
      (Script.ofText cfg.dialect source).actions (.start s scope) :=
    ⟨hphrase.marked, by simp [Workspace.start], rfl, rfl⟩
  have hend := interpret_compile (Q := fun _ _ => True) (fun _ _ _ _ _ h ha => h.compiled ha)
    (fun _ _ _ _ _ _ _ => trivial) (fun _ _ _ => trivial) source hstart
  obtain ⟨w, hw, -, rfl⟩ := compile_ok hp
  rw [hw] at hend
  obtain ⟨⟨-, hknown, hflag, hcode⟩, -⟩ := hend
  simp only [List.any_nil, Bool.or_false] at hflag hcode
  exact ⟨hknown, by rw [hflag, hcode, hphrase.demanded_iff_called], hflag⟩

end Compiling

/-! ## Checks -/

def Confined {σ : Type} (w w' : Workspace σ) : Prop := w' = { w with machine := w'.machine }

namespace Confined

variable {σ : Type}

theorem refl (w : Workspace σ) : Confined w w := rfl

theorem bind {α β : Type} {x : WorkM σ α} {f : α → WorkM σ β} (hx : Keeps Confined x)
    (hf : ∀ a, Keeps Confined (f a)) : Keeps Confined (x >>= f) := by
  refine Keeps.bind (R := Confined) (fun u v w huv hvw => ?_) hx hf
  unfold Confined at huv hvw ⊢
  rw [hvw, huv]

theorem pure {α : Type} (a : α) : Keeps Confined (Pure.pure a : WorkM σ α) := keeps_pure refl a

theorem throw {α : Type} (r : Refusal) : Keeps Confined (MonadExcept.throw r : WorkM σ α) :=
  keeps_throw refl r

theorem onMachine {α : Type} (x : MachineM σ α) : Keeps Confined (WorkM.onMachine x) := by
  intro w
  simp only [WorkM.onMachine]
  cases x w.machine <;> rfl

theorem locals (cfg : Setting) (mode : Mode) :
    Keeps Confined (WorkM.locals cfg mode : WorkM σ (Option Scope)) := by
  intro w
  obtain ⟨found, hfound⟩ := locals_ok cfg mode w
  rw [hfound]
  exact refl w

theorem dereference (cfg : Setting) (mode : Mode) (r : String) :
    Keeps Confined (SignalCalc.dereference cfg mode r : WorkM σ String) := by
  refine bind (locals cfg mode) fun found => ?_
  cases found with
  | none => exact throw _
  | some scope =>
    dsimp only
    cases scope.dereference? r with
    | none => exact throw _
    | some name => exact pure name

variable [VariableStore σ]

theorem emit (cfg : Setting) (strict : Bool) (i : Instruction) :
    Keeps Confined (SignalCalc.emit cfg (.check strict) i : WorkM σ Unit) :=
  bind (onMachine _) fun _ => pure ()

theorem checkVariable (cfg : Setting) (strict : Bool) (op : AccessOp) (name : String) :
    Keeps Confined (SignalCalc.checkVariable cfg strict op name : WorkM σ Unit) := by
  simp only [SignalCalc.checkVariable]
  split
  · exact pure _
  · refine bind (locals cfg _) fun scope => ?_
    refine bind (x := WorkM.store) refl fun s => ?_
    split
    · exact throw _
    · exact emit cfg strict _

end Confined

variable {σ : Type} [VariableStore σ]

/-- An action of a check that does not demand the frame works on the machine alone. -/
theorem perform_check_confined (cfg : Setting) (strict : Bool) {a : Action}
    (ha : a.demandsFrame = false) : Keeps Confined (perform cfg (.check strict) a : WorkM σ Unit) := by
  cases a with
  | push v => exact Confined.emit cfg strict _
  | operate op => exact Confined.emit cfg strict _
  | access op target =>
    refine Confined.bind ?_ fun name => Confined.checkVariable cfg strict op name
    cases target with
    | named name => exact Confined.pure name
    | reference r => exact Confined.dereference cfg _ r
  | follow r => exact Confined.bind (Confined.dereference cfg _ r) fun _ => Confined.pure _
  | demand d function =>
    cases d with
    | frame => cases ha
    | memory => exact Confined.throw _
    | immediate => exact Confined.pure _
  | invoke i count usesFrame =>
    cases usesFrame with
    | true => exact Confined.bind (Confined.onMachine _) fun _ => Confined.onMachine _
    | false => exact Confined.emit cfg strict i
  | enumText name text => exact Confined.checkVariable cfg strict .read name
  | query q subject => exact Confined.emit cfg strict _
  | compareText bounded ignoreCase left right =>
    refine Confined.bind ?_ fun v => Confined.emit cfg strict _
    obtain ⟨order, horder⟩ := textOrder_eq (σ := σ) (.check strict) bounded ignoreCase left right
    rw [horder]
    cases bounded with
    | false => exact Confined.pure _
    | true => exact Confined.bind (Confined.onMachine _) fun _ => Confined.pure _

theorem perform_check_usesFrame {cfg : Setting} {strict : Bool} {a : Action} {w w' : Workspace σ}
    (h : perform cfg (.check strict) a w = .ok () w') :
    w'.usesFrame = (w.usesFrame || a.demandsFrame) := by
  cases ha : a.demandsFrame with
  | false =>
    have hconfined := perform_check_confined cfg strict ha w
    rw [h] at hconfined
    rw [Bool.or_false, show w' = { w with machine := w'.machine } from hconfined]
  | true =>
    -- the only action of this kind sets the note, or is refused
    cases a with
    | demand d function =>
      cases d with
      | frame =>
        simp only [perform, meetDemand] at h
        split at h
        · cases h
        · cases h
          simp
      | memory | immediate => cases ha
    | push | operate | access | follow | invoke | enumText | query | compareText => cases ha

theorem performAll_check_usesFrame {cfg : Setting} {strict : Bool} {actions : List Action}
    {w w' : Workspace σ} (h : performAll cfg (.check strict) actions w = .ok () w') :
    w'.usesFrame = (w.usesFrame || actions.any (·.demandsFrame)) := by
  induction actions generalizing w with
  | nil =>
    cases h
    simp
  | cons a actions ih =>
    rw [performAll, bind_apply] at h
    cases hfirst : perform cfg (.check strict) a w with
    | error r v =>
      rw [hfirst] at h
      cases h
    | ok u v =>
      rw [hfirst] at h
      rw [ih h, perform_check_usesFrame hfirst, List.any_cons, Bool.or_assoc]

/-- What a check says about the frame is what the script demands. -/
theorem check_usesFrame {cfg : Setting} {strict : Bool} {scope : Option Scope} {source : String}
    {s : σ} {report : Report} (h : (check cfg strict scope source s).result = .ok report) :
    report.usesFrame = (Script.ofText cfg.dialect source).actions.any (·.demandsFrame) := by
  rw [check, Parser.read_eq_interpret, interpret, bind_apply] at h
  cases hall : performAll cfg (.check strict) (Script.ofText cfg.dialect source).actions
      (.start s scope) with
  | error r w =>
    rw [hall] at h
    cases h
  | ok u w =>
    have hflag := performAll_check_usesFrame hall
    rw [hall] at h
    cases hfault : (Script.ofText cfg.dialect source).fault with
    | some f =>
      rw [hfault] at h
      cases h
    | none =>
      rw [hfault] at h
      cases h
      simpa [Workspace.start] using hflag

/-! ## The flag -/

/-- The flag of a program is exact and means what it says. It is set exactly if some instruction is a
frame operation or calls a plugin that was registered as a user of the frame. A check of the same
equation that finds no fault, of any store and with any local variables, reports the same flag. If it
is not set, then the program, at any time of its life and with any plugins that were registered
since, does the same without a frame as on any frame: it gives the same result and leaves the same
store, stack and edge memories. -/
theorem frame_flag_exact {cfg : Setting} (hplugins : Registry.empty.Grown cfg.plugins)
    {scope : Option Scope} {source : String} {s : σ} {p : Program}
    (hp : (compile cfg scope source s).result = .ok p) :
    (p.usesFrame = true ↔ ∃ i ∈ p.code, i.frameUse? cfg.plugins = some true) ∧
      (∀ strict scope' (s' : σ) report, (check cfg strict scope' source s').result = .ok report →
        report.usesFrame = p.usesFrame) ∧
      (p.usesFrame = false → ∀ later, cfg.plugins.Grown later → later.Honest →
        ∀ q, Program.Descends later p q → ∀ (ctx : Context) (frame : Frame) (t : σ),
          q.run later { ctx with frame := some frame } t =
            q.run later { ctx with frame := none } t) := by
  obtain ⟨hknown, hlooks, hdemanded⟩ :=
    compile_frameUse (hplugins.numbered Registry.numbered_empty) hp
  refine ⟨?_, ?_, ?_⟩
  · rw [hlooks]
    simp [looksAtFrame]
  · intro strict scope' s' report hreport
    rw [check_usesFrame hreport, hdemanded]
  · intro hflag later hlater hhonest q hq ctx frame t
    -- compiled code calls no plugin that was unknown then, so none that joined later
    have hcode : ∀ i ∈ p.code, i.frameUse? later = some false := by
      intro i hi
      obtain ⟨u, hu⟩ := Option.isSome_iff_exists.mp (hknown i hi)
      cases u with
      | false => exact hlater.frameUse? hu
      | true =>
        rw [hlooks] at hflag
        have hno := List.any_eq_false.mp hflag i hi
        simp [hu] at hno
    exact q.run_frame hhonest (hq.frameUse? hcode) ctx (some frame) none t

/-- With the sample plugins registered: a program that reads a byte of the frame says so, and so
does a check; one that detects an edge says that it does not, and does the same on every frame. -/
theorem frame_flag_exact_edge :
    (∃ p, (compile { options := { frameFunctions := true }, plugins := Plugin.Samples.registry } none
        "canbyte(0)+1" ({} : MemoryStore)).result = .ok p ∧
      (∃ i ∈ p.code, i.frameUse? Plugin.Samples.registry = some true) ∧
      ∃ report, (check { options := { frameFunctions := true }, plugins := Plugin.Samples.registry }
        true none "canbyte(0)+1" ({} : MemoryStore)).result = .ok report ∧
        report.usesFrame = p.usesFrame) ∧
    ∃ p, (compile { plugins := Plugin.Samples.registry } none "slope_up(2)"
        ({} : MemoryStore)).result = .ok p ∧ p.usesFrame = false ∧
      ∀ frame : Frame, p.run Plugin.Samples.registry { frame := some frame } ({} : MemoryStore) =
        p.run Plugin.Samples.registry { frame := none } ({} : MemoryStore) := by
  have hbyte : ((compile
      { options := { frameFunctions := true }, plugins := Plugin.Samples.registry } none
      "canbyte(0)+1" ({} : MemoryStore)).result.toOption.map (·.usesFrame)) = some true := by
    decide +kernel
  have hcheck : ((check
      { options := { frameFunctions := true }, plugins := Plugin.Samples.registry } true none
      "canbyte(0)+1" ({} : MemoryStore)).result.toOption.map (·.usesFrame)) = some true := by
    decide +kernel
  have hedge : ((compile { plugins := Plugin.Samples.registry } none "slope_up(2)"
      ({} : MemoryStore)).result.toOption.map (·.usesFrame)) = some false := by
    decide +kernel
  have hgrown := Plugin.Samples.registry_grown
  have hhonest := Plugin.Samples.registry_honest
  -- what the samples are does not matter from here on
  generalize Plugin.Samples.registry = plugins at *
  constructor
  · obtain ⟨p, hp, hyes⟩ := result_of_toOption hbyte
    obtain ⟨report, hreport, -⟩ := result_of_toOption hcheck
    have hflag := frame_flag_exact hgrown hp
    exact ⟨p, hp, hflag.1.mp hyes, report, hreport, hflag.2.1 true none {} report hreport⟩
  · obtain ⟨p, hp, hno⟩ := result_of_toOption hedge
    have hflag := frame_flag_exact hgrown hp
    exact ⟨p, hp, hno, fun frame => hflag.2.2 hno _ .self hhonest p .self {} frame {}⟩

end SignalCalc
