import SignalCalc.Proofs.Equation.Supply
import SignalCalc.Proofs.Script.Calls

/-! # Calls and the resolver

Hosts can ask which operation the name of a function stands for, and whether it takes so many
arguments. The answer agrees with what becomes of the text of a call, whatever the arguments are, as
long as each of them can be compiled by itself.
-/

namespace SignalCalc

open MemoryStore

/-! ## The resolver -/

def Tabled (name : String) : Prop := ∃ b ∈ Builtin.table, b.name = name

def Irregular (name : String) : Prop := ∃ row ∈ Special.table, row.1 = name

def Registry.Registered (r : Registry) (name : String) : Prop := ∃ p ∈ r.plugins, p.name = name

section Resolver

variable {plugins : Registry} {name : String}

theorem tabled_iff : Tabled name ↔ (Builtin.lookup? name).isSome = true := by
  simp [Tabled, Builtin.lookup?]

theorem irregular_iff : Irregular name ↔ (Special.lookup? name).isSome = true := by
  simp [Irregular, Special.lookup?, Special.row?]

theorem Registry.Regular.registered_iff (hr : plugins.Regular) :
    plugins.Registered name ↔ (plugins.lookup? name).isSome = true := by
  simp only [Registry.Registered, Option.isSome_iff_exists, hr.lookup?_eq_some_iff]

/-- The two accounts of a plugin's arguments: no plugin takes more than calls can have. -/
theorem Plugin.Lawful.accepts_eq {p : Plugin} (h : p.Lawful) (count : Nat) :
    p.accepts count = p.arity.admits count := by
  have hbounded := h.bounded
  unfold Plugin.accepts Plugin.arity Arity.admits
  split
  · next heq =>
    rw [Bool.eq_iff_iff]
    simp only [Arity.accepts, heq, Bool.and_eq_true, decide_eq_true_eq]
    omega
  · rw [Bool.eq_iff_iff]
    simp only [Arity.accepts, Bool.and_eq_true, decide_eq_true_eq]
    omega

/-- What the resolver says of a function with a signature. -/
theorem resolveFunction?_signature (hr : plugins.Regular) {f : Signature}
    (hf : plugins.signature? name = some f) (count : Nat) :
    resolveFunction? plugins name count =
      some ((f.instruction count).operation.id, f.arity.admits count) := by
  unfold resolveFunction?
  obtain ⟨b, hb, rfl⟩ | ⟨hb, hs, p, hp, rfl⟩ := Registry.signature?_cases hf
  · rw [hb]
    rfl
  · have hrow : Special.row? name = none := Option.map_eq_none_iff.mp hs
    rw [hb, hrow, hp]
    simp only [Option.map_some, (hr.lawful p (hr.lookup?_eq_some_iff.mp hp).1).accepts_eq]
    rfl

/-- It knows the names of the three tiers. -/
theorem resolveFunction?_eq_none_iff (hr : plugins.Regular) (count : Nat) :
    resolveFunction? plugins name count = none ↔
      ¬Tabled name ∧ ¬Irregular name ∧ ¬plugins.Registered name := by
  rw [tabled_iff, irregular_iff, hr.registered_iff]
  unfold resolveFunction? Special.lookup?
  cases Builtin.lookup? name with
  | some b => simp
  | none =>
    cases Special.row? name with
    | some row => simp
    | none => cases plugins.lookup? name <;> simp

theorem isSome_signature?_iff (hr : plugins.Regular) :
    (plugins.signature? name).isSome = true ↔ Tabled name ∨ plugins.Registered name := by
  rw [tabled_iff, hr.registered_iff]
  unfold Registry.signature?
  cases hb : Builtin.lookup? name with
  | some b => simp
  | none =>
    cases hp : plugins.lookup? name with
    | none => simp
    | some p =>
      -- no plugin has the name of a function that reads its own argument text
      obtain ⟨hmem, rfl⟩ := hr.lookup?_eq_some_iff.mp hp
      have hreserved := (hr.lawful p hmem).unreserved
      simp only [isReserved, Bool.or_eq_false_iff] at hreserved
      simp [hreserved.2]

end Resolver

/-! ## Compiling a call -/

/-- A program may call the function: the frame is enabled, or the function does not look at it. -/
def GateOpen (cfg : Setting) (name : String) : Prop :=
  cfg.options.frameFunctions = true ∨
    (∀ b ∈ Builtin.table, b.name = name → b.gate ≠ .frame) ∧
      ∀ p ∈ cfg.plugins.plugins, p.name = name → p.usesFrame = false

section Compile

variable {cfg : Setting} {scope : Option Scope} {name : String} {texts : List String}
  {s : MemoryStore}

theorem GateOpen.frameFunctions (h : GateOpen cfg name) (hr : cfg.plugins.Regular) {f : Signature}
    (hf : cfg.plugins.signature? name = some f) (hframe : f.gate = .frame) :
    cfg.options.frameFunctions = true := by
  obtain henabled | ⟨hbuiltins, hplugins⟩ := h
  · exact henabled
  · exfalso
    obtain ⟨b, hb, rfl⟩ | ⟨-, -, p, hp, rfl⟩ := Registry.signature?_cases hf
    · exact hbuiltins b (List.mem_of_find?_eq_some hb) (Builtin.name_of_lookup? hb) hframe
    · obtain ⟨hmem, hname⟩ := hr.lookup?_eq_some_iff.mp hp
      simp [Plugin.signature, hplugins p hmem hname] at hframe

/-- An open gate changes nothing that the rest of the call depends on. -/
theorem performAll_gate {gate : Gate} (h : gate = .frame → cfg.options.frameFunctions = true)
    (function : String) (w : Workspace MemoryStore) :
    ∃ w', performAll cfg .compile (gate.actions function) w = .ok () w' ∧
      w'.machine.store = w.machine.store := by
  cases gate with
  | anywhere | stateful => exact ⟨w, rfl, rfl⟩
  | frame =>
    refine ⟨{ w with usesFrame := true }, ?_, rfl⟩
    simp [Gate.actions, Gate.demand?, performAll, perform, meetDemand, h rfl]
    rfl

/-- The end of a call: its instruction comes last. -/
theorem performAll_invoke (cfg : Setting) (vs : List Value) (i : Instruction) (count : Nat)
    (usesFrame : Bool) (w : Workspace MemoryStore) :
    ∃ w', performAll cfg .compile (vs.map .push ++ [.invoke i count usesFrame]) w = .ok () w' ∧
      w'.code.getLast? = some i := by
  induction vs generalizing w with
  | nil =>
    refine ⟨{ w with code := w.code ++ [i] }, ?_, by simp⟩
    cases usesFrame <;> rfl
  | cons v vs ih => exact ih { w with code := w.code ++ [.literal v] }

theorem performed_of_compiles {source : String}
    (h : ∃ p, (compile cfg scope source s).result = .ok p) :
    (∃ w, performAll cfg .compile (Script.ofText cfg.dialect source).actions (.start s scope) =
      .ok () w) ∧ (Script.ofText cfg.dialect source).fault = none := by
  obtain ⟨p, hp⟩ := h
  obtain ⟨w, hw, hfault, -⟩ := compile_performed hp
  exact ⟨⟨w, hw⟩, hfault⟩

theorem compile_call (hs : s.WellFormed) (hr : cfg.plugins.Regular)
    (hname : isVariableName name.toList = true) (hgate : GateOpen cfg name)
    (htexts : ∀ text ∈ texts, ∃ p, (compile cfg scope text s).result = .ok p) {f : Signature}
    (hf : cfg.plugins.signature? name = some f) (h : f.arity.admits texts.length = true) :
    ∃ p, (compile cfg scope (callText name texts) s).result = .ok p ∧
      p.code.getLast? = some (f.instruction texts.length) := by
  have hfault := fun text htext => (performed_of_compiles (htexts text htext)).2
  have hargs := fun text htext => (performed_of_compiles (htexts text htext)).1
  obtain ⟨w₁, hw₁, hstore⟩ := performAll_gate (hgate.frameFunctions hr hf) name (.start s scope)
  have hsupplied : Supplied s w₁.machine.store := by
    rw [hstore]
    exact .refl s
  obtain ⟨w₂, hw₂⟩ := performAll_supplied_flatMap (w := .start s scope) (v := w₁)
    (fun text _ => (Script.ofText_disciplined cfg.dialect text).guarded) hs hargs
    (by rw [hstore]; exact hs) hsupplied
  obtain ⟨w₃, hw₃, hlast⟩ := performAll_invoke cfg (f.filling texts.length)
    (f.instruction texts.length) texts.length f.usesFrame w₂
  have hperform : performAll cfg .compile (f.actions name texts.length
      (texts.flatMap fun text => (Script.ofText cfg.dialect text).actions)) (.start s scope) =
      .ok () w₃ := by
    rw [Signature.actions, performAll_append, bind_apply, hw₁]
    dsimp only
    rw [performAll_append, bind_apply, hw₂]
    exact hw₃
  have hscript := Script.ofText_call hname hfault (show cfg.dialect.plugins.signature? name = some f
    from hf) h
  obtain ⟨p, hp, hcode, -⟩ := compile_of_performed hscript hperform
  exact ⟨p, hp, hcode ▸ hlast⟩

/-- An equation with a fault and nothing before it is refused for the fault. -/
theorem compile_fault {source : String} {fault : SourceFault}
    (h : Script.ofText cfg.dialect source = ⟨[], some fault⟩) :
    ∃ e, (compile cfg scope source s).result = .error e ∧ e.refusal = fault.refusal := by
  have hinterpret : interpret cfg .compile (.ofText cfg.dialect source) (.start s scope) =
      .error fault.refusal (.start s scope) := by
    rw [h]
    rfl
  rw [compile, Parser.read_eq_interpret, hinterpret]
  exact ⟨_, rfl, rfl⟩

/-- Only the text of an equation makes the compiler refuse it for an unknown function. -/
theorem fault_of_unknown {source : String} {e : EquationError}
    (h : (compile cfg scope source s).result = .error e) {x : String}
    (hrefusal : e.refusal = .text (.unknownFunction x)) :
    (Script.ofText cfg.dialect source).fault = some (.text (.unknownFunction x)) := by
  obtain ⟨w, hw, -⟩ := compile_error h
  rw [hrefusal, interpret, bind_apply] at hw
  have hscript := Script.ofText_disciplined cfg.dialect source
  -- no action is refused for a name that is unknown, so that it is the fault at the end
  have hstop : ∀ a (rest : List Action) (w : Workspace MemoryStore) r w', True →
      Refused cfg w a r w' → r ≠ .text (.unknownFunction x) := by
    rintro a rest w r w' - hrefused rfl
    cases hrefused
  have hall := performAll_compile (P := fun _ _ => True) (fun _ _ _ _ _ _ _ => trivial) hstop
    hscript.listed hscript.guarded (w := .start s scope) trivial
  cases hperform : performAll cfg .compile (Script.ofText cfg.dialect source).actions
      (.start s scope) with
  | error r w' =>
    rw [hperform] at hw hall
    cases hw
    exact absurd rfl hall
  | ok u w' =>
    rw [hperform] at hw
    cases hfault : (Script.ofText cfg.dialect source).fault with
    | none =>
      rw [hfault] at hw
      cases hw
    | some fault =>
      rw [hfault] at hw
      cases fault with
      | text fault =>
        cases hw
        rfl
      | arity function expected got => cases hw

/-- Without a signature, a name is unknown to the compiler exactly if it is to the resolver. -/
theorem compile_call_unknown_iff (hr : cfg.plugins.Regular)
    (hname : isVariableName name.toList = true)
    (htexts : ∀ text ∈ texts, (Script.ofText cfg.dialect text).fault = none)
    (hf : cfg.plugins.signature? name = none) :
    (∃ e, (compile cfg scope (callText name texts) s).result = .error e ∧
      e.refusal = .text (.unknownFunction name)) ↔
      resolveFunction? cfg.plugins name texts.length = none := by
  rw [resolveFunction?_eq_none_iff hr, tabled_iff, irregular_iff, hr.registered_iff]
  unfold Registry.signature? at hf
  cases hb : Builtin.lookup? name with
  | some b => simp [hb] at hf
  | none =>
    cases hs : Special.lookup? name with
    | some special =>
      have hspecial := Script.ofText_call_special hname htexts hb hs name
      simpa using fun e he hrefusal => hspecial (fault_of_unknown he hrefusal)
    | none =>
      have hp : cfg.plugins.lookup? name = none := by simpa [hb, hs] using hf
      have hrefused : ∃ e, (compile cfg scope (callText name texts) s).result = .error e ∧
          e.refusal = .text (.unknownFunction name) :=
        compile_fault (Script.ofText_call_unknown hname htexts hb hs hp)
      simpa [hp] using hrefused

end Compile

end SignalCalc
