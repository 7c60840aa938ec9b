import SignalCalc.Proofs.Equation.Outcome
import SignalCalc.Proofs.Script.Descent
import SignalCalc.Proofs.Store.Sight

/-! # Compiling expressions

Every expression, in its written form, compiles to the instructions of its tree in post-order. With
the descent behind it, what is left is the compiler's part: no action of an expression is refused
where missing variables are created, and every name stands for one variable from its first access on.
-/

namespace SignalCalc

open MemoryStore

/-! ## Actions and their code -/

/-- Work that has added the code of some names, whatever variables they turn out to be. -/
structure Emitted (names : List String) (code : (String → VarId) → List Instruction)
    (w w' : Workspace MemoryStore) : Prop where
  keeps : KeepsNames w.machine.store w'.machine.store
  found : ∀ name ∈ names, ∃ id, w'.machine.store.lookup name = some id
  code : ∀ ids, (∀ name ∈ names, w'.machine.store.lookup name = some (ids name)) →
    w'.code = w.code ++ code ids

def Emits (cfg : Setting) (actions : List Action) (names : List String)
    (code : (String → VarId) → List Instruction) : Prop :=
  ∀ w : Workspace MemoryStore, ∃ w', performAll cfg .compile actions w = .ok () w' ∧
    Emitted names code w w'

section Emits

variable {cfg : Setting}

theorem Emitted.trans {names names' : List String}
    {code code' : (String → VarId) → List Instruction} {w₁ w₂ w₃ : Workspace MemoryStore}
    (h : Emitted names code w₁ w₂) (h' : Emitted names' code' w₂ w₃) :
    Emitted (names ++ names') (fun ids => code ids ++ code' ids) w₁ w₃ where
  keeps := h.keeps.trans h'.keeps
  found name hname := by
    obtain hfirst | hsecond := List.mem_append.mp hname
    · obtain ⟨id, hid⟩ := h.found name hfirst
      exact ⟨id, h'.keeps name id hid⟩
    · exact h'.found name hsecond
  code ids hids := by
    -- a name of the first part had its variable before the second
    have hfirst : ∀ name ∈ names, w₂.machine.store.lookup name = some (ids name) := by
      intro name hname
      obtain ⟨id, hid⟩ := h.found name hname
      have hlast := hids name (List.mem_append_left names' hname)
      rw [h'.keeps name id hid] at hlast
      rw [hid, hlast]
    rw [h'.code ids fun name hname => hids name (List.mem_append_right names hname),
      h.code ids hfirst, List.append_assoc]

theorem emits_nil : Emits cfg [] [] fun _ => [] := fun w =>
  ⟨w, rfl, KeepsNames.refl _, by simp, by simp⟩

theorem Emits.append {first second : List Action} {names names' : List String}
    {code code' : (String → VarId) → List Instruction} (h : Emits cfg first names code)
    (h' : Emits cfg second names' code') :
    Emits cfg (first ++ second) (names ++ names') fun ids => code ids ++ code' ids := by
  intro w
  obtain ⟨w₁, hfirst, hemitted⟩ := h w
  obtain ⟨w₂, hsecond, hemitted'⟩ := h' w₁
  refine ⟨w₂, ?_, hemitted.trans hemitted'⟩
  rw [performAll_append, bind_apply, hfirst]
  exact hsecond

/-- Only which names there are matters. -/
theorem Emits.congr {actions : List Action} {names names' : List String}
    {code : (String → VarId) → List Instruction} (h : Emits cfg actions names code)
    (hnames : ∀ name, name ∈ names' ↔ name ∈ names) : Emits cfg actions names' code := by
  intro w
  obtain ⟨w', hperform, hemitted⟩ := h w
  refine ⟨w', hperform, hemitted.keeps,
    fun name hname => hemitted.found name ((hnames name).mp hname), ?_⟩
  exact fun ids hids => hemitted.code ids fun name hname => hids name ((hnames name).mpr hname)

theorem emits_instruction {a : Action} {i : Instruction}
    (h : ∀ w : Workspace MemoryStore,
      perform cfg .compile a w = .ok () { w with code := w.code ++ [i] }) :
    Emits cfg [a] [] fun _ => [i] := by
  intro w
  refine ⟨{ w with code := w.code ++ [i] }, ?_, KeepsNames.refl _, by simp, by simp⟩
  simp only [performAll, bind_apply, h w]
  rfl

theorem emits_push (v : Value) : Emits cfg [.push v] [] fun _ => [.literal v] :=
  emits_instruction fun _ => rfl

theorem emits_operate (op : Opcode) : Emits cfg [.operate op] [] fun _ => [.plain op] :=
  emits_instruction fun _ => rfl

theorem emits_invoke (i : Instruction) (count : Nat) :
    Emits cfg [.invoke i count false] [] fun _ => [i] :=
  emits_instruction fun _ => rfl

/-- An access without a conversion finds its variable, or creates it. -/
theorem emits_access (hmissing : cfg.options.missing = .autoCreate) {op : AccessOp}
    (hop : op.isPhysical = false) (name : String) :
    Emits cfg [.access op (.named name)] [name] fun ids => [.access op (ids name)] := by
  intro w
  have hpolicy : op.policy cfg.options.missing = .createIfMissing := by
    rw [hmissing]
    cases op <;> rfl
  have hbind := bindVariable_cases cfg op name w
  cases hresult : bindVariable cfg op name w with
  | error r w' =>
    rw [hresult] at hbind
    -- a missing variable is created, and only the physical accesses convert
    cases hbind with
    | unresolved hresolve =>
      obtain ⟨-, hmust, -⟩ := resolve_error hresolve
      rw [hpolicy] at hmust
      cases hmust
    | unconverted warnings hresolve hphysical hconversion =>
      rw [hop] at hphysical
      cases hphysical
  | ok u w' =>
    have hperform : perform cfg .compile (.access op (.named name)) w = .ok u w' := hresult
    rw [hresult] at hbind
    cases hbind with
    | @access _ _ b t warnings hresolve _ =>
      obtain ⟨hname, hkeeps⟩ := lookup_of_resolve hresolve
      refine ⟨w.bound op b.id t warnings, ?_, hkeeps, ?_, ?_⟩
      · simp only [performAll, bind_apply, hperform]
        rfl
      · intro x hx
        rw [List.mem_singleton.mp hx]
        exact ⟨b.id, hname⟩
      · intro ids hids
        have hid : b.id = ids name := Option.some.inj (hname.symm.trans (hids name (by simp)))
        rw [← hid]
        rfl

end Emits

/-! ## Expressions -/

namespace Expr

variable {cfg : Setting}

theorem emits_arguments {n : Nat} {args : Fin n → Expr}
    (h : ∀ i, Emits cfg (args i).actions (args i).names fun ids => (args i).code ids) :
    Emits cfg (List.ofFn fun i => (args i).actions).flatten
      (List.ofFn fun i => (args i).names).flatten
      fun ids => (List.ofFn fun i => (args i).code ids).flatten := by
  induction n with
  | zero => exact emits_nil
  | succ n ih =>
    simp only [List.ofFn_succ, List.flatten_cons]
    exact (h 0).append (ih fun i => h i.succ)

theorem emits_unary {e : Expr} (h : Emits cfg e.actions e.names fun ids => e.code ids)
    (op : UnaryOp) :
    Emits cfg (unary op e).actions (unary op e).names fun ids => (unary op e).code ids := by
  cases op with
  | plus => exact h
  | not =>
    have hnot := h.append (emits_operate (.logic .not))
    rwa [List.append_nil] at hnot
  | minus =>
    simp only [actions, code]
    cases hneg : e.negated? with
    | none =>
      have hminus := h.append (emits_operate (.arithmetic .neg))
      rwa [List.append_nil] at hminus
    | some v =>
      cases e with
      | literal n => exact emits_push v
      | name | unary | binary | call | assign => cases hneg

theorem emits_call (f : FreeFunction) {n : Nat} (hn : f.builtin.arity.admits n = true)
    {args : Fin n → Expr}
    (h : ∀ i, Emits cfg (args i).actions (args i).names fun ids => (args i).code ids) :
    Emits cfg (call f hn args).actions (call f hn args).names fun ids =>
      (call f hn args).code ids := by
  have htolerance : Emits cfg
      (if f.builtin.op = .math .near ∧ n = 2 then [.push (.ofFloat 0.0)] else []) []
      fun _ => if f.builtin.op = .math .near ∧ n = 2 then [.literal (.ofFloat 0.0)] else [] := by
    by_cases hnear : f.builtin.op = .math .near ∧ n = 2
    · simpa only [hnear, and_self, if_true] using emits_push (.ofFloat 0.0)
    · simpa only [hnear, if_false] using emits_nil
  have hcall := ((emits_arguments h).append htolerance).append
    (emits_invoke (f.builtin.instruction n) n)
  rwa [List.append_nil, List.append_nil] at hcall

theorem emits_assign (hmissing : cfg.options.missing = .autoCreate) {e : Expr}
    (h : Emits cfg e.actions e.names fun ids => e.code ids) (sign : AssignOp) (x : Name) :
    Emits cfg (assign sign x e).actions (assign sign x e).names
      fun ids => (assign sign x e).code ids := by
  have hread := @emits_access cfg hmissing .read rfl x.text
  have hwrite := @emits_access cfg hmissing .write rfl x.text
  cases hcombine : sign.combine? with
  | none => simpa [actions, names, code, hcombine] using h.append hwrite
  | some op =>
    have hchange := ((hread.append (emits_operate (.stack .swap))).append (emits_operate op)).append
      hwrite
    -- the target is accessed twice, and stands in the list of names once
    have hnames : ∀ name, name ∈ e.names ++ [x.text] ↔
        name ∈ e.names ++ ([x.text] ++ [] ++ [] ++ [x.text]) := by simp
    simpa [actions, names, code, hcombine] using (h.append hchange).congr hnames

/-- The actions of an expression add its code. -/
theorem emits (hmissing : cfg.options.missing = .autoCreate) (e : Expr) :
    Emits cfg e.actions e.names fun ids => e.code ids := by
  induction e with
  | literal n => exact emits_push _
  | name x => exact emits_access hmissing rfl x.text
  | unary op e ih => exact emits_unary ih op
  | binary op l r ihl ihr =>
    have hbinary := (ihl.append ihr).append (emits_operate op.opcode)
    rwa [List.append_nil] at hbinary
  | call f h args ih => exact emits_call f h ih
  | assign sign x e ih => exact emits_assign hmissing ih sign x

end Expr

/-- A written expression compiles, where missing variables are created, and what it compiles to are
the instructions of its tree in post-order. Each name in them is the variable of that name in the
store; names that had a variable before keep it. -/
theorem compile_postorder {cfg : Setting} (hmissing : cfg.options.missing = .autoCreate)
    (scope : Option Scope) (e : Expr) (s : MemoryStore) :
    ∃ p ids, (compile cfg scope e.text s).result = .ok p ∧ p.code = e.code ids ∧
      (∀ name ∈ e.names, (compile cfg scope e.text s).store.lookup name = some (ids name)) ∧
      ∀ name id, s.lookup name = some id →
        (compile cfg scope e.text s).store.lookup name = some id := by
  obtain ⟨w, hperform, hemitted⟩ := e.emits hmissing (.start s scope)
  have hinterpret : interpret cfg .compile (.ofText cfg.dialect e.text) (.start s scope) =
      .ok () w := by
    rw [Script.ofText_text, interpret, bind_apply, hperform]
    rfl
  -- the names are looked up when all of them have their variables
  let ids (name : String) : VarId := (w.machine.store.lookup name).getD ⟨0⟩
  have hids : ∀ name ∈ e.names, w.machine.store.lookup name = some (ids name) := by
    intro name hname
    obtain ⟨id, hid⟩ := hemitted.found name hname
    simp [ids, hid]
  have hcode : w.code = e.code ids := hemitted.code ids hids
  rw [compile, Parser.read_eq_interpret, hinterpret]
  exact ⟨_, ids, rfl, hcode, hids, hemitted.keeps⟩

/-- A compound assignment with parentheses on its right-hand side. -/
theorem compile_postorder_compound :
    let x : Name := ⟨['x'], rfl⟩
    let y : Name := ⟨['y'], rfl⟩
    let e : Expr := .assign .add x
      (.binary .mul (.unary .minus (.literal 2)) (.binary .sub (.name y) (.literal 1)))
    e.text = "x += - 2 * ( y - 1 )" ∧
      ∃ (p : Program) (ids : String → VarId),
        (compile {} none e.text ({} : MemoryStore)).result = .ok p ∧
        p.code = [.literal ⟨.signed (-2), 4⟩, .access .read (ids "y"), .literal ⟨.signed 1, 4⟩,
          .plain (.arithmetic .sub), .plain (.arithmetic .mul), .access .read (ids "x"),
          .plain (.stack .swap), .plain (.arithmetic .add), .access .write (ids "x")] := by
  intro x y e
  obtain ⟨p, ids, hp, hcode, -⟩ := @compile_postorder {} rfl none e {}
  exact ⟨rfl, p, ids, hp, hcode⟩

end SignalCalc
