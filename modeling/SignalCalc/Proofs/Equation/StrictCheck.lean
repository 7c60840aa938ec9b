import SignalCalc.Proofs.Equation.Footprint
import SignalCalc.Proofs.Equation.Modes
import SignalCalc.Proofs.Store.Sight

/-! # Strict checks

A strict check refuses an equation that reads a variable which is not there. What it is worth: an
evaluation of an equation that it accepts does not miss a variable, as long as the equation takes
from the store nothing that only the script has. A check takes a variable of the script for a
variable under every access, an evaluation under plain reads and writes only.
-/

namespace SignalCalc

open MemoryStore WorkM

/-! ## Names of the script -/

def Scope.has (scope : Scope) (name : String) : Bool := (scope.read? name).isSome

def Scope.outline (scope : Scope) : Scope :=
  { scope with values := scope.values.map fun (name, _) => (name, default) }

theorem Scope.has_outline (scope : Scope) (name : String) :
    scope.outline.has name = scope.has name := by
  simp [Scope.has, Scope.read?, Scope.outline, List.find?_map, Function.comp_def]

theorem Scope.outline_write? {scope scope' : Scope} {name : String} {v : Value}
    (h : scope.write? name v = some scope') : scope'.outline = scope.outline := by
  simp only [Scope.write?] at h
  split at h
  · cases h
    simp only [Scope.outline, List.map_map, Scope.mk.injEq, and_true]
    apply List.map_congr_left
    intro entry _
    by_cases hname : entry.1 = name <;> simp [hname]
  · cases h

/-- The name of a target, where references are followed in some local variables. -/
def Target.name? (locals : Option Scope) : Target → Option String
  | .named name => some name
  | .reference r => locals.bind (·.dereference? r)

def Action.reference? : Action → Option String
  | .access _ (.reference r) => some r
  | .follow r => some r
  | _ => none

/-- The variable that an action reads from the store even if the script has one of that name: for a
physical value, for raw bits, or for an enumeration text. -/
def Action.storeRead? (locals : Option Scope) : Action → Option String
  | .access op target => if op.writes || op = .read then none else target.name? locals
  | .enumText name _ => some name
  | _ => none

def Setting.storeReads (cfg : Setting) (scope : Option Scope) (source : String) : List String :=
  (Script.ofText cfg.dialect source).actions.filterMap (·.storeRead? (cfg.locals? scope))

/-- An action that reads what is not there: it follows a reference that points nowhere, or it reads
a variable that neither the script nor the store has, or one that it takes from the store and that
the store does not have. -/
inductive Unread (locals : Option Scope) (s : MemoryStore) : Action → Prop where
  | dangling {a : Action} {r : String} (ha : a.reference? = some r)
      (h : locals.map (·.dereference? r) = some none) : Unread locals s a
  | plain {target : Target} {name : String} (htarget : target.name? locals = some name)
      (hlocal : locals.any (·.has name) = false) (hstore : s.lookup name = none) :
      Unread locals s (.access .read target)
  | stored {a : Action} {name : String} (ha : a.storeRead? locals = some name)
      (hstore : s.lookup name = none) : Unread locals s a

theorem Target.name?_outline (locals : Option Scope) (target : Target) :
    target.name? (locals.map Scope.outline) = target.name? locals := by
  cases locals <;> cases target <;> rfl

theorem Action.storeRead?_outline (locals : Option Scope) (a : Action) :
    a.storeRead? (locals.map Scope.outline) = a.storeRead? locals := by
  cases a <;> simp [Action.storeRead?, Target.name?_outline]

/-- Only the names that the script and the store have matter. -/
theorem Unread.mono {locals locals' : Option Scope} {s s' : MemoryStore} {a : Action}
    (hlocals : locals'.map Scope.outline = locals.map Scope.outline) (hs : KeepsNames s s')
    (h : Unread locals' s' a) : Unread locals s a := by
  have hmissing : ∀ {name}, s'.lookup name = none → s.lookup name = none := by
    intro name hnone
    cases hname : s.lookup name with
    | none => rfl
    | some id =>
      rw [hs name id hname] at hnone
      cases hnone
  cases h with
  | @dangling _ r ha h =>
    have hsame := congrArg (Option.map (·.dereference? r)) hlocals
    simp only [Option.map_map] at hsame
    exact .dangling ha (hsame.symm.trans h)
  | @plain target name htarget hlocal hstore =>
    rw [← Target.name?_outline, hlocals, Target.name?_outline] at htarget
    have hsame := congrArg (Option.any (·.has name)) hlocals
    simp only [Option.any_map, Scope.has_outline] at hsame
    exact .plain htarget (hsame.symm.trans hlocal) (hmissing hstore)
  | stored ha hstore =>
    rw [← Action.storeRead?_outline, hlocals, Action.storeRead?_outline] at ha
    exact .stored ha (hmissing hstore)

/-! ## References -/

section Targets

variable {cfg : Setting} {mode : Mode} {w w' : Workspace MemoryStore}

theorem targetName_ok (hmode : mode ≠ .compile) {target : Target} {name : String}
    (h : targetName cfg mode target w = .ok name w') :
    target.name? (cfg.locals? w.scope) = some name ∧ w' = w := by
  cases target with
  | named known =>
    cases h
    exact ⟨rfl, rfl⟩
  | reference r =>
    simp only [targetName, dereference_eq hmode] at h
    simp only [Target.name?]
    cases hlocals : cfg.locals? w.scope with
    | none =>
      rw [hlocals] at h
      cases h
    | some scope =>
      rw [hlocals] at h
      dsimp only [Option.map_some] at h
      cases hname : scope.dereference? r with
      | none =>
        rw [hname] at h
        cases h
      | some found =>
        rw [hname] at h
        cases h
        exact ⟨hname, rfl⟩

end Targets

/-! ## Evaluations -/

def Refusal.isMissedRead : Refusal → Bool
  | .binding .read _ => true
  | _ => false

/-- Work that does not miss a variable that it reads. -/
def Finds {α : Type} (x : WorkM MemoryStore α) : Prop :=
  Raises (fun _ => True) (fun r => r.isMissedRead = false) x

section Finds

variable {cfg : Setting} {w w' : Workspace MemoryStore} {r : Refusal}

theorem Finds.bind {α β : Type} {x : WorkM MemoryStore α} {f : α → WorkM MemoryStore β}
    (hx : Finds x) (hf : ∀ a, Finds (f a)) : Finds (x >>= f) := Raises.bind hx hf

/-- A missed read is no refusal of such work. -/
theorem Finds.absurd {α : Type} {x : WorkM MemoryStore α} (hx : Finds x) (h : x w = .error r w')
    (hr : r.isMissedRead = true) {P : Prop} : P := by
  have hnot := hx w trivial
  rw [h] at hnot
  cases hr.symm.trans hnot

theorem emit_finds (i : Instruction) : Finds (emit cfg .direct i) :=
  emit_raises (Q := fun _ => True) (fun _ => rfl) cfg .direct i

theorem checkConversion_finds (op : AccessOp) (id : VarId) (name : String) :
    Finds (checkConversion op id name) :=
  checkConversion_raises (Q := fun _ => True) (fun _ => rfl) op id name

theorem findVariable_finds {op : AccessOp} (hop : op.writes = true) (name : String) :
    Finds (findVariable cfg op name) := by
  intro w _
  cases hresolve : VariableStore.resolve name cfg.options.missing.writePolicy cfg.options.owner
      w.machine.store with
  | ok b t =>
    rw [findVariable_write_ok hop hresolve]
    trivial
  | error e t =>
    rw [findVariable_write_error hop hresolve]
    rfl

theorem accessLocal_finds (op : AccessOp) (name : String) : Finds (accessLocal cfg op name) :=
  accessLocal_raises (fun _ => rfl) cfg op name

theorem accessLocal_false {op : AccessOp} {name : String}
    (h : accessLocal cfg op name w = .ok false w') (hop : op.writes = false) :
    w' = w ∧ (op = .read → (cfg.locals? w.scope).any (·.has name) = false) := by
  rw [accessLocal, bind_apply, locals_eq (by simp)] at h
  cases hlocals : cfg.locals? w.scope with
  | none =>
    rw [hlocals] at h
    cases h
    exact ⟨rfl, fun _ => rfl⟩
  | some scope =>
    rw [hlocals] at h
    dsimp only at h
    cases op with
    | read =>
      dsimp only at h
      cases hread : scope.read? name with
      | none =>
        rw [hread] at h
        cases h
        exact ⟨rfl, fun _ => by simp [Scope.has, hread]⟩
      | some v =>
        -- the value was there, and the answer would have been yes
        rw [hread] at h
        simp only [bind_apply] at h
        split at h
        · cases h
        · cases h
    | write | writePhysical | writeBits => cases hop
    | readPhysical | readBits | invertedBits =>
      cases h
      exact ⟨rfl, fun hread => by cases hread⟩

theorem accessStore_unread {op : AccessOp} {name : String}
    (h : accessStore cfg op name w = .error r w') (hr : r.isMissedRead = true) :
    op.writes = false ∧ w.machine.store.lookup name = none := by
  have hrest : ∀ id, Finds (checkConversion op id name >>= fun _ =>
      emit cfg .direct (.access op id)) := fun id =>
    (checkConversion_finds op id name).bind fun _ => emit_finds _
  cases hop : op.writes with
  | true => exact ((findVariable_finds hop name).bind hrest).absurd h hr
  | false =>
    refine ⟨rfl, ?_⟩
    rw [accessStore, bind_apply, findVariable_read hop] at h
    cases hname : w.machine.store.lookup name with
    | none => rfl
    | some id =>
      have hfound : VariableStore.lookup w.machine.store name = some id := hname
      rw [hfound] at h
      exact (hrest id).absurd h hr

theorem accessVariable_unread {op : AccessOp} {name : String}
    (h : accessVariable cfg op name w = .error r w') (hr : r.isMissedRead = true) :
    op.writes = false ∧ w.machine.store.lookup name = none ∧
      (op = .read → (cfg.locals? w.scope).any (·.has name) = false) := by
  simp only [accessVariable] at h
  cases hreplaced : cfg.options.replacement.filter (·.name = name) with
  | some replacement =>
    -- a replaced variable is never missed
    rw [hreplaced] at h
    dsimp only at h
    split at h
    · cases h
      cases hr
    · exact (emit_finds _).absurd h hr
  | none =>
    rw [hreplaced] at h
    dsimp only at h
    rw [bind_apply] at h
    cases hlocal : accessLocal cfg op name w with
    | error e v =>
      rw [hlocal] at h
      cases h
      exact (accessLocal_finds op name).absurd hlocal hr
    | ok done v =>
      rw [hlocal] at h
      cases done with
      | true => cases h
      | false =>
        have hstore : accessStore cfg op name v = .error r w' := h
        obtain ⟨hop, hmissing⟩ := accessStore_unread hstore hr
        obtain ⟨rfl, hread⟩ := accessLocal_false hlocal hop
        exact ⟨hop, hmissing, hread⟩

/-- An evaluation misses a variable only at an action that reads what is not there. -/
theorem perform_unread {a : Action} (h : perform cfg .direct a w = .error r w')
    (hr : r.isMissedRead = true) : Unread (cfg.locals? w.scope) w.machine.store a := by
  -- a reference is missed where it points nowhere; without a scope the refusal is another one
  have hreference : ∀ {reference : String} {v : Workspace MemoryStore},
      a.reference? = some reference → dereference cfg .direct reference w = .error r v →
      Unread (cfg.locals? w.scope) w.machine.store a := by
    intro reference v ha hderef
    rw [dereference_eq (by simp)] at hderef
    split at hderef
    · cases hderef
      cases hr
    · next hnone => exact .dangling ha hnone
    · cases hderef
  cases a with
  | push v => exact (emit_finds _).absurd h hr
  | operate op => exact (emit_finds _).absurd h hr
  | access op target =>
    have hperform : (targetName cfg .direct target >>= accessVariable cfg op) w =
      .error r w' := h
    rw [bind_apply] at hperform
    cases htarget : targetName cfg .direct target w with
    | error e v =>
      rw [htarget] at hperform
      cases hperform
      cases target with
      | named name => cases htarget
      | reference reference => exact hreference rfl htarget
    | ok name v =>
      rw [htarget] at hperform
      obtain ⟨hname, rfl⟩ := targetName_ok (by simp) htarget
      obtain ⟨hop, hmissing, hplain⟩ := accessVariable_unread hperform hr
      by_cases hread : op = .read
      · rw [hread]
        exact .plain hname (hplain hread) hmissing
      · exact .stored (by simpa [Action.storeRead?, hop, hread] using hname) hmissing
  | follow reference =>
    have hperform : (dereference cfg .direct reference >>= fun _ => pure ()) w = .error r w' := h
    rw [bind_apply] at hperform
    cases hderef : dereference cfg .direct reference w with
    | error e v =>
      rw [hderef] at hperform
      cases hperform
      exact hreference rfl hderef
    | ok name v =>
      rw [hderef] at hperform
      cases hperform
  | demand d function =>
    have hfinds : Finds (perform cfg .direct (.demand d function)) :=
      meetDemand_raises (Q := fun _ => True) (fun _ => rfl) cfg .direct function d
    exact hfinds.absurd h hr
  | invoke i count usesFrame =>
    simp only [perform, Mode.isCheck, Bool.and_false] at h
    exact (emit_finds i).absurd h hr
  | enumText name text =>
    have hperform : (enumNumber name text >>= emitLiteral cfg .direct) w = .error r w' := h
    rw [bind_apply, enumNumber_eq] at hperform
    cases hname : w.machine.store.lookup name with
    | none => exact .stored rfl hname
    | some id =>
      have hfound : VariableStore.lookup w.machine.store name = some id := hname
      rw [hfound] at hperform
      dsimp only at hperform
      cases htext : VariableStore.enumValue? w.machine.store id text with
      | none =>
        rw [htext] at hperform
        cases hperform
        cases hr
      | some raw =>
        rw [htext] at hperform
        exact (emit_finds _).absurd hperform hr
  | query q subject =>
    have hfinds : Finds (perform cfg .direct (.query q subject)) :=
      Finds.bind (store_raises (Q := fun _ => True)) fun _ => emit_finds _
    exact hfinds.absurd h hr
  | compareText bounded ignoreCase left right =>
    have hfinds : Finds (perform cfg .direct (.compareText bounded ignoreCase left right)) :=
      Finds.bind (textOrder_raises (Q := fun _ => True) (fun _ => rfl) .direct bounded ignoreCase
        left right) fun _ => emit_finds _
    exact hfinds.absurd h hr

end Finds

/-! ## Checks -/

section Checks

variable {cfg : Setting} {w w' : Workspace MemoryStore}

theorem checkVariable_known {op : AccessOp} {name : String}
    (h : checkVariable cfg true op name w = .ok () w') (hop : op.writes = false)
    (hmissing : w.machine.store.lookup name = none) :
    (cfg.locals? w.scope).any (·.has name) = true := by
  have hunknown : VariableStore.lookup w.machine.store name = none := hmissing
  simp only [checkVariable, hop, Bool.false_eq_true, if_false, bind_apply, locals_eq, WorkM.store,
    hunknown, ne_eq, reduceCtorEq, not_false_eq_true] at h
  split at h
  · cases h
  · next hknown => simpa [Option.isSome_bind, Scope.has] using hknown

/-- A strict check stops at an action that reads what is not there, unless it takes a variable of the
script for it. -/
theorem perform_check_unread {a : Action} (h : perform cfg (.check true) a w = .ok () w')
    (hunread : Unread (cfg.locals? w.scope) w.machine.store a) :
    ∃ name, a.storeRead? (cfg.locals? w.scope) = some name ∧
      w.machine.store.lookup name = none ∧ (cfg.locals? w.scope).any (·.has name) = true := by
  have haccess : ∀ {op : AccessOp} {target : Target} {name : String},
      a = .access op target → target.name? (cfg.locals? w.scope) = some name →
      checkVariable cfg true op name w = .ok () w' := by
    rintro op target name rfl hname
    have hperform : (targetName cfg (.check true) target >>= checkVariable cfg true op) w =
      .ok () w' := h
    rw [bind_apply] at hperform
    cases htarget : targetName cfg (.check true) target w with
    | error e v =>
      rw [htarget] at hperform
      cases hperform
    | ok found v =>
      rw [htarget] at hperform
      obtain ⟨hfound, rfl⟩ := targetName_ok (by simp) htarget
      cases hname.symm.trans hfound
      exact hperform
  cases hunread with
  | @dangling _ reference ha hnone =>
    -- the check follows the same reference
    have hderef : dereference cfg (.check true) reference w =
        .error (.binding .read ("*" ++ reference)) w := by
      rw [dereference_eq (by simp), hnone]
    have hfollow : ∀ {α : Type} (f : String → WorkM MemoryStore α),
        (dereference cfg (.check true) reference >>= f) w =
          .error (.binding .read ("*" ++ reference)) w := by
      intro α f
      rw [bind_apply, hderef]
    cases a with
    | access op target =>
      cases target with
      | named name => cases ha
      | reference known =>
        cases ha
        cases h.symm.trans (hfollow _)
    | follow known =>
      cases ha
      cases h.symm.trans (hfollow _)
    | push | operate | demand | invoke | enumText | query | compareText => cases ha
  | @plain target name htarget hlocal hstore =>
    have hknown := checkVariable_known (haccess rfl htarget) rfl hstore
    cases hlocal.symm.trans hknown
  | @stored _ name ha hstore =>
    refine ⟨name, ha, hstore, ?_⟩
    cases a with
    | access op target =>
      simp only [Action.storeRead?] at ha
      split at ha
      · cases ha
      · next hpast =>
        have hop : op.writes = false := by simp_all
        exact checkVariable_known (haccess rfl ha) hop hstore
    | enumText known text =>
      cases ha
      -- a check takes this for a plain read
      have hcheck : checkVariable cfg true .read name w = .ok () w' := h
      exact checkVariable_known hcheck rfl hstore
    | push | operate | follow | demand | invoke | query | compareText => cases ha

end Checks

/-! ## Names that stay -/

/-- No name is lost from the store, and the script has the same names and references. -/
structure Retained (w w' : Workspace MemoryStore) : Prop where
  store : KeepsNames w.machine.store w'.machine.store
  scope : w'.scope.map Scope.outline = w.scope.map Scope.outline

theorem Retained.refl (w : Workspace MemoryStore) : Retained w w := ⟨KeepsNames.refl _, rfl⟩

theorem Retained.trans {w₁ w₂ w₃ : Workspace MemoryStore} (h : Retained w₁ w₂)
    (h' : Retained w₂ w₃) : Retained w₁ w₃ :=
  ⟨h.store.trans h'.store, h'.scope.trans h.scope⟩

theorem Moved.retained {cfg : Setting} {a : Action} {w w' : Workspace MemoryStore}
    (h : Moved cfg a w w') : Retained w w' := by
  cases h with
  | untouched h =>
    refine ⟨?_, by rw [h.scope]⟩
    rw [h.store]
    exact KeepsNames.refl _
  | written h =>
    refine ⟨?_, rfl⟩
    intro name id hname
    rwa [lookup_of_outline h.outline_eq]
  | assigned hscope h =>
    refine ⟨KeepsNames.refl _, ?_⟩
    rw [hscope]
    exact congrArg some (Scope.outline_write? h)
  | resolved ha hop h => exact ⟨(lookup_of_resolve h).2, rfl⟩

theorem Retained.locals? {w w' : Workspace MemoryStore} (h : Retained w w') (cfg : Setting) :
    (cfg.locals? w'.scope).map Scope.outline = (cfg.locals? w.scope).map Scope.outline := by
  simp only [Setting.locals?]
  split
  · exact h.scope
  · rfl

/-! ## Whole equations -/

section Equations

variable {cfg : Setting} {scope : Option Scope} {source : String} {s : MemoryStore}

/-- An evaluation that misses a variable has an action that reads what was not there at the start. -/
theorem refusedIn_direct_unread {r : Refusal}
    (h : refusedIn cfg .direct scope source s = some r) (hr : r.isMissedRead = true) :
    ∃ a ∈ (Script.ofText cfg.dialect source).actions, Unread (cfg.locals? scope) s a := by
  have hlisted := (Script.ofText_disciplined cfg.dialect source).listed
  simp only [refusedIn, interpret, bind_apply] at h
  cases hall : performAll cfg .direct (Script.ofText cfg.dialect source).actions
      (.start s scope) with
  | ok u w =>
    -- the fault at the end of a script is about its text
    rw [hall] at h
    cases hfault : (Script.ofText cfg.dialect source).fault with
    | none =>
      rw [hfault] at h
      cases h
    | some f =>
      rw [hfault] at h
      cases h
      cases f <;> cases hr
  | error e w =>
    rw [hall] at h
    cases h
    obtain ⟨a, ha, v, v', hretained, hperform⟩ := performAll_error Retained.refl
      (fun _ _ _ => Retained.trans)
      (fun a ha => perform_direct_rule (fun _ _ _ => Retained.trans) (fun _ _ => Moved.retained)
        (hlisted a ha)) hall
    have hunread := perform_unread hperform hr
    exact ⟨a, ha, hunread.mono (hretained.locals? cfg) hretained.store⟩

/-- A strict check that accepts an equation has gone through all of its actions. -/
theorem refusedIn_check_none (h : refusedIn cfg (.check true) scope source s = none) {a : Action}
    (ha : a ∈ (Script.ofText cfg.dialect source).actions) :
    ∃ v v', Untouched (.start s scope) v ∧ perform cfg (.check true) a v = .ok () v' := by
  have hlisted := (Script.ofText_disciplined cfg.dialect source).listed
  simp only [refusedIn, interpret, bind_apply] at h
  cases hall : performAll cfg (.check true) (Script.ofText cfg.dialect source).actions
      (.start s scope) with
  | error e w =>
    rw [hall] at h
    cases h
  | ok u w =>
    exact performAll_ok Untouched.refl (fun _ _ _ => Untouched.trans)
      (fun a ha => perform_untouched cfg _ (hlisted a ha) (.inl rfl)) hall a ha

/-- A strict check is sound for reads, save for what it takes from the script. When it accepts an
equation, and none of the variables that the equation reads from the store past the script's own is
one that only the script has, then an evaluation on the same store does not miss a variable. -/
theorem strict_check_sound (cfg : Setting) (scope : Option Scope) (source : String)
    (s : MemoryStore) (haccepted : (check cfg true scope source s).refusal? = none)
    (hstored : ∀ name ∈ cfg.storeReads scope source,
      (cfg.locals? scope).any (·.has name) = true → (s.lookup name).isSome) (name : String) :
    (evaluate cfg scope source s).refusal? ≠ some (.binding .read name) := by
  intro hrefused
  have hdirect : refusedIn cfg .direct scope source s = some (.binding .read name) := by
    rcases refusal?_evaluate cfg scope source s with hscript | hnone
    · exact hscript.symm.trans hrefused
    · rw [hnone] at hrefused
      cases hrefused
  obtain ⟨a, ha, hunread⟩ := refusedIn_direct_unread hdirect rfl
  rw [refusal?_check] at haccepted
  obtain ⟨v, v', hsame, hperform⟩ := refusedIn_check_none haccepted ha
  -- the check sees the store and the scope as they are at the start
  rw [show s = v.machine.store from hsame.store.symm,
    show scope = v.scope from hsame.scope.symm] at hunread
  obtain ⟨x, hread, hmissing, hlocal⟩ := perform_check_unread hperform hunread
  rw [show v.machine.store = s from hsame.store] at hmissing
  rw [show v.scope = scope from hsame.scope] at hread hlocal
  have hfound := hstored x (List.mem_filterMap.mpr ⟨a, ha, hread⟩) hlocal
  rw [hmissing] at hfound
  cases hfound

end Equations

/-- A local variable under a plain read, and a variable of the store under its raw bits. -/
theorem strict_check_sound_rawBits :
    (check { options := { scriptLocals := true } } true (some { values := [("n", .ofFloat 5.0)] })
        "get_binary(x) + n" (({} : MemoryStore).define "x" .uint8 default).2).refusal? = none ∧
      (evaluate { options := { scriptLocals := true } } (some { values := [("n", .ofFloat 5.0)] })
        "get_binary(x) + n" (({} : MemoryStore).define "x" .uint8 default).2).refusal? ≠
          some (.binding .read "x") := by
  have haccepted : (check { options := { scriptLocals := true } } true
      (some { values := [("n", .ofFloat 5.0)] }) "get_binary(x) + n"
      (({} : MemoryStore).define "x" .uint8 default).2).refusal? = none := by
    rw [refusal?_check]
    rfl
  exact ⟨haccepted, strict_check_sound _ _ _ _ haccepted (by decide) "x"⟩

/-- The check accepts the raw bits of a variable that only the script has, and the evaluation does
not find it. -/
theorem strict_check_overlooks_rawBits :
    ¬ ∀ (cfg : Setting) (scope : Option Scope) (source : String) (s : MemoryStore),
      (check cfg true scope source s).refusal? = none →
        ∀ name, (evaluate cfg scope source s).refusal? ≠ some (.binding .read name) := by
  intro h
  have haccepted : (check { options := { scriptLocals := true } } true
      (some { values := [("n", .ofFloat 5.0)] }) "get_binary(n)"
      ({} : MemoryStore)).refusal? = none := by
    rw [refusal?_check]
    rfl
  apply h _ _ _ _ haccepted "n"
  rw [evaluate, Parser.read_eq_interpret]
  rfl

end SignalCalc
