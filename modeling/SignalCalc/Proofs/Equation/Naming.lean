import SignalCalc.Proofs.Equation.Grammar
import SignalCalc.Proofs.Machine.Sinking

/-! # Names in compiled code

What the actions of an equation compile to, given the variables of their names, and what the names
look like once they are compiled. Both depend on the store from before and on the names that are
accessed, and not on the order in which that happens; only the numbers of new variables do.
-/

namespace SignalCalc

open MemoryStore

/-! ## What names look like -/

def Sight.fresh : Sight := ⟨.ofFloat 0.0, .undeclared, none⟩

namespace MemoryStore

def look (s : MemoryStore) (name : String) : Option Sight := (s.lookup name).bind s.sight

def enumNamed? (s : MemoryStore) (name text : String) : Option Int64 :=
  (s.lookup name).bind (s.enumValue? · text)

theorem WellFormed.sight_of_lookup {s : MemoryStore} (hs : s.WellFormed) {name : String} {id : VarId}
    (h : s.lookup name = some id) : ∃ seen, s.sight id = some seen := by
  obtain ⟨slot, hslot, -⟩ := hs.slot?_of_lookup h
  exact ⟨slot.sight, by rw [sight, hslot]; rfl⟩

theorem WellFormed.isSome_look {s : MemoryStore} (hs : s.WellFormed) (name : String) :
    (s.look name).isSome = (s.lookup name).isSome := by
  unfold look
  cases hname : s.lookup name with
  | none => rfl
  | some id =>
    obtain ⟨seen, hseen⟩ := hs.sight_of_lookup hname
    simp [hseen]

/-- What is left of a store when some names are resolved in it. -/
structure Names (names : List String) (s t : MemoryStore) : Prop where
  wellFormed : t.WellFormed
  keeps : KeepsNames s t
  look : ∀ name, t.look name = (s.look name).or (if name ∈ names then some .fresh else none)
  fresh : ∀ name id, t.lookup name = some id → s.lookup name = none → s.lastId < id.val
  lastId_le : s.lastId ≤ t.lastId
  enums : ∀ name text, t.enumNamed? name text = s.enumNamed? name text

theorem Names.refl {s : MemoryStore} (hs : s.WellFormed) : Names [] s s where
  wellFormed := hs
  keeps := KeepsNames.refl s
  look := by simp
  fresh name id h h' := by
    rw [h] at h'
    cases h'
  lastId_le := Nat.le_refl _
  enums _ _ := rfl

theorem Names.trans {names names' : List String} {s t u : MemoryStore} (h : Names names s t)
    (h' : Names names' t u) : Names (names ++ names') s u where
  wellFormed := h'.wellFormed
  keeps := h.keeps.trans h'.keeps
  look name := by
    rw [h'.look, h.look, Option.or_assoc]
    congr 1
    by_cases hname : name ∈ names <;> simp [hname]
  fresh name id hid hnone := by
    cases hmid : t.lookup name with
    | some mid =>
      obtain rfl : mid = id := Option.some.inj ((h'.keeps name mid hmid).symm.trans hid)
      exact h.fresh name mid hmid hnone
    | none => exact Nat.lt_of_le_of_lt h.lastId_le (h'.fresh name id hid hmid)
  lastId_le := Nat.le_trans h.lastId_le h'.lastId_le
  enums name text := (h'.enums name text).trans (h.enums name text)

def number (s : MemoryStore) (name : String) : VarId := (s.lookup name).getD ⟨0⟩

theorem lookup_number {s : MemoryStore} {name : String} {id : VarId} (h : s.lookup name = some id) :
    s.lookup name = some (s.number name) := by
  simp [number, h]

theorem Names.lookup_number {names : List String} {s t : MemoryStore} (h : Names names s t)
    {name : String} (hname : name ∈ names) : t.lookup name = some (t.number name) := by
  have hlook : (t.lookup name).isSome := by
    rw [← h.wellFormed.isSome_look, h.look, if_pos hname]
    cases s.look name <;> rfl
  obtain ⟨id, hid⟩ := Option.isSome_iff_exists.mp hlook
  exact MemoryStore.lookup_number hid

theorem names_attach {s : MemoryStore} (hs : s.WellFormed) {name : String} {id : VarId}
    (hname : s.lookup name = some id) : Names [name] s (s.attach id) where
  wellFormed := hs.attach id
  keeps x id' hx := by rw [lookup_attach, hx]
  look x := by
    simp only [MemoryStore.look, lookup_attach, funext (sight_attach s id)]
    by_cases hx : x = name
    · obtain ⟨seen, hseen⟩ := hs.sight_of_lookup hname
      simp [hx, hname, hseen]
    · simp [hx]
  fresh x id' h h' := by
    rw [lookup_attach, h'] at h
    cases h
  lastId_le := Nat.le_refl _
  enums x text := by
    simp only [enumNamed?, lookup_attach, enumValue?_of_outline (outline_attach s id)]

theorem names_insert {s : MemoryStore} (hs : s.WellFormed) {name : String}
    (hname : s.lookup name = none) (owner : Option Int32) :
    Names [name] s (s.insert (newSlot name owner)) := by
  have hlookup : ∀ x, (s.insert (newSlot name owner)).lookup x =
      (s.lookup x).or (if name = x then some s.freshId else none) := lookup_insert s _
  -- the variables from before have other numbers than the new one
  have hunused := hs.slot?_freshId
  refine ⟨hs.insert rfl hname fun _ => Nat.one_pos, ?_, ?_, ?_, Nat.le_succ _, ?_⟩
  · intro x id hx
    rw [hlookup, hx]
    rfl
  · intro x
    cases hx : s.lookup x with
    | some id =>
      obtain ⟨seen, hseen⟩ := hs.sight_of_lookup hx
      simp [MemoryStore.look, hlookup, hx, hseen, sight_insert]
    | none =>
      by_cases hxn : x = name
      · subst hxn
        have hnone : s.sight s.freshId = none := by rw [sight, hunused]; rfl
        simp [MemoryStore.look, hlookup, hname, sight_insert, hnone, newSlot, Slot.sight, Sight.fresh]
      · simp [MemoryStore.look, hlookup, hx, hxn, Ne.symm hxn]
  · intro x id h hx
    rw [hlookup, hx, Option.none_or] at h
    split at h
    · cases h
      exact Nat.lt_succ_self _
    · cases h
  · intro x text
    simp only [enumNamed?, hlookup]
    cases hx : s.lookup x with
    | some id =>
      obtain ⟨slot, hslot, -⟩ := hs.slot?_of_lookup hx
      simp [enumValue?, slot?_insert, hslot]
    | none =>
      rw [Option.none_or]
      split
      · simp [enumValue?, slot?_insert, hunused, newSlot]
      · rfl

theorem Names.resolve {s t : MemoryStore} (hs : s.WellFormed) {name : String} {policy : ExistPolicy}
    {owner : Option Int32} {b : Binding} (h : MemoryStore.resolve name policy owner s = .ok b t) :
    Names [name] s t := by
  obtain ⟨id, hname, rfl, rfl⟩ | ⟨hname, -, rfl, rfl⟩ := resolve_ok h
  · exact names_attach hs hname
  · exact names_insert hs hname owner

end MemoryStore

/-! ## The code of actions -/

namespace Action

def names : Action → List String
  | .access _ (.named name) => [name]
  | _ => []

/-- The instructions of an action, with the variable of each name. Numbers behind enumeration texts
are those of the store. -/
def code (s : MemoryStore) (ids : String → VarId) : Action → List Instruction
  | .push v => [.literal v]
  | .operate op => [.plain op]
  | .access op (.named name) => [.access op (ids name)]
  | .invoke i _ _ => [i]
  | .enumText name text => [.literal (.ofFloat ((s.enumNamed? name text).getD 0).toFloat)]
  | _ => []

/-- The instructions of an action differ by the numbers of its names only. -/
theorem twin_code {pairs : VarId → VarId → Prop} {a : Action} (ha : a.Listed) (s : MemoryStore)
    {ids ids' : String → VarId} (hids : ∀ name ∈ a.names, pairs (ids name) (ids' name)) :
    List.Forall₂ (Instruction.Twin pairs) (a.code s ids) (a.code s ids') := by
  cases a with
  | access op target =>
    cases target with
    | named name => exact .cons (.access op (hids name (by simp [names]))) .nil
    | reference r => exact .nil
  | invoke i count usesFrame => exact .cons (.same (Called.binding? ha)) .nil
  | push | operate | enumText => exact .cons (.same rfl) .nil
  | follow | demand | query | compareText => exact .nil

theorem twins_code {pairs : VarId → VarId → Prop} {actions : List Action}
    (hlisted : ∀ a ∈ actions, a.Listed) (s : MemoryStore) {ids ids' : String → VarId}
    (hids : ∀ name ∈ actions.flatMap names, pairs (ids name) (ids' name)) :
    List.Forall₂ (Instruction.Twin pairs) (actions.flatMap (code s ids))
      (actions.flatMap (code s ids')) := by
  induction actions with
  | nil => exact .nil
  | cons a actions ih =>
    rw [List.forall_mem_cons] at hlisted
    rw [List.flatMap_cons] at hids
    have hfirst := twin_code hlisted.1 s fun name hname => hids name (List.mem_append_left _ hname)
    have hrest := ih hlisted.2 fun name hname => hids name (List.mem_append_right _ hname)
    exact List.rel_append hfirst hrest

end Action

structure Drafted (actions : List Action) (w w' : Workspace MemoryStore) : Prop where
  names : Names (actions.flatMap (·.names)) w.machine.store w'.machine.store
  emitted : ∀ s : MemoryStore,
    (∀ name text raw, w.machine.store.enumNamed? name text = some raw →
      s.enumNamed? name text = some raw) →
    Emitted (actions.flatMap (·.names)) (fun ids => actions.flatMap (·.code s ids)) w w'

theorem Drafted.trans {actions actions' : List Action} {w₁ w₂ w₃ : Workspace MemoryStore}
    (h : Drafted actions w₁ w₂) (h' : Drafted actions' w₂ w₃) :
    Drafted (actions ++ actions') w₁ w₃ where
  names := by
    rw [List.flatMap_append]
    exact h.names.trans h'.names
  emitted s hs := by
    have hrest := h'.emitted s fun name text raw hraw =>
      hs name text raw ((h.names.enums name text).symm.trans hraw)
    simp only [List.flatMap_append]
    exact (h.emitted s hs).trans hrest

theorem drafted_unbound {a : Action} (hnames : a.names = []) {w w' : Workspace MemoryStore}
    (hw : w.machine.store.WellFormed) (hstore : w'.machine.store = w.machine.store)
    (hcode : ∀ s : MemoryStore,
      (∀ name text raw, w.machine.store.enumNamed? name text = some raw →
        s.enumNamed? name text = some raw) → ∀ ids, w'.code = w.code ++ a.code s ids) :
    Drafted [a] w w' where
  names := by
    rw [List.flatMap_singleton, hnames, hstore]
    exact .refl hw
  emitted s hs := by
    refine ⟨by rw [hstore]; exact KeepsNames.refl _, ?_, ?_⟩
    · simp [hnames]
    · intro ids _
      rw [List.flatMap_singleton]
      exact hcode s hs ids

theorem Compiled.drafted {cfg : Setting} {a : Action} {w w' : Workspace MemoryStore}
    (h : Compiled cfg w a w') (hw : w.machine.store.WellFormed) : Drafted [a] w w' := by
  cases h with
  | push | operate | invoke => exact drafted_unbound rfl hw rfl fun _ _ _ => rfl
  | @enumText name text id raw hname htext =>
    refine drafted_unbound rfl hw rfl fun s hs ids => ?_
    have hraw : w.machine.store.enumNamed? name text = some raw := by
      rw [enumNamed?, show w.machine.store.lookup name = some id from hname]
      exact htext
    simp [Action.code, hs name text raw hraw]
  | @access op name b t warnings hresolve _ =>
    obtain ⟨hname, hkeeps⟩ := lookup_of_resolve hresolve
    refine ⟨Names.resolve hw hresolve, fun s _ => ⟨hkeeps, ?_, ?_⟩⟩
    · intro x hx
      obtain rfl : x = name := by simpa [Action.names] using hx
      exact ⟨b.id, hname⟩
    · intro ids hids
      have hid : b.id = ids name :=
        Option.some.inj (hname.symm.trans (hids name (by simp [Action.names])))
      simp [Workspace.bound, Action.code, hid]
  | frame | memory => exact drafted_unbound rfl hw rfl fun _ _ _ => (List.append_nil _).symm

theorem performAll_drafted {cfg : Setting} {actions : List Action} (hguarded : Guarded actions)
    {w w' : Workspace MemoryStore} (hw : w.machine.store.WellFormed)
    (h : performAll cfg .compile actions w = .ok () w') : Drafted actions w w' := by
  induction actions generalizing w with
  | nil =>
    cases h
    exact ⟨.refl hw, fun _ _ => ⟨KeepsNames.refl _, by simp, by simp⟩⟩
  | cons a actions ih =>
    have hfirst := perform_compile cfg hguarded.head w
    rw [performAll, bind_apply] at h
    cases hperform : perform cfg .compile a w with
    | error r w₁ => simp [hperform] at h
    | ok u w₁ =>
      rw [hperform] at h hfirst
      have hdrafted := hfirst.drafted hw
      exact hdrafted.trans (ih (hguarded.tail hfirst) hdrafted.names.wellFormed h)

/-- The code of compiled actions, by the numbers of their names in the store or in a later one. -/
theorem Drafted.code_eq {actions : List Action} {s t : MemoryStore} {scope : Option Scope}
    {w : Workspace MemoryStore} (h : Drafted actions (.start s scope) w)
    (ht : KeepsNames w.machine.store t) : w.code = actions.flatMap (·.code s t.number) := by
  have hemitted := h.emitted s fun _ _ _ hraw => hraw
  refine hemitted.code t.number fun name hname => ?_
  obtain ⟨id, hid⟩ := hemitted.found name hname
  rw [← lookup_number (ht name id hid), hid, ht name id hid]

theorem performAll_append_ok {cfg : Setting} {mode : Mode} {first second : List Action}
    {w w' : Workspace MemoryStore} (h : performAll cfg mode (first ++ second) w = .ok () w') :
    ∃ w₁, performAll cfg mode first w = .ok () w₁ ∧ performAll cfg mode second w₁ = .ok () w' := by
  rw [performAll_append, bind_apply] at h
  cases hfirst : performAll cfg mode first w with
  | error r w₁ => simp [hfirst] at h
  | ok u w₁ =>
    rw [hfirst] at h
    exact ⟨w₁, rfl, h⟩

/-- A compiled equation has no fault, and its actions are compiled. -/
theorem compile_performed {cfg : Setting} {scope : Option Scope} {source : String} {s : MemoryStore}
    {p : Program} (h : (compile cfg scope source s).result = .ok p) :
    ∃ w, performAll cfg .compile (Script.ofText cfg.dialect source).actions (.start s scope) =
        .ok () w ∧ (Script.ofText cfg.dialect source).fault = none ∧
      (compile cfg scope source s).store = w.machine.store ∧ p.code = w.code := by
  obtain ⟨w, hw, hstore, rfl⟩ := compile_ok h
  rw [interpret, bind_apply] at hw
  cases hperform : performAll cfg .compile (Script.ofText cfg.dialect source).actions
      (.start s scope) with
  | error r w' => simp [hperform] at hw
  | ok u w' =>
    rw [hperform] at hw
    cases hfault : (Script.ofText cfg.dialect source).fault with
    | none =>
      rw [hfault] at hw
      cases hw
      exact ⟨w, rfl, rfl, hstore, rfl⟩
    | some f =>
      rw [hfault] at hw
      cases hw

/-- The names of a compiled equation, and its code by the numbers that they have now or later. -/
theorem compile_drafted {cfg : Setting} {scope : Option Scope} {source : String} {s : MemoryStore}
    {p : Program} (hs : s.WellFormed) (h : (compile cfg scope source s).result = .ok p) :
    let actions := (Script.ofText cfg.dialect source).actions
    Names (actions.flatMap (·.names)) s (compile cfg scope source s).store ∧
      ∀ t, KeepsNames (compile cfg scope source s).store t →
        p.code = actions.flatMap (·.code s t.number) := by
  obtain ⟨w, hperform, -, hstore, hcode⟩ := compile_performed h
  have hdrafted := performAll_drafted (w := .start s scope)
    (Script.ofText_disciplined cfg.dialect source).guarded hs hperform
  rw [hstore, hcode]
  exact ⟨hdrafted.names, fun t ht => hdrafted.code_eq ht⟩

theorem compile_of_performed {cfg : Setting} {scope : Option Scope} {source : String}
    {s : MemoryStore} {actions : List Action} {w : Workspace MemoryStore}
    (hscript : Script.ofText cfg.dialect source = ⟨actions, none⟩)
    (h : performAll cfg .compile actions (.start s scope) = .ok () w) :
    ∃ p, (compile cfg scope source s).result = .ok p ∧ p.code = w.code ∧
      (compile cfg scope source s).store = w.machine.store := by
  have hinterpret : interpret cfg .compile (.ofText cfg.dialect source) (.start s scope) =
      .ok () w := by
    rw [hscript, interpret, bind_apply, h]
    rfl
  rw [compile, Parser.read_eq_interpret, hinterpret]
  exact ⟨_, rfl, rfl, rfl⟩

end SignalCalc
