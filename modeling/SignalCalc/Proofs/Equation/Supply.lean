import SignalCalc.Proofs.Equation.Naming

namespace SignalCalc

open MemoryStore

namespace MemoryStore

def converts (s : MemoryStore) (name : String) : Bool :=
  ((s.look name).bind (·.conversion)).isSome

theorem hasConversion_eq {s : MemoryStore} {name : String} {id : VarId}
    (h : s.lookup name = some id) : s.hasConversion id = s.converts name := by
  simp only [converts, MemoryStore.look, h, Option.bind_some, sight, hasConversion]
  cases s.slot? id <;> rfl

structure Supplied (s t : MemoryStore) : Prop where
  known : ∀ name, (s.look name).isSome → (t.look name).isSome
  converts : ∀ name, s.converts name = true → t.converts name = true
  enums : ∀ name text raw, s.enumNamed? name text = some raw → t.enumNamed? name text = some raw

section Supplied

variable {s s' t t' u : MemoryStore} {names : List String}

theorem Supplied.refl (s : MemoryStore) : Supplied s s :=
  ⟨fun _ h => h, fun _ h => h, fun _ _ _ h => h⟩

theorem Supplied.trans (h : Supplied s t) (h' : Supplied t u) : Supplied s u :=
  ⟨fun name hs => h'.known name (h.known name hs),
    fun name hs => h'.converts name (h.converts name hs),
    fun name text raw hs => h'.enums name text raw (h.enums name text raw hs)⟩

/-- A variable that came to be by resolving its name has no conversion. -/
theorem Names.converts_eq (h : Names names s t) (name : String) :
    t.converts name = s.converts name := by
  unfold converts
  rw [h.look]
  cases s.look name with
  | some seen => rfl
  | none =>
    rw [Option.none_or]
    split <;> rfl

/-- Resolving names only adds to a store. -/
theorem Names.supplied (h : Names names s t) : Supplied s t where
  known name hname := by
    obtain ⟨seen, hseen⟩ := Option.isSome_iff_exists.mp hname
    rw [h.look, hseen]
    rfl
  converts name hname := (h.converts_eq name).trans hname
  enums name text _ hraw := (h.enums name text).trans hraw

/-- Resolving the same names in two stores. -/
theorem Supplied.resolve (h : Supplied s t) (hs : Names names s s') (ht : Names names t t') :
    Supplied s' t' where
  known name hname := by
    rw [hs.look] at hname
    rw [ht.look]
    cases hseen : s.look name with
    | some seen =>
      have htname := h.known name (by rw [hseen]; rfl)
      rw [Option.isSome_or, htname, Bool.true_or]
    | none =>
      rw [hseen, Option.none_or] at hname
      rw [Option.isSome_or, hname, Bool.or_true]
  converts name hname := by
    rw [hs.converts_eq] at hname
    rw [ht.converts_eq]
    exact h.converts name hname
  enums name text raw hraw := by
    rw [hs.enums] at hraw
    rw [ht.enums]
    exact h.enums name text raw hraw

end Supplied

end MemoryStore

/-! ## Actions -/

section Perform

variable {cfg : Setting} {w w' v : Workspace MemoryStore}

/-- A name that is resolved in one store is resolved in the other. -/
theorem resolves_supplied {op : AccessOp} {name : String} {s s' t : MemoryStore} {b : Binding}
    (hs : s.WellFormed) (ht : t.WellFormed) (h : Supplied s t)
    (hresolve : op.resolves cfg name s = .ok b s') :
    ∃ b' t', op.resolves cfg name t = .ok b' t' := by
  cases hother : op.resolves cfg name t with
  | ok b' t' => exact ⟨b', t', rfl⟩
  | error e t' =>
    obtain ⟨hnone, hpolicy, -⟩ := resolve_error hother
    obtain ⟨id, hid, -⟩ | ⟨-, hcreates, -⟩ := resolve_ok hresolve
    · have hknown := h.known name (by rw [hs.isSome_look, hid]; rfl)
      rw [ht.isSome_look, hnone] at hknown
      cases hknown
    · exact absurd hpolicy hcreates

theorem perform_supplied {a : Action} (ha : a.isImmediate = false) (hw : w.machine.store.WellFormed)
    (hv : v.machine.store.WellFormed) (h : Supplied w.machine.store v.machine.store)
    (hperform : perform cfg .compile a w = .ok () w') :
    ∃ v', perform cfg .compile a v = .ok () v' ∧ v'.machine.store.WellFormed ∧
      Supplied v.machine.store v'.machine.store ∧
      Supplied w'.machine.store v'.machine.store := by
  have hcompiled := perform_compile cfg ha w
  rw [hperform] at hcompiled
  have hother := perform_compile cfg ha v
  cases hresult : perform cfg .compile a v with
  | ok u v' =>
    rw [hresult] at hother
    have hnames := (hother.drafted hv).names
    exact ⟨v', rfl, hnames.wellFormed, hnames.supplied, h.resolve (hcompiled.drafted hw).names hnames⟩
  | error r v' =>
    -- each refusal is ruled out by what went through in the first store
    rw [hresult] at hother
    exfalso
    cases hother with
    | unresolved hresolve =>
      cases hcompiled with
      | access warnings hfound _ =>
        obtain ⟨b, t, hok⟩ := resolves_supplied hw hv h hfound
        rw [hok] at hresolve
        cases hresolve
    | unconverted warnings hresolve hphysical hmissing =>
      cases hcompiled with
      | access warnings hfound hconversion =>
        have hsupplied := h.resolve (Names.resolve hw hfound) (Names.resolve hv hresolve)
        have hthere := hconversion hphysical
        rw [show VariableStore.hasConversion _ _ = _ from
          hasConversion_eq (lookup_of_resolve hfound).1] at hthere
        rw [show VariableStore.hasConversion _ _ = _ from
          hasConversion_eq (lookup_of_resolve hresolve).1, hsupplied.converts _ hthere] at hmissing
        cases hmissing
    | dereference | follow | immediate => cases hcompiled
    | @enumName name text hname =>
      cases hcompiled with
      | enumText hfound htext =>
        have hraw := h.enums name text _ (Option.bind_eq_some_iff.mpr ⟨_, hfound, htext⟩)
        rw [enumNamed?, show v.machine.store.lookup name = none from hname] at hraw
        cases hraw
    | @enumText name text id hname htext =>
      cases hcompiled with
      | enumText hfound hfoundText =>
        have hraw := h.enums name text _ (Option.bind_eq_some_iff.mpr ⟨_, hfound, hfoundText⟩)
        rw [enumNamed?, show v.machine.store.lookup name = some id from hname, Option.bind_some,
          show v.machine.store.enumValue? id text = none from htext] at hraw
        cases hraw
    | frame function =>
      -- whether there can be a frame is a matter of the options
      cases hframe : cfg.options.frameFunctions with
      | true =>
        simp [perform, meetDemand, hframe] at hresult
        cases hresult
      | false =>
        simp [perform, meetDemand, hframe] at hperform
        cases hperform

theorem performAll_supplied {actions : List Action} (hguarded : Guarded actions)
    (hw : w.machine.store.WellFormed) (hv : v.machine.store.WellFormed)
    (h : Supplied w.machine.store v.machine.store)
    (hperform : performAll cfg .compile actions w = .ok () w') :
    ∃ v', performAll cfg .compile actions v = .ok () v' ∧ v'.machine.store.WellFormed ∧
      Supplied v.machine.store v'.machine.store := by
  induction actions generalizing w v with
  | nil => exact ⟨v, rfl, hv, .refl _⟩
  | cons a actions ih =>
    have hfirst := perform_compile cfg hguarded.head w
    rw [performAll, bind_apply] at hperform
    cases hw₁ : perform cfg .compile a w with
    | error r w₁ => simp [hw₁] at hperform
    | ok u w₁ =>
      rw [hw₁] at hperform hfirst
      obtain ⟨v₁, hv₁, hwell, hgrown, hsupplied⟩ := perform_supplied hguarded.head hw hv h hw₁
      obtain ⟨v', hv', hwell', hgrown'⟩ := ih (hguarded.tail hfirst)
        (hfirst.drafted hw).names.wellFormed hwell hsupplied hperform
      refine ⟨v', ?_, hwell', hgrown.trans hgrown'⟩
      rw [performAll, bind_apply, hv₁]
      exact hv'

/-- Lists of actions that can be compiled one by one in the same store can be compiled one after the
other. -/
theorem performAll_supplied_flatMap {α : Type} {actions : α → List Action} {xs : List α}
    (hguarded : ∀ x ∈ xs, Guarded (actions x)) (hw : w.machine.store.WellFormed)
    (hxs : ∀ x ∈ xs, ∃ w', performAll cfg .compile (actions x) w = .ok () w')
    (hv : v.machine.store.WellFormed) (h : Supplied w.machine.store v.machine.store) :
    ∃ v', performAll cfg .compile (xs.flatMap actions) v = .ok () v' := by
  induction xs generalizing v with
  | nil => exact ⟨v, rfl⟩
  | cons x xs ih =>
    rw [List.forall_mem_cons] at hguarded hxs
    obtain ⟨w', hw'⟩ := hxs.1
    obtain ⟨v₁, hv₁, hwell, hgrown⟩ := performAll_supplied hguarded.1 hw hv h hw'
    obtain ⟨v', hv'⟩ := ih hguarded.2 hxs.2 hwell (h.trans hgrown)
    refine ⟨v', ?_⟩
    rw [List.flatMap_cons, performAll_append, bind_apply, hv₁]
    exact hv'

end Perform

end SignalCalc
