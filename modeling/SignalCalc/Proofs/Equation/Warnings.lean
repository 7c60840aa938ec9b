import SignalCalc.Proofs.Equation.Footprint

namespace SignalCalc

open MemoryStore WorkM

/-! ## Created variables -/

def MemoryStore.names (s : MemoryStore) : List String := s.slots.map (·.name)

structure Creation where
  side : BindingSide
  name : String
deriving DecidableEq, Repr

def Creation.message (c : Creation) : String := (Refusal.binding c.side c.name).message

def Creation.policy (c : Creation) (missing : MissingVariables) : ExistPolicy :=
  if c.side = .write then missing.writePolicy else missing.readPolicy

def Action.side : Action → BindingSide
  | .access op _ => op.side
  | _ => .read

def appeared (a : Action) (before after : MemoryStore) : List Creation :=
  (after.names.filter (· ∉ before.names)).map (⟨a.side, ·⟩)

/-- The variables that actions create, up to and with the first that is refused. -/
def creations (cfg : Setting) (mode : Mode) : List Action → Workspace MemoryStore → List Creation
  | [], _ => []
  | a :: actions, w =>
    match perform cfg mode a w with
    | .ok _ w' => appeared a w.machine.store w'.machine.store ++ creations cfg mode actions w'
    | .error _ w' => appeared a w.machine.store w'.machine.store

def Setting.created (cfg : Setting) (mode : Mode) (scope : Option Scope) (source : String)
    (s : MemoryStore) : List Creation :=
  creations cfg mode (Script.ofText cfg.dialect source).actions (.start s scope)

theorem lookup_eq_none_iff_names {s : MemoryStore} {name : String} :
    s.lookup name = none ↔ name ∉ s.names := by
  simp [lookup_eq_none_iff, MemoryStore.names]

theorem MemoryStore.Written.names {ids : VarId → Prop} {s t : MemoryStore} (h : Written ids s t) :
    t.names = s.names := by
  induction h with
  | refl => rfl
  | @write _ _ id value _ _ _ hw ih =>
    rw [(write_ok hw).2]
    exact (names_update _ id (keepsIdentity_put value)).trans ih

theorem AccessOp.policy_eq (op : AccessOp) (missing : MissingVariables) (name : String) :
    Creation.policy ⟨op.side, name⟩ missing = op.policy missing := by
  cases op <;> rfl

theorem warnings_created (id : VarId) (policy : ExistPolicy) (side : BindingSide) (name : String) :
    Binding.warnings ⟨id, true⟩ policy side name =
      if policy = .shouldExist then [Creation.message ⟨side, name⟩] else [] := by
  simp only [Binding.warnings, Bool.true_and, decide_eq_true_eq]
  rfl

/-! ## Messages -/

/-- The sides are told apart by how their texts begin. -/
theorem BindingSide.eq_of_text {side side' : BindingSide}
    (h : side.text.toList.take 8 = side'.text.toList.take 8) : side = side' := by
  revert h
  cases side <;> cases side' <;> decide

/-- A message tells side and name. -/
theorem Creation.message_injective {c c' : Creation} (h : c.message = c'.message) : c = c' := by
  have happend : ∀ a b c d : String,
      (a ++ b ++ c ++ d).toList = a.toList ++ (b.toList ++ (c.toList ++ d.toList)) := by
    simp
  have htext : ∀ c : Creation, c.message.toList =
      c.side.text.toList ++ (" variable \"".toList ++ (c.name.toList ++ "\"".toList)) :=
    fun c => happend _ _ _ _
  have hlength : ∀ side : BindingSide, 8 ≤ side.text.toList.length := by
    intro side
    cases side <;> decide
  have hlist := congrArg String.toList h
  rw [htext, htext] at hlist
  obtain ⟨side, name⟩ := c
  obtain ⟨side', name'⟩ := c'
  have hstart := congrArg (List.take 8) hlist
  rw [List.take_append_of_le_length (hlength side), List.take_append_of_le_length (hlength side')]
    at hstart
  obtain rfl := BindingSide.eq_of_text hstart
  have hname : name.toList = name'.toList :=
    List.append_cancel_right (List.append_cancel_left (List.append_cancel_left hlist))
  rw [String.toList_injective hname]

/-! ## Notes -/

/-- Between the two workspaces the variables `created` came to be, one after the other. They were
new, they were allowed to be created, and there is a warning for each that should have existed. -/
structure Noted (missing : MissingVariables) (created : List Creation)
    (w w' : Workspace MemoryStore) : Prop where
  names : w'.machine.store.names = w.machine.store.names ++ created.map (·.name)
  fresh : ∀ c ∈ created, c.name ∉ w.machine.store.names
  distinct : (created.map (·.name)).Nodup
  lastId : w'.machine.store.lastId = w.machine.store.lastId + created.length
  allowed : ∀ c ∈ created, c.policy missing ≠ .mustExist
  warnings : w'.warnings =
    w.warnings ++ (created.filter fun c => c.policy missing = .shouldExist).map Creation.message

section Noted

variable {missing : MissingVariables} {w w' w'' : Workspace MemoryStore}

/-- Work that leaves names, counter and warnings alone creates nothing. -/
theorem noted_nil (hnames : w'.machine.store.names = w.machine.store.names)
    (hlastId : w'.machine.store.lastId = w.machine.store.lastId)
    (hwarnings : w'.warnings = w.warnings) : Noted missing [] w w' := by
  constructor <;> simp [hnames, hlastId, hwarnings]

theorem Untouched.noted (h : Untouched w w') : Noted missing [] w w' :=
  noted_nil (by rw [h.store]) (by rw [h.store]) h.warnings

theorem Noted.trans {created created' : List Creation} (h : Noted missing created w w')
    (h' : Noted missing created' w' w'') : Noted missing (created ++ created') w w'' := by
  -- what is created later is new to the store that knows the earlier ones
  have hlater : ∀ c ∈ created', c.name ∉ w.machine.store.names ∧
      c.name ∉ created.map (·.name) := by
    intro c hc
    have hfresh := h'.fresh c hc
    rw [h.names, List.mem_append, not_or] at hfresh
    exact hfresh
  constructor
  · rw [h'.names, h.names, List.map_append, List.append_assoc]
  · intro c hc
    rcases List.mem_append.mp hc with hc | hc
    · exact h.fresh c hc
    · exact (hlater c hc).1
  · rw [List.map_append]
    refine List.nodup_append.mpr ⟨h.distinct, h'.distinct, ?_⟩
    intro name hname name' hname' heq
    obtain ⟨c, hc, rfl⟩ := List.mem_map.mp hname'
    exact (hlater c hc).2 (heq ▸ hname)
  · rw [h'.lastId, h.lastId, List.length_append, Nat.add_assoc]
  · intro c hc
    rcases List.mem_append.mp hc with hc | hc
    · exact h.allowed c hc
    · exact h'.allowed c hc
  · rw [h'.warnings, h.warnings, List.filter_append, List.map_append, List.append_assoc]

/-- What was created can be read off the store. -/
theorem Noted.eq_appeared {created : List Creation} (h : Noted missing created w w') {a : Action}
    (hside : ∀ c ∈ created, c.side = a.side) :
    created = appeared a w.machine.store w'.machine.store := by
  have hnew : w'.machine.store.names.filter (· ∉ w.machine.store.names) =
      created.map (·.name) := by
    rw [h.names, List.filter_append, List.filter_eq_nil_iff.mpr (by simp), List.nil_append,
      List.filter_eq_self]
    intro name hname
    obtain ⟨c, hc, rfl⟩ := List.mem_map.mp hname
    exact decide_eq_true (h.fresh c hc)
  rw [appeared, hnew, List.map_map]
  have hself : ∀ c ∈ created, (⟨a.side, c.name⟩ : Creation) = c := by
    intro c hc
    rw [← hside c hc]
  exact ((List.map_congr_left hself).trans (List.map_id _)).symm

/-- The action created some variables, all on its own side. -/
def Notes (missing : MissingVariables) (a : Action) (w w' : Workspace MemoryStore) : Prop :=
  ∃ created, (∀ c ∈ created, c.side = a.side) ∧ Noted missing created w w'

theorem Noted.notes {a : Action} (h : Noted missing [] w w') : Notes missing a w w' :=
  ⟨[], by simp, h⟩

theorem Notes.trans {a : Action} (h : Notes missing a w w') (h' : Notes missing a w' w'') :
    Notes missing a w w'' := by
  obtain ⟨created, hside, hnoted⟩ := h
  obtain ⟨created', hside', hnoted'⟩ := h'
  refine ⟨created ++ created', ?_, hnoted.trans hnoted'⟩
  intro c hc
  rcases List.mem_append.mp hc with hc | hc
  · exact hside c hc
  · exact hside' c hc

/-- Resolving a name creates its variable, or nothing if there is one already. -/
theorem notes_resolve {a : Action} {name : String} {policy : ExistPolicy} {owner : Option Int32}
    {b : Binding} (hpolicy : Creation.policy ⟨a.side, name⟩ missing = policy)
    (hresolve : MemoryStore.resolve name policy owner w.machine.store = .ok b w'.machine.store)
    (hwarnings : w'.warnings = w.warnings ++ b.warnings policy a.side name) :
    Notes missing a w w' := by
  rcases resolve_ok hresolve with ⟨id, -, rfl, hstore⟩ | ⟨hname, hallowed, rfl, hstore⟩
  · refine Noted.notes (noted_nil ?_ ?_ ?_)
    · rw [hstore]
      exact names_update _ id (keepsIdentity_attachments (· + 1))
    · rw [hstore]
      rfl
    · rw [hwarnings]
      exact List.append_nil _
  · refine ⟨[⟨a.side, name⟩], by simp, ?_⟩
    constructor
    · rw [hstore]
      simp [MemoryStore.names, MemoryStore.insert, newSlot]
    · simpa using lookup_eq_none_iff_names.mp hname
    · simp
    · rw [hstore]
      rfl
    · simpa [hpolicy] using hallowed
    · rw [hwarnings, warnings_created]
      by_cases hshould : policy = .shouldExist <;> simp [hpolicy, hshould]

end Noted

/-! ## Actions -/

section Actions

variable {cfg : Setting}

/-- A change of an evaluation. Only writes resolve names there. -/
theorem Moved.notes {a : Action} {w w' : Workspace MemoryStore} (h : Moved cfg a w w') :
    Notes cfg.options.missing a w w' := by
  cases h with
  | untouched h => exact h.noted.notes
  | written h => exact Noted.notes (noted_nil h.names h.lastId rfl)
  | assigned hscope h => exact Noted.notes (noted_nil rfl rfl rfl)
  | @resolved op target name b t ha hop h =>
    have hside : a.side = .write := by
      rw [ha]
      simp [Action.side, AccessOp.side, hop]
    refine notes_resolve ?_ h ?_
    · rw [hside]
      rfl
    · rw [hside]
      rfl

/-- Binding a variable. A conversion that is missing is found out only after the warning. -/
theorem bindVariable_notes (op : AccessOp) (target : Target) (name : String) :
    Keeps (Notes cfg.options.missing (.access op target)) (bindVariable cfg op name) := by
  intro w
  rw [bindVariable_eq]
  cases hresolve : op.resolves cfg name w.machine.store with
  | error e t =>
    obtain ⟨-, -, rfl⟩ := resolve_error hresolve
    exact (noted_nil rfl rfl rfl).notes
  | ok b t =>
    dsimp only
    generalize hstate : w.bound op b.id t
      (w.warnings ++ b.warnings (op.policy cfg.options.missing) op.side name) = bound
    have hbound : Notes cfg.options.missing (.access op target) w bound := by
      rw [← hstate]
      exact notes_resolve (AccessOp.policy_eq op _ name) hresolve rfl
    have hcheck := checkConversion_untouched op b.id name bound
    split at hcheck
    · next h =>
      rw [h]
      exact hbound.trans hcheck.noted.notes
    · next h =>
      rw [h]
      exact hbound.trans hcheck.noted.notes

/-- Every action notes what it creates, in whatever mode and however it ends. -/
theorem perform_notes (cfg : Setting) (mode : Mode) {a : Action} (ha : a.Listed) :
    Keeps (Notes cfg.options.missing a) (perform cfg mode a) := by
  have hquiet : ∀ {α : Type} {x : WorkM MemoryStore α}, Keeps Untouched x →
      Keeps (Notes cfg.options.missing a) x := fun hx => hx.mono fun _ _ h => h.noted.notes
  cases mode with
  | direct => exact perform_direct_rule (fun _ _ _ => Notes.trans) (fun _ _ => Moved.notes) ha
  | check strict => exact hquiet (perform_untouched cfg _ ha (.inl rfl))
  | compile =>
    by_cases haccess : ∃ op target, a = .access op target
    · obtain ⟨op, target, rfl⟩ := haccess
      refine Keeps.bind (R := Notes cfg.options.missing (.access op target))
        (fun _ _ _ => Notes.trans) (hquiet (targetName_untouched cfg .compile target)) ?_
      exact fun name => bindVariable_notes op target name
    · refine hquiet (perform_untouched cfg .compile ha (.inr ?_))
      exact fun op target h => haccess ⟨op, target, h⟩

theorem perform_noted (cfg : Setting) (mode : Mode) {a : Action} (ha : a.Listed) :
    Keeps (fun w w' => Noted cfg.options.missing
      (appeared a w.machine.store w'.machine.store) w w') (perform cfg mode a) := by
  apply (perform_notes cfg mode ha).mono
  rintro w w' ⟨created, hside, hnoted⟩
  rw [← hnoted.eq_appeared hside]
  exact hnoted

theorem performAll_noted (cfg : Setting) (mode : Mode) {actions : List Action}
    (hlisted : ∀ a ∈ actions, a.Listed) :
    Keeps (fun w w' => Noted cfg.options.missing (creations cfg mode actions w) w w')
      (performAll cfg mode actions) := by
  induction actions with
  | nil => exact fun w => noted_nil rfl rfl rfl
  | cons a actions ih =>
    intro w
    have hfirst := perform_noted cfg mode (hlisted a (by simp)) w
    simp only [performAll, bind_apply, creations]
    cases hperform : perform cfg mode a w with
    | error r w' =>
      rw [hperform] at hfirst
      exact hfirst
    | ok u w' =>
      rw [hperform] at hfirst
      have hrest := ih (fun b hb => hlisted b (List.mem_cons_of_mem a hb)) w'
      dsimp only
      split at hrest
      · next h =>
        rw [h]
        exact hfirst.trans hrest
      · next h =>
        rw [h]
        exact hfirst.trans hrest

/-- And so does a whole equation: a fault in its text comes after the last action. -/
theorem interpret_noted (cfg : Setting) (mode : Mode) (source : String) (s : MemoryStore)
    (scope : Option Scope) :
    match interpret cfg mode (.ofText cfg.dialect source) (.start s scope) with
    | .ok _ w => Noted cfg.options.missing (cfg.created mode scope source s) (.start s scope) w
    | .error _ w =>
      Noted cfg.options.missing (cfg.created mode scope source s) (.start s scope) w := by
  have hall := performAll_noted cfg mode (Script.ofText_disciplined cfg.dialect source).listed
    (.start s scope)
  simp only [interpret, bind_apply]
  cases hperform : performAll cfg mode (Script.ofText cfg.dialect source).actions
      (.start s scope) with
  | error r w =>
    rw [hperform] at hall
    exact hall
  | ok u w =>
    rw [hperform] at hall
    dsimp only
    cases (Script.ofText cfg.dialect source).fault with
    | none => exact hall
    | some f => exact hall

end Actions

/-! ## Whole equations -/

def Outcome.reported {σ α : Type} (o : Outcome σ α) (warnings : α → List String) : List String :=
  match o.result with
  | .ok a => warnings a
  | .error e => e.warnings

/-- The variables `created` are new, each of them counted once by the store, and the warnings are
those that the options want. -/
structure Accounted (missing : MissingVariables) (created : List Creation) (warnings : List String)
    (before after : MemoryStore) : Prop where
  /-- No variable is created twice, nor one that was there. -/
  new : (created.map (·.name)).Nodup ∧ ∀ c ∈ created, before.lookup c.name = none
  /-- The store has handed out that many numbers. -/
  counted : after.lastId = before.lastId + created.length
  stop : missing = .stopOnAccess → created = [] ∧ warnings = []
  warn : missing = .warnOnAccess → warnings = created.map Creation.message ∧ warnings.Nodup
  silent : missing = .autoCreate ∨ missing = .autoCreateThenRemove → warnings = []

theorem Noted.accounted {missing : MissingVariables} {created : List Creation} {s t : MemoryStore}
    {scope : Option Scope} {w : Workspace MemoryStore}
    (h : Noted missing created (.start s scope) w) (ht : t.lastId = w.machine.store.lastId) :
    Accounted missing created w.warnings s t where
  new := ⟨h.distinct, fun c hc => lookup_eq_none_iff_names.mpr (h.fresh c hc)⟩
  counted := by
    rw [ht]
    exact h.lastId
  stop := by
    rintro rfl
    have hnone : created = [] := by
      apply List.eq_nil_iff_forall_not_mem.mpr
      intro c hc
      apply h.allowed c hc
      simp [Creation.policy, MissingVariables.readPolicy, MissingVariables.writePolicy]
    refine ⟨hnone, ?_⟩
    rw [h.warnings, hnone]
    rfl
  warn := by
    rintro rfl
    have hall : w.warnings = created.map Creation.message := by
      rw [h.warnings, List.filter_eq_self.mpr]
      · rfl
      · intro c _
        simp [Creation.policy, MissingVariables.readPolicy, MissingVariables.writePolicy]
    refine ⟨hall, ?_⟩
    -- one message tells one name, and no name was created twice
    have hmessages : created.Pairwise fun c c' => c.message ≠ c'.message :=
      (List.pairwise_map.mp h.distinct).imp fun hne heq =>
        hne (congrArg Creation.name (Creation.message_injective heq))
    rw [hall]
    exact List.pairwise_map.mpr hmessages
  silent := by
    intro hmissing
    rw [h.warnings, List.filter_eq_nil_iff.mpr]
    · rfl
    · intro c _
      rcases hmissing with rfl | rfl <;>
        simp [Creation.policy, MissingVariables.readPolicy, MissingVariables.writePolicy]

theorem lastId_detachAll (ids : List VarId) (s : MemoryStore) :
    (Program.detachAll ids s).lastId = s.lastId := by
  induction ids generalizing s with
  | nil => rfl
  | cons id ids ih =>
    have hdetach : (s.detach id).lastId = s.lastId := by
      simp only [MemoryStore.detach]
      split
      · split <;> rfl
      · rfl
    exact (ih (s.detach id)).trans hdetach

theorem compile_noted (cfg : Setting) (scope : Option Scope) (source : String) (s : MemoryStore) :
    ∃ w, Noted cfg.options.missing (cfg.created .compile scope source s) (.start s scope) w ∧
      (compile cfg scope source s).reported (·.warnings) = w.warnings ∧
      (compile cfg scope source s).store.lastId = w.machine.store.lastId := by
  have hnoted := interpret_noted cfg .compile source s scope
  rw [compile, Parser.read_eq_interpret]
  cases hrun : interpret cfg .compile (.ofText cfg.dialect source) (.start s scope) with
  | ok u w =>
    rw [hrun] at hnoted
    exact ⟨w, hnoted, rfl, rfl⟩
  | error r w =>
    rw [hrun] at hnoted
    exact ⟨w, hnoted, rfl, lastId_detachAll _ _⟩

theorem evaluate_noted (cfg : Setting) (scope : Option Scope) (source : String) (s : MemoryStore) :
    ∃ w, Noted cfg.options.missing (cfg.created .direct scope source s) (.start s scope) w ∧
      (evaluate cfg scope source s).reported (·.warnings) = w.warnings ∧
      (evaluate cfg scope source s).store.lastId = w.machine.store.lastId := by
  have hnoted := interpret_noted cfg .direct source s scope
  rw [evaluate, Parser.read_eq_interpret]
  cases hrun : interpret cfg .direct (.ofText cfg.dialect source) (.start s scope) with
  | error r w =>
    rw [hrun] at hnoted
    exact ⟨w, hnoted, rfl, lastId_detachAll _ _⟩
  | ok u w =>
    rw [hrun] at hnoted
    dsimp only
    -- an evaluation that leaves no result fails with the warnings that it has
    cases w.machine.stack.bottom? with
    | none => exact ⟨w, hnoted, rfl, lastId_detachAll _ _⟩
    | some v => exact ⟨w, hnoted, rfl, lastId_detachAll _ _⟩

/-- The account of missing variables, for every equation, compiled or evaluated, whether that
succeeds or fails. Where access to a missing variable is to stop the equation, nothing is created
and nothing is said. Where it is to be warned about, the warnings are one message for each variable
that was created, in that order, with its name and the side of the access. Where variables are
created without ado, there are no warnings. -/
theorem missing_accounted (cfg : Setting) (scope : Option Scope) (source : String)
    (s : MemoryStore) :
    Accounted cfg.options.missing (cfg.created .compile scope source s)
        ((compile cfg scope source s).reported (·.warnings)) s
        (compile cfg scope source s).store ∧
      Accounted cfg.options.missing (cfg.created .direct scope source s)
        ((evaluate cfg scope source s).reported (·.warnings)) s
        (evaluate cfg scope source s).store := by
  constructor
  · obtain ⟨w, hnoted, hwarnings, hlastId⟩ := compile_noted cfg scope source s
    rw [hwarnings]
    exact hnoted.accounted hlastId
  · obtain ⟨w, hnoted, hwarnings, hlastId⟩ := evaluate_noted cfg scope source s
    rw [hwarnings]
    exact hnoted.accounted hlastId

-- a variable is created by the first access to it, and the last access fails
example :
    ({ options := { missing := .warnOnAccess } } : Setting).created .compile none
        "b + (x = b) + phys(z)" {} = [⟨.read, "b"⟩, ⟨.write, "x"⟩, ⟨.read, "z"⟩] := rfl

end SignalCalc
