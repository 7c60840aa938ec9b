import SignalCalc.Proofs.Equation.StrictCheck
import SignalCalc.Proofs.Script.Descent
import SignalCalc.Proofs.Token.Scanning

/-! # References

A reference of a script's scope names a variable of the store, and `*r` reaches that variable: to
read it, to assign to it, and to change it. The name behind a reference is looked up like any other,
local variables first, so that this holds as long as no local variable goes by the name.
-/

namespace SignalCalc

open MemoryStore WorkM

/-! ## Text -/

/-- A text that is one number, perhaps with a minus sign that belongs to it. -/
structure Literal where
  chars : List Char
  value : Value
  reads : Tokens.ofText chars = ⟨[.number value], .done⟩ ∨
    ∃ v, Tokens.ofText chars = ⟨[.symbol .minus, .number v], .done⟩ ∧ negatedLiteral? v = some value

def Name.starred (r : Name) : List Char := '*' :: r.chars

def Name.assigned (r : Name) (sign : AssignOp) (n : Literal) : List Char :=
  r.starred ++ ' ' :: (sign.symbol.spelling ++ ' ' :: n.chars)

/-- A sign that does not go on to a compound assignment. -/
theorem next_sign {s : Symbol} (hs : s = .star ∨ s = .minus) {c : Char} (hc : c ≠ '=')
    (cs : List Char) : Token.next (s.spelling ++ c :: cs) = .token (.symbol s) (c :: cs) := by
  have hread : Symbol.read? (s.spelling ++ c :: cs) = some (s, c :: cs) := by
    obtain rfl | rfl := hs <;>
      simp [Symbol.read?, Symbol.doubles, Symbol.singles, Symbol.spelling, List.isPrefixOf, hc.symm]
  obtain rfl | rfl := hs
  all_goals
    simp only [Symbol.spelling, List.cons_append, List.nil_append] at hread ⊢
    simp [Token.next, Text.isGap, isNameStart, hread]

theorem Name.ofText_starred (r : Name) {rest : List Char} (hrest : Apart rest) :
    Tokens.ofText (r.starred ++ rest) =
      (Tokens.ofText rest).behind [.symbol .star, .name r.text] := by
  obtain ⟨chars, hvalid⟩ := r
  cases chars with
  | nil => cases hvalid
  | cons c cs =>
    have hc : c ≠ '=' := ne_of_class (isNameChar_of_isVariableName hvalid c (by simp)) rfl
    have hname := (lexes_name hvalid).ofText_append hrest
    have hstar : Token.next ('*' :: c :: (cs ++ rest)) = .token (.symbol .star) (c :: (cs ++ rest)) :=
      next_sign (.inl rfl) hc (cs ++ rest)
    rw [starred, List.cons_append, List.cons_append, ofText_token hstar]
    rw [List.cons_append] at hname
    rw [hname, Tokens.behind_behind]
    rfl

theorem Name.ofText_assigned (r : Name) (sign : AssignOp) (n : Literal) :
    Tokens.ofText (r.assigned sign n) =
      (Tokens.ofText n.chars).behind [.symbol .star, .name r.text, .symbol sign.symbol] := by
  have hsign : sign.symbol ≠ .openParen := by cases sign <;> decide
  rw [assigned, r.ofText_starred (apart_symbol hsign _), ofText_space,
    ofText_token (next_symbol sign.symbol (spaced_cons n.chars)), ofText_space,
    Tokens.behind_behind]
  rfl

/-! ## Scripts -/

section Scripts

variable (dialect : Dialect)

theorem reads_literal (n : Literal) (depth : Nat) :
    Reads (expression (operand dialect (depth + 1))) (Tokens.ofText n.chars).tokens [.push n.value] ()
      [] := by
  apply Reads.alone
  obtain hplain | ⟨v, hsigned, hv⟩ := n.reads
  · rw [hplain]
    apply reads_current.then
    exact (reads_advance _).then (reads_emit _)
  · rw [hsigned]
    apply reads_current.then
    exact (reads_advance _).then (Expr.reads_negative hv _ [])

/-- A starred name is followed, and then read or assigned to. -/
theorem reads_starred {name : String} {ts rest : List Token} {acts : List Action} {depth : Nat}
    (h : Reads (variableUse (operand dialect depth) (.reference name) .read .write) ts acts () rest) :
    Reads (operand dialect (depth + 1)) (.symbol .star :: .name name :: ts) (.follow name :: acts) ()
      rest := by
  apply reads_current.then
  apply (reads_advance _).then
  apply reads_current.then
  apply (reads_emit _).bind
  exact (reads_advance _).then h

theorem Script.ofText_starred (r : Name) :
    Script.ofText dialect (String.ofList r.starred) =
      ⟨[.follow r.text, .access .read (.reference r.text)], none⟩ := by
  have htokens := r.ofText_starred apart_nil
  rw [List.append_nil, ofText_nil] at htokens
  apply Script.ofText_of_reads htokens
  apply Reads.alone
  exact reads_starred dialect (Expr.reads_variable (follows_nil 11) _ _ _ _)

theorem Script.ofText_assigned (r : Name) (sign : AssignOp) (n : Literal) :
    Script.ofText dialect (String.ofList (r.assigned sign n)) =
      ⟨.follow r.text :: .push n.value :: sign.actions (.reference r.text) .read .write, none⟩ := by
  have hdone : (Tokens.ofText n.chars).ending = .done := by
    obtain hplain | ⟨v, hsigned, -⟩ := n.reads
    · rw [hplain]
    · rw [hsigned]
  have htokens : Tokens.ofText (r.assigned sign n) = ⟨[.symbol .star, .name r.text,
      .symbol sign.symbol] ++ (Tokens.ofText n.chars).tokens, .done⟩ := by
    rw [r.ofText_assigned, ← hdone]
    rfl
  apply Script.ofText_of_reads htokens
  apply Reads.alone
  apply reads_starred
  rw [show (r.assigned sign n).length = (r.assigned sign n).length - 1 + 1 by
    simp only [Name.assigned, List.length_append, List.length_cons]; omega]
  exact Expr.reads_assignment (reads_literal dialect n _) sign _ _ _

end Scripts

/-! ## Accesses through a reference -/

/-- Giving an attachment back that was taken before a write leaves the write. -/
theorem MemoryStore.WellFormed.detach_put_attach {s : MemoryStore} (hs : s.WellFormed) {id : VarId}
    {slot : Slot} (hslot : s.slot? id = some slot) (value : Value) :
    ((s.attach id).update id (·.put value)).detach id = s.update id (·.put value) := by
  have hwritten : ((s.attach id).update id (·.put value)).slot? id =
      some { slot.put value with attachments := slot.attachments + 1 } := by
    rw [slot?_update _ id id (keepsIdentity_put value), if_pos rfl, MemoryStore.attach,
      slot?_update _ id id (keepsIdentity_attachments (· + 1)), if_pos rfl, hslot]
    rfl
  -- a variable that would go with its last attachment has another one
  have hstays : ¬(slot.attachments + 1 ≤ 1 ∧ (slot.put value).pinned = false) := by
    rintro ⟨hlast, hpinned⟩
    have hheld := hs.held slot (mem_of_slot? hslot).1 hpinned
    omega
  rw [MemoryStore.detach, hwritten]
  dsimp only
  rw [if_neg hstays]
  simp only [MemoryStore.attach, MemoryStore.update, List.map_map]
  congr 1
  refine List.map_congr_left fun other _ => ?_
  simp only [Function.comp_def]
  by_cases hother : other.id = id <;> simp [hother, Slot.put]

/-- In the scope of a script `r` is a reference to the variable `target` of the store, and no local
variable is called `target`. -/
structure Points (cfg : Setting) (scope : Scope) (r target : String) : Prop where
  enabled : cfg.options.scriptLocals = true
  unreplaced : cfg.options.replacement = none
  reference : scope.dereference? r = some target
  unshadowed : scope.read? target = none

section Points

variable {cfg : Setting} {scope : Scope} {r target : String} {w : Workspace MemoryStore} {id : VarId}

theorem Points.locals (h : Points cfg scope r target) (hw : w.scope = some scope) :
    cfg.locals? w.scope = some scope := by
  simp [Setting.locals?, h.enabled, hw]

theorem Points.dereference (h : Points cfg scope r target) (hw : w.scope = some scope) :
    dereference cfg .direct r w = .ok target w := by
  simp [dereference_eq, h.locals hw, h.reference]

theorem Points.perform_follow (h : Points cfg scope r target) (hw : w.scope = some scope) :
    perform cfg .direct (.follow r) w = .ok () w := by
  rw [perform, bind_apply, h.dereference hw]
  rfl

/-- What local variables leave to the store goes there. -/
theorem Points.perform_access (h : Points cfg scope r target) (hw : w.scope = some scope)
    {op : AccessOp} (hlocal : accessLocal cfg op target w = .ok false w) :
    perform cfg .direct (.access op (.reference r)) w = accessStore cfg op target w := by
  have haccess : accessVariable cfg op target w = accessStore cfg op target w := by
    simp only [accessVariable, h.unreplaced, Option.filter_none, bind_apply, hlocal]
    rfl
  rw [perform, bind_apply, show targetName cfg .direct (.reference r) w = .ok target w from
    h.dereference hw]
  exact haccess

theorem emit_direct {i i' : Instruction} {m : Machine MemoryStore}
    (h : Machine.step cfg.plugins { lockHeld := cfg.options.lockHeld } i w.machine = .ok i' m) :
    emit cfg .direct i w = .ok () { w with machine := m } := by
  simp only [emit, bind_apply, onMachine, h]
  rfl

theorem Points.perform_read (h : Points cfg scope r target) (hw : w.scope = some scope)
    (hid : w.machine.store.lookup target = some id)
    (hroom : w.machine.stack.entries.length < stackCapacity) :
    perform cfg .direct (.access .read (.reference r)) w =
      .ok () { w with
        machine :=
          ⟨⟨w.machine.store.read id :: w.machine.stack.entries, hroom⟩, w.machine.store⟩ } := by
  have hlocal : accessLocal cfg .read target w = .ok false w := by
    simp only [accessLocal, bind_apply, locals_eq (by simp : Mode.direct ≠ .compile), h.locals hw,
      h.unshadowed]
    rfl
  have hlookup : VariableStore.lookup w.machine.store target = some id := hid
  rw [h.perform_access hw hlocal, accessStore, bind_apply, findVariable_read rfl, hlookup]
  dsimp only
  rw [bind_apply, checkConversion_eq, if_neg (by simp [AccessOp.isPhysical])]
  apply emit_direct
  have hpush : Stack.push (VariableStore.read w.machine.store id) w.machine.stack =
      .ok () ⟨w.machine.store.read id :: w.machine.stack.entries, hroom⟩ := dif_pos hroom
  simp only [Machine.step, Instruction.access, Machine.builtin, Machine.access,
    Context.replacement?, bind, EStateM.bind, Machine.getStore, Machine.push, Machine.onStack, hpush]
  rfl

theorem Points.perform_write (h : Points cfg scope r target) (hw : w.scope = some scope)
    (hs : w.machine.store.WellFormed) (hid : w.machine.store.lookup target = some id) {v : Value}
    (hv : w.machine.stack.entries.head? = some v) :
    perform cfg .direct (.access .write (.reference r)) w =
      .ok () { w with
        machine := ⟨w.machine.stack, (w.machine.store.attach id).update id (·.put v)⟩
        bindings := w.bindings ++ [⟨id, false⟩] } := by
  have hpeek : Stack.peek w.machine.stack = .ok v w.machine.stack := by
    unfold Stack.peek
    cases hentries : w.machine.stack.entries with
    | nil => simp [hentries] at hv
    | cons top below => simpa [hentries] using hv
  have hlocal : accessLocal cfg .write target w = .ok false w := by
    simp only [accessLocal, bind_apply, locals_eq (by simp : Mode.direct ≠ .compile), h.locals hw,
      WorkM.onStack, onMachine, Machine.onStack, hpeek, Scope.write?, h.unshadowed]
    rfl
  have hresolve : VariableStore.resolve target cfg.options.missing.writePolicy cfg.options.owner
      w.machine.store = .ok ⟨id, false⟩ (w.machine.store.attach id) := by
    simp only [VariableStore.resolve, MemoryStore.resolve, hid]
    rfl
  obtain ⟨slot, hslot, -⟩ := hs.slot?_of_lookup hid
  -- the attachment that is taken first hides nothing of the variable
  have hfound : (w.machine.store.attach id).sight id = some slot.sight := by
    rw [sight_attach, sight, hslot]
    rfl
  have hwrite : ∀ lockHeld, VariableStore.write id v lockHeld (w.machine.store.attach id) =
      .ok () ((w.machine.store.attach id).update id (·.put v)) := by
    intro lockHeld
    show MemoryStore.write id v lockHeld _ = _
    rw [write_of_sight, hfound]
  rw [h.perform_access hw hlocal, accessStore, bind_apply, findVariable_write_ok rfl hresolve]
  dsimp only
  rw [bind_apply, checkConversion_eq, if_neg (by simp [AccessOp.isPhysical])]
  dsimp only
  rw [emit_direct (m := ⟨w.machine.stack, (w.machine.store.attach id).update id (·.put v)⟩)]
  · simp [Workspace.holding, Binding.warnings]
  · simp only [Machine.step, Machine.builtin, Machine.access, bind, EStateM.bind,
      Machine.onStack, Machine.onStore, Instruction.access, Workspace.holding, hpeek, hwrite]
    rfl

end Points

/-! ## Evaluations through a reference -/

def AssignOp.apply : AssignOp → Value → Value → Value
  | .set, _, new => new
  | .add, old, new => old.add new
  | .sub, old, new => old.sub new
  | .mul, old, new => old.mul new
  | .div, old, new => old.div new

theorem performAll_cons {σ : Type} [VariableStore σ] {cfg : Setting} {mode : Mode} {a : Action}
    {w w' : Workspace σ} (h : perform cfg mode a w = .ok () w') (actions : List Action) :
    performAll cfg mode (a :: actions) w = performAll cfg mode actions w' := by
  simp only [performAll, bind_apply, h]

def Stack.one (a : Value) : Stack := ⟨[a], show 1 ≤ stackCapacity by decide⟩

def Stack.two (a b : Value) : Stack := ⟨[a, b], show 2 ≤ stackCapacity by decide⟩

def Workspace.stacked (s : MemoryStore) (scope : Scope) (stack : Stack) : Workspace MemoryStore :=
  { Workspace.start s (some scope) with machine := ⟨stack, s⟩ }

section Evaluations

variable {cfg : Setting} {scope : Scope} {r target : String} {s : MemoryStore} {id : VarId}

/-- A compound assignment combines the old value, read last, with the new one below it. -/
theorem Points.performAll_combine (h : Points cfg scope r target) (hid : s.lookup target = some id)
    {sign : AssignOp} {op : Opcode} (hop : sign.combine? = some op) (new : Value)
    (actions : List Action) :
    performAll cfg .direct (.access .read (.reference r) :: .operate (.stack .swap) :: .operate op ::
        actions) (.stacked s scope (.one new)) =
      performAll cfg .direct actions (.stacked s scope (.one (sign.apply (s.read id) new))) := by
  have hread := h.perform_read (w := .stacked s scope (.one new)) rfl hid
    (show 1 < stackCapacity by decide)
  have hswap : perform cfg .direct (.operate (.stack .swap))
      (.stacked s scope (.two (s.read id) new)) =
    .ok () (.stacked s scope (.two new (s.read id))) := rfl
  have hcombine : perform cfg .direct (.operate op) (.stacked s scope (.two new (s.read id))) =
      .ok () (.stacked s scope (.one (sign.apply (s.read id) new))) := by
    cases sign <;> cases hop <;> rfl
  exact (performAll_cons hread _).trans ((performAll_cons hswap _).trans (performAll_cons hcombine _))

theorem Points.performAll_assign (h : Points cfg scope r target) (hs : s.WellFormed)
    (hid : s.lookup target = some id) (sign : AssignOp) (v : Value) :
    performAll cfg .direct (.push v :: sign.actions (.reference r) .read .write)
        (.start s (some scope)) =
      .ok () { Workspace.start s (some scope) with
        machine := ⟨.one (sign.apply (s.read id) v),
          (s.attach id).update id (·.put (sign.apply (s.read id) v))⟩
        bindings := [⟨id, false⟩] } := by
  have hpush : perform cfg .direct (.push v) (.start s (some scope)) =
    .ok () (.stacked s scope (.one v)) := rfl
  have hwrite := fun new =>
    h.perform_write (w := .stacked s scope (.one new)) (v := new) rfl hs hid rfl
  rw [performAll_cons hpush, AssignOp.actions]
  cases hop : sign.combine? with
  | none =>
    rw [performAll_cons (hwrite v)]
    cases sign with
    | set => rfl
    | add | sub | mul | div => cases hop
  | some op =>
    dsimp only
    rw [h.performAll_combine hid hop, performAll_cons (hwrite _)]
    rfl

end Evaluations

theorem evaluate_of_performAll {cfg : Setting} {scope : Option Scope} {cs : List Char}
    {s : MemoryStore} {actions : List Action} {w : Workspace MemoryStore} {v : Value}
    (hscript : Script.ofText cfg.dialect (String.ofList cs) = ⟨actions, none⟩)
    (hperform : performAll cfg .direct actions (.start s scope) = .ok () w)
    (hresult : w.machine.stack.bottom? = some v) :
    evaluate cfg scope (String.ofList cs) s =
      ⟨.ok ⟨v, w.warnings⟩, releaseBindings cfg.options.missing w.bindings w.machine.store,
        w.scope⟩ := by
  have hinterpret : interpret cfg .direct (.ofText cfg.dialect (String.ofList cs)) (.start s scope) =
      .ok () w := by
    rw [hscript, interpret, bind_apply, hperform]
    rfl
  simp only [evaluate, Parser.read_eq_interpret, hinterpret, hresult]

/-- A reference reaches the variable of the store that it points to, if no local variable has that
variable's name. Reading it gives what the store holds and changes nothing. An assignment, simple or
compound, of a number writes the variable, changes nothing else in the store and no local
variable. -/
theorem reference_reaches_store {cfg : Setting} {scope : Scope} {r : Name} {target : String}
    (h : Points cfg scope r.text target) {s : MemoryStore} (hs : Reachable s) {id : VarId}
    (hid : s.lookup target = some id) :
    evaluate cfg (some scope) (String.ofList r.starred) s = ⟨.ok ⟨s.read id, []⟩, s, some scope⟩ ∧
      ∀ (sign : AssignOp) (n : Literal),
        evaluate cfg (some scope) (String.ofList (r.assigned sign n)) s =
          ⟨.ok ⟨sign.apply (s.read id) n.value, []⟩,
            s.update id (·.put (sign.apply (s.read id) n.value)), some scope⟩ := by
  have hfollow := h.perform_follow (w := .start s (some scope)) rfl
  constructor
  · have hread := h.perform_read (w := .start s (some scope)) rfl hid
      (show 0 < stackCapacity by decide)
    have hperform : performAll cfg .direct [.follow r.text, .access .read (.reference r.text)]
        (.start s (some scope)) = .ok () (.stacked s scope (.one (s.read id))) := by
      rw [performAll_cons hfollow, performAll_cons hread]
      rfl
    exact evaluate_of_performAll (Script.ofText_starred cfg.dialect r) hperform rfl
  · intro sign n
    obtain ⟨slot, hslot, -⟩ := hs.wellFormed.slot?_of_lookup hid
    have hperform := (performAll_cons hfollow _).trans
      (h.performAll_assign hs.wellFormed hid sign n.value)
    rw [evaluate_of_performAll (Script.ofText_assigned cfg.dialect r sign n) hperform rfl,
      ← hs.wellFormed.detach_put_attach hslot]
    rfl

/-- A script that reads and changes the speed in the store through its reference `target`. -/
theorem reference_reaches_store_speed :
    let cfg : Setting := { options := { scriptLocals := true } }
    let scope : Scope := { values := [("count", .ofInt64 4)], references := [("target", "speed")] }
    let s := (({} : MemoryStore).define "speed" .uint16 (.ofUInt64 30)).2
    evaluate cfg (some scope) "*target" s = ⟨.ok ⟨s.read ⟨1⟩, []⟩, s, some scope⟩ ∧
      evaluate cfg (some scope) "*target += 15" s =
        ⟨.ok ⟨(s.read ⟨1⟩).add ⟨.signed 15, 4⟩, []⟩,
          s.update ⟨1⟩ (·.put ((s.read ⟨1⟩).add ⟨.signed 15, 4⟩)), some scope⟩ := by
  intro cfg scope s
  let r : Name := ⟨"target".toList, by decide⟩
  let n : Literal :=
    ⟨Nat.toDigits 10 15, Numeral.plainValue 15, .inl (lexes_number (by decide)).ofText⟩
  have h : Points cfg scope r.text "speed" := ⟨rfl, rfl, by decide, by decide⟩
  have hs : Reachable s := .define "speed" .uint16 (.ofUInt64 30) .empty
  have hid : s.lookup "speed" = some ⟨1⟩ := by decide
  have hboth := reference_reaches_store h hs hid
  have hread : String.ofList r.starred = "*target" := by decide
  have hassign : String.ofList (r.assigned .add n) = "*target += 15" := by decide
  rw [hread] at hboth
  have hadd := hboth.2 .add n
  rw [hassign] at hadd
  exact ⟨hboth.1, hadd⟩

/-- The same reference, with a local variable that has the name of the variable behind it. Reading
gives the local variable's value, and an assignment changes the local variable and leaves the store
as it was. -/
theorem reference_meets_local :
    let cfg : Setting := { options := { scriptLocals := true } }
    let scope : Scope := { values := [("speed", .ofInt64 4)], references := [("target", "speed")] }
    let s := (({} : MemoryStore).define "speed" .uint16 (.ofUInt64 30)).2
    let reading := evaluate cfg (some scope) "*target" s
    let writing := evaluate cfg (some scope) "*target = 45" s
    scope.dereference? "target" = some "speed" ∧ s.lookup "speed" = some ⟨1⟩ ∧
      (s.read ⟨1⟩).toUInt64 = 30 ∧
      reading.result.toOption.map (·.value.toUInt64) = some 4 ∧
      writing.result.toOption.map (·.value.toUInt64) = some 45 ∧
      (writing.store.read ⟨1⟩).toUInt64 = 30 ∧
      (writing.scope.bind (·.read? "speed")).map (·.toUInt64) = some 45 := by
  decide +kernel

end SignalCalc
