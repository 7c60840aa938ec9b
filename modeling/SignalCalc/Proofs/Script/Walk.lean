import SignalCalc.Proofs.Script.Listing

/-! # Walks through the productions

Whatever is known of the descent is known by a walk through its productions: something is said of two
readings of one production, or of one reading alone, and it is passed on from the pieces of a
production to the whole. The walk is the same each time. It is made once here, for anything that is
passed on by the few steps out of which the productions are made.

A relation stands between two readings at a place. It may depend on how many entries the pieces take
off the stack and leave there, and on whether a demand for an immediate answer stands before them.
Places are tokens with what has to be known about their surroundings.
-/

namespace SignalCalc

open Reading

/-! ## Steps and walks -/

/-- What stops or lets pass, and does nothing else. -/
inductive Action.Asks : Action → Prop where
  | follow (reference : String) : Asks (.follow reference)
  | immediate (function : String) : Asks (.demand .immediate function)

/-- Whether what comes after the action is guarded by it. -/
def Action.guards : Action → Bool
  | .demand .immediate _ => true
  | _ => false

/-- A relation between readings that is passed on where pieces stand one behind the other. -/
structure Steps where
  Place : Type
  /-- A place comes after another one, with any number of tokens in between. -/
  Later : Place → Place → Prop
  /-- Behind a guard or not, with so many entries below on the stack and with so many after it. -/
  Rel {α : Type} (g : Bool) (n m : Nat) (p : Place) (r r' : Reading α) : Prop
  later_trans {p q s : Place} (h : Later q p) (h' : Later s q) : Later s p
  done {α : Type} {g : Bool} {n : Nat} {p : Place} (a : α) :
    Rel g n n p (pure a : Reading α) (pure a)
  bind {α β : Type} {g : Bool} {n k m : Nat} {p : Place} {r r' : Reading α}
    {next next' : α → Reading β} (hr : Rel g n k p r r')
    (hnext : ∀ a q, Later q p → Rel g k m q (next a) (next' a)) :
    Rel g n m p (r >>= next) (r' >>= next')
  raise {α : Type} {g : Bool} {n m : Nat} {p : Place} {r r' : Reading α} (h : Rel g n m p r r')
    (k : Nat) : Rel g (n + k) (m + k) p r r'
  emit {g : Bool} {p : Place} {a : Action} (hlisted : a.Listed) (hplain : a.isPlain = true)
    (hguarded : g = true ∨ Guarded [a]) :
    Rel g a.use.takes a.use.gives p (Reading.emit a) (Reading.emit a)
  /-- What is behind the action is at the same place. -/
  ask {α : Type} {g : Bool} {n m : Nat} {p : Place} {a : Action} {next next' : Reading α}
    (ha : a.Asks) (hnext : Rel (g || a.guards) n m p next next') :
    Rel g n m p (Reading.emit a >>= fun _ => next) (Reading.emit a >>= fun _ => next')
  /-- A refusal may stand for anything. Only calls come upon functions that are not known, and only
  where fuel has run out is an equation nested too deep. -/
  refuse {α : Type} {g : Bool} {n m : Nat} {p : Place} {f : SourceFault}
    (hdeep : f ≠ .text .tooDeep) (hknown : ∀ name, f ≠ .text (.unknownFunction name)) :
    Rel g n m p (Reading.refuse f : Reading α) (Reading.refuse f)

/-- A relation between readings that is passed on in all productions. The operands inside of an
operand that starts at a place of one kind start at places of another kind. -/
structure Walk (dialect : Dialect) extends Steps where
  tokens : Place → List Token
  /-- Where a nested text starts. -/
  nested : List Char → Place
  /-- A place is next behind the token at another one. -/
  Over : Place → Place → Prop
  /-- The second reading has a closing parenthesis behind the tokens of the first. -/
  Followed : Place → Prop
  /-- An operand may start here. -/
  Start : Place → Prop
  /-- An operand inside of it may start here. -/
  Inside : Place → Prop
  /-- Fuel for the loops of both readings over the operators. -/
  Fuel : Place → Nat → Nat → Prop
  nested_alone {text : List Char} : ¬ Followed (nested text)
  followed_of_later {p q : Place} (h : Later q p) (hq : Followed q) : Followed p
  inside_of_later {p q : Place} (h : Later q p) (hp : Inside p) : Inside q
  inside_of_over {p q : Place} (h : Over q p) (hp : Inside p) : Inside q
  inside_of_start {p q : Place} (h : Over q p) (hp : Start p) : Inside q
  inside_of_call {p : Place} {name : String} {args text : List Char} {us : List Token}
    (hp : Start p) (htokens : tokens p = .call name args :: us)
    (htext : text ∈ splitArguments args) : Inside (nested text)
  current {α : Type} {g : Bool} {n m : Nat} {p : Place} {next next' : Option Token → Reading α}
    (hnone : tokens p = [] → Rel g n m p (next none) (next' none))
    (hclose : tokens p = [] → Followed p →
      Rel g n m p (next none) (next' (some (.symbol .closeParen))))
    (hsome : ∀ t us, tokens p = t :: us → Rel g n m p (next (some t)) (next' (some t))) :
    Rel g n m p (Reading.current >>= next) (Reading.current >>= next')
  advance {α : Type} {g : Bool} {n m : Nat} {p : Place} {t : Token} {us : List Token}
    {next next' : Reading α} (htokens : tokens p = t :: us) (ht : t.IsFlat)
    (hnext : ∀ q, Over q p → Rel g n m q next next') :
    Rel g n m p (Reading.advance >>= fun _ => next) (Reading.advance >>= fun _ => next')
  group {α : Type} {g : Bool} {n m : Nat} {p : Place} {us : List Token} {x x' : Reading α}
    (htokens : tokens p = .symbol .openParen :: us)
    (hx : ∀ q, Over q p → Rel g n m q x x') :
    Rel g n m p (Reading.advance >>= fun _ => x >>= fun _ => closing)
      (Reading.advance >>= fun _ => x' >>= fun _ => closing)
  settle {g : Bool} {n : Nat} {p : Place} : Rel g n n p Reading.settle Reading.settle
  ending {g : Bool} {n : Nat} {p : Place} : Rel g n n p Reading.ending Reading.ending
  within {g : Bool} {n m : Nat} {p : Place} {text : List Char} {r r' : Reading Unit}
    (h : Rel g n m (nested text) r r') :
    Rel g n m p (Reading.within text r) (Reading.within text r')
  remaining {α : Type} {g : Bool} {n m : Nat} {p : Place} {loop loop' : Nat → Reading α}
    (h : ∀ fuel fuel', Fuel p fuel fuel' → Rel g n m p (loop fuel) (loop' fuel')) :
    Rel g n m p (Reading.remaining >>= fun count => loop (count + 1))
      (Reading.remaining >>= fun count => loop' (count + 1))
  spent {α : Type} {g : Bool} {n m : Nat} {p : Place} {fuel' : Nat} (hfuel : Fuel p 0 fuel')
    (r' : Reading α) : Rel g n m p (Reading.fail .tooDeep) r'
  /-- A round of a loop takes a token. -/
  round {p : Place} {fuel fuel' : Nat} (hfuel : Fuel p (fuel + 1) fuel') :
    ∃ left, fuel' = left + 1 ∧ ∀ q s, Over q p → Later s q → Fuel s fuel left
  unknown {α : Type} {g : Bool} {n m : Nat} {p : Place} (name : String) :
    Rel g n m p (Reading.fail (.unknownFunction name) : Reading α)
      (Reading.fail (.unknownFunction name))
  /-- A gate, the arguments, and the call behind them. -/
  gated {g : Bool} {n : Nat} {p : Place} {gate : Gate} {x x' : Reading Unit} {i : Instruction}
    {count : Nat} {usesFrame : Bool} (function : String) (hcalled : Called i count usesFrame)
    (hgate : usesFrame = decide (gate = .frame))
    (huse : (Action.invoke i count usesFrame).use = ⟨n, 1⟩)
    (hframe : dialect.plugins.Numbered → i.frameUse? dialect.plugins = some usesFrame)
    (hx : ∀ q, Later q p → Rel g 0 n q x x') :
    Rel g 0 1 p
      (demandGate gate function >>= fun _ => x >>= fun _ =>
        Reading.emit (.invoke i count usesFrame))
      (demandGate gate function >>= fun _ => x' >>= fun _ =>
        Reading.emit (.invoke i count usesFrame))

/-! ## Calls of functions that read their argument text -/

namespace Steps

variable {S : Steps} {g : Bool} {n m : Nat} {p : S.Place} {operand operand' : Reading Unit}

theorem fail {α : Type} {f : TextFault} (hdeep : f ≠ .tooDeep)
    (hknown : ∀ name, f ≠ .unknownFunction name) :
    S.Rel g n m p (Reading.fail f : Reading α) (Reading.fail f) :=
  S.refuse (fun h => hdeep (SourceFault.text.inj h))
    fun name h => hknown name (SourceFault.text.inj h)

/-- Behind the check of a number of arguments this number is accepted. -/
theorem checkArity_then {function : String} {arity : Arity} {got : Nat}
    {next next' : Reading Unit}
    (h : arity.admits got = true → S.Rel g n m p next next') :
    S.Rel g n m p (checkArity function arity got >>= fun _ => next)
      (checkArity function arity got >>= fun _ => next') := by
  unfold checkArity
  cases hgot : arity.admits got with
  | true =>
    simp only [if_true, pure_bind]
    exact h hgot
  | false =>
    simp only [Bool.false_eq_true, if_false, refuse_bind]
    exact S.refuse (by simp) (by simp)

theorem nameArgument_then {function : String} {args : List Char}
    {next next' : String → Reading Unit} (h : ∀ name, S.Rel g n m p (next name) (next' name)) :
    S.Rel g n m p (nameArgument function args >>= next) (nameArgument function args >>= next') := by
  unfold nameArgument
  dsimp only
  split
  · simp only [pure_bind]
    exact h _
  · exact S.refuse (by simp) (by simp)

theorem access {op : AccessOp} (htakes : op.takes = n) (target : Target) :
    S.Rel g n 1 p (Reading.emit (.access op target)) (Reading.emit (.access op target)) := by
  subst htakes
  exact S.emit (a := .access op target) trivial rfl (.inr trivial)

/-- The last argument of a call with an exact number of them. -/
theorem lastArgument {name : String} {args : List Char} {arity : UInt8} {count : Nat}
    (harity : arity.toNat = count + 1)
    (hadmits : (Arity.exactly arity).admits (splitArguments args).length = true)
    (hargs : S.Rel g 0 ((splitArguments args).drop count).length p
      (arguments operand name ((splitArguments args).drop count))
      (arguments operand' name ((splitArguments args).drop count))) :
    S.Rel g 0 1 p (arguments operand name ((splitArguments args).drop count))
      (arguments operand' name ((splitArguments args).drop count)) := by
  have hlength : ((splitArguments args).drop count).length = 1 := by
    simp only [Arity.admits, Arity.accepts, Bool.and_eq_true, decide_eq_true_eq] at hadmits
    rw [List.length_drop, hadmits.2]
    omega
  rwa [hlength] at hargs

/-- Such a call is related if its arguments are, and the variable of a physical access. -/
theorem specialCall {name : String} {args : List Char} {s : Special}
    (hs : ∃ row ∈ Special.table, row.2.1 = s)
    (hvariable : ∀ g target, S.Rel g 0 1 p
      (variableUse operand target .readPhysical .writePhysical)
      (variableUse operand' target .readPhysical .writePhysical))
    (hargs : ∀ g count, S.Rel g 0 ((splitArguments args).drop count).length p
      (arguments operand name ((splitArguments args).drop count))
      (arguments operand' name ((splitArguments args).drop count))) :
    S.Rel g 0 1 p (specialCall operand name args s) (specialCall operand' name args s) := by
  cases s with
  | physical =>
    unfold SignalCalc.specialCall
    dsimp only
    split
    · exact S.ask (.follow _) (hvariable _ _)
    · exact nameArgument_then fun n => hvariable _ _
  | enumText =>
    unfold SignalCalc.specialCall
    dsimp only
    split
    · exact S.emit (a := .enumText _ _) trivial rfl (.inr trivial)
    · exact fail (by simp) (by simp)
  | query q =>
    unfold SignalCalc.specialCall
    apply S.ask (.immediate name)
    rw [Action.guards, Bool.or_true]
    extract_lets subject
    split
    · exact fail (by simp) (by simp)
    · exact S.emit (a := .query q _) trivial rfl (.inl rfl)
  | compareText bounded ignoreCase =>
    unfold SignalCalc.specialCall
    apply S.ask (.immediate name)
    rw [Action.guards, Bool.or_true]
    extract_lets params text
    -- a limit is an argument of its own, behind the two texts
    apply checkArity_then
    intro harity
    cases bounded with
    | false => exact S.emit (a := .compareText false ignoreCase _ _) trivial rfl (.inl rfl)
    | true =>
      apply S.bind (lastArgument rfl harity (hargs true 2))
      intro _ q _
      exact S.emit (a := .compareText true ignoreCase _ _) trivial rfl (.inl rfl)
  | rawBits op =>
    -- only a write takes a value from the stack, so that only it has an argument to read
    by_cases hwrite : op = .writeBits
    · subst hwrite
      rw [SignalCalc.specialCall, SignalCalc.specialCall]
      apply checkArity_then
      intro harity
      apply nameArgument_then
      intro n
      have htakes : AccessOp.takes .writeBits = 1 := rfl
      exact S.bind (lastArgument rfl harity (hargs g 1)) fun _ _ _ => access htakes (.named n)
    · have htakes : op.takes = 0 := (Special.rawBits_takes hs).resolve_left hwrite
      rw [SignalCalc.specialCall, SignalCalc.specialCall]
      · exact nameArgument_then fun n => access htakes (.named n)
      · exact hwrite
      · exact hwrite

end Steps

/-! ## Expressions -/

theorem operatorAt_bind {β : Type} (level : Level) (f : Option Opcode → Reading β) :
    (operatorAt level >>= f) = current >>= fun t => match t with
      | some (.symbol s) => f (level s)
      | _ => f none := by
  unfold operatorAt
  rw [bind_assoc]
  congr 1
  funext t
  cases t with
  | none => exact pure_bind none f
  | some t => cases t <;> exact pure_bind _ f

namespace Walk

variable {dialect : Dialect} {W : Walk dialect} {g : Bool} {p : W.Place}
  {operand operand' : Reading Unit}

theorem operate {op : Opcode} (hop : op.IsBinary) :
    W.Rel g 2 1 p (Reading.emit (.operate op)) (Reading.emit (.operate op)) := by
  have hplain : (Action.operate op).isPlain = true := by simp [Action.isPlain, hop.frameless]
  have hemit := W.emit (g := g) (p := p) (a := .operate op) hop.fits hplain (.inr trivial)
  rwa [show (Action.operate op).use.takes = 2 from hop.takes,
    show (Action.operate op).use.gives = 1 from hop.gives] at hemit

/-- The loop over the operators of a level. A closing parenthesis ends it as the end of the tokens
does. -/
theorem operators {level : Level} (hlevel : level ∈ levels)
    (hoperand : ∀ q, W.Inside q → W.Rel g 0 1 q operand operand') {fuel fuel' : Nat}
    (hp : W.Inside p) (hfuel : W.Fuel p fuel fuel') :
    W.Rel g 1 1 p (SignalCalc.operators level operand fuel)
      (SignalCalc.operators level operand' fuel') := by
  induction fuel generalizing p fuel' with
  | zero => exact W.spent hfuel _
  | succ fuel ih =>
    obtain ⟨left, rfl, hround⟩ := W.round hfuel
    unfold SignalCalc.operators
    rw [operatorAt_bind, operatorAt_bind]
    apply W.current
    · exact fun _ => W.done ()
    · intro _ _
      -- no level has the parenthesis among its operators
      simp only [closeParen_of_mem_levels level hlevel]
      exact W.done ()
    · intro t us htokens
      cases t with
      | symbol s =>
        dsimp only
        cases hop : level s with
        | none => exact W.done ()
        | some op =>
          apply W.advance htokens (isFlat_of_level level hlevel s op hop)
          intro q hq
          have hinside := W.inside_of_over hq hp
          apply W.bind (W.raise (hoperand q hinside) 1)
          intro _ q' hq'
          apply W.bind (operate (isBinary_of_level level hlevel s op hop))
          intro _ q'' hq''
          have hlater := W.later_trans hq' hq''
          exact ih (W.inside_of_later hlater hinside) (hround q q'' hq hlater)
      | number | name | call | placeholder => exact W.done ()

theorem ladder (hoperand : ∀ q, W.Inside q → W.Rel g 0 1 q operand operand') {ls : List Level}
    (hls : ∀ level ∈ ls, level ∈ levels) (hp : W.Inside p) :
    W.Rel g 0 1 p (SignalCalc.ladder operand ls) (SignalCalc.ladder operand' ls) := by
  induction ls generalizing p with
  | nil => exact hoperand p hp
  | cons level tighter ih =>
    rw [List.forall_mem_cons] at hls
    -- every operand of this level is read by the tighter ones
    have htighter : ∀ q, W.Inside q → W.Rel g 0 1 q (SignalCalc.ladder operand tighter)
        (SignalCalc.ladder operand' tighter) := fun _ hq => ih hls.2 hq
    apply W.bind (htighter p hp)
    intro _ q hq
    exact W.remaining fun _ _ hfuel => operators hls.1 htighter (W.inside_of_later hq hp) hfuel

theorem expression (hoperand : ∀ q, W.Inside q → W.Rel g 0 1 q operand operand')
    (hp : W.Inside p) :
    W.Rel g 0 1 p (SignalCalc.expression operand) (SignalCalc.expression operand') :=
  ladder hoperand (fun _ h => h) hp

/-- A whole text is read at a place of its own, so that nothing follows it. -/
theorem wholeText (hoperand : ∀ q, W.Inside q → W.Rel g 0 1 q operand operand')
    (hp : W.Inside p) (halone : ¬ W.Followed p) :
    W.Rel g 0 1 p (SignalCalc.wholeText operand) (SignalCalc.wholeText operand') := by
  apply W.bind W.settle
  intro _ q hq
  apply W.bind (expression hoperand (W.inside_of_later hq hp))
  intro _ q' hq'
  apply W.current
  · intro _
    apply W.bind W.ending
    intro e _ _
    split
    · exact W.fail (by simp) (by simp)
    · exact W.done ()
  · exact fun _ hfollowed =>
      absurd (W.followed_of_later (W.later_trans hq hq') hfollowed) halone
  · exact fun _ _ _ => W.fail (by simp) (by simp)

/-- A variable is read, or an expression is assigned to it, alone or combined with its old value. -/
theorem variableUse (hoperand : ∀ q, W.Inside q → W.Rel g 0 1 q operand operand')
    (hp : W.Inside p) (target : Target) {load store : AccessOp} (hload : load.takes = 0)
    (hstore : store.takes = 1) :
    W.Rel g 0 1 p (SignalCalc.variableUse operand target load store)
      (SignalCalc.variableUse operand' target load store) := by
  have hread := fun q => W.access (g := g) (p := q) hload target
  have hwrite := fun q => W.access (g := g) (p := q) hstore target
  apply W.current
  · exact fun _ => hread p
  · exact fun _ _ => hread p
  · intro t us htokens
    cases t with
    | symbol s =>
      cases hsign : assignment? s with
      | none =>
        simp only [hsign]
        exact hread p
      | some combine =>
        simp only [hsign]
        apply W.advance htokens (isFlat_of_assignment hsign)
        intro q hq
        apply W.bind (expression hoperand (W.inside_of_over hq hp))
        intro _ q' _
        cases combine with
        | none => exact hwrite q'
        | some op =>
          -- the old value comes on top of the new one and below it by a swap
          apply W.bind (W.raise (hread q') 1)
          intro _ q₁ _
          apply W.bind (W.emit (a := .operate (.stack .swap)) rfl rfl (.inr trivial))
          intro _ q₂ _
          apply W.bind (operate (isBinary_of_assignment hsign))
          intro _ q₃ _
          exact hwrite q₃
    | number | name | call | placeholder => exact hread p

/-! ## Calls and operands -/

theorem arguments (hoperand : ∀ q, W.Inside q → W.Rel g 0 1 q operand operand') (function : String)
    {texts : List (List Char)} (htexts : ∀ text ∈ texts, W.Inside (W.nested text)) :
    W.Rel g 0 texts.length p (SignalCalc.arguments operand function texts)
      (SignalCalc.arguments operand' function texts) := by
  induction texts generalizing p with
  | nil => exact W.done ()
  | cons text more ih =>
    rw [List.forall_mem_cons] at htexts
    unfold SignalCalc.arguments
    split
    · exact W.fail (by simp) (by simp)
    · apply W.bind (W.within (wholeText hoperand htexts.1 W.nested_alone))
      exact fun _ q _ => W.raise (ih htexts.2) 1

theorem builtinCall (hoperand : ∀ q, W.Inside q → W.Rel g 0 1 q operand operand') {b : Builtin}
    (hb : b ∈ Builtin.table) {args : List Char}
    (hargs : ∀ text ∈ splitArguments args, W.Inside (W.nested text)) :
    W.Rel g 0 1 p (SignalCalc.builtinCall operand b args)
      (SignalCalc.builtinCall operand' b args) := by
  unfold SignalCalc.builtinCall
  dsimp only
  generalize splitArguments args = params at hargs ⊢
  apply W.checkArity_then
  intro hadmits
  -- what the call takes is known from the table, by the number of its arguments
  have hcalled : Called (b.instruction params.length) params.length (b.gate = .frame) :=
    .builtin hb hadmits
  have hframe : dialect.plugins.Numbered →
      (b.instruction params.length).frameUse? dialect.plugins = some (decide (b.gate = .frame)) :=
    fun _ => by rw [b.frameUse?_instruction, Builtin.usesFrame_op b hb]
  have hcount := Arity.le_maxArguments hadmits
  have huse := (Builtin.instruction_use b hb params.length hcount hadmits).2
  have harguments : ∀ q, W.Rel g 0 params.length q
      (SignalCalc.arguments operand b.name params) (SignalCalc.arguments operand' b.name params) :=
    fun _ => arguments hoperand b.name hargs
  by_cases hnear : b.op = .math .near
  · rw [if_pos hnear] at huse
    obtain htwo | hthree := Builtin.near_count b hb params.length hcount hadmits hnear
    · -- a tolerance that is filled in is one more argument
      have hfilled : ∀ q, W.Later q p → W.Rel g 0 3 q
          (SignalCalc.arguments operand b.name params >>= fun _ =>
            Reading.emit (.push (.ofFloat 0.0)))
          (SignalCalc.arguments operand' b.name params >>= fun _ =>
            Reading.emit (.push (.ofFloat 0.0))) := by
        intro q _
        have htolerance : ∀ s, W.Rel g 2 3 s (Reading.emit (.push (.ofFloat 0.0)))
            (Reading.emit (.push (.ofFloat 0.0))) := fun s =>
          W.raise (W.emit (a := .push (.ofFloat 0.0)) trivial rfl (.inr trivial)) 2
        exact W.bind (htwo ▸ harguments q) fun _ s _ => htolerance s
      have hcall := W.gated b.name hcalled rfl huse hframe hfilled
      simpa only [hnear, htwo, bind_assoc, decide_true, Bool.and_self, if_true] using hcall
    · have hcall := W.gated (p := p) b.name hcalled rfl huse hframe
        fun q _ => hthree ▸ harguments q
      simpa [hnear, hthree] using hcall
  · rw [if_neg hnear] at huse
    have hcall := W.gated (p := p) b.name hcalled rfl huse hframe fun q _ => harguments q
    simpa [hnear] using hcall

theorem pluginCall (hoperand : ∀ q, W.Inside q → W.Rel g 0 1 q operand operand') (name : String)
    {args : List Char} (hargs : ∀ text ∈ splitArguments args, W.Inside (W.nested text)) :
    W.Rel g 0 1 p (SignalCalc.pluginCall dialect.plugins operand name args)
      (SignalCalc.pluginCall dialect.plugins operand' name args) := by
  unfold SignalCalc.pluginCall
  cases hp : dialect.plugins.lookup? name with
  | none => exact W.unknown name
  | some plugin =>
    dsimp only
    apply W.checkArity_then
    intro _
    apply W.gated name (.plugin plugin.id _ _) _ rfl
    · intro hnumbered
      simp [Instruction.frameUse?, hnumbered.plugin?_of_lookup? hp]
    · exact fun _ _ => arguments hoperand name hargs
    · cases plugin.usesFrame <;> rfl

/-- A call of any function, the arguments of which are inside of the operand. -/
theorem call (hoperand : ∀ g q, W.Inside q → W.Rel g 0 1 q operand operand') (hp : W.Inside p)
    (name : String) {args : List Char}
    (hargs : ∀ text ∈ splitArguments args, W.Inside (W.nested text)) :
    W.Rel g 0 1 p (SignalCalc.call dialect operand name args)
      (SignalCalc.call dialect operand' name args) := by
  unfold SignalCalc.call
  cases hb : Builtin.lookup? name with
  | some b => exact builtinCall (hoperand g) (List.mem_of_find?_eq_some hb) hargs
  | none =>
    -- built-in functions come first, then those of irregular arguments, then plugins
    cases hs : Special.lookup? name with
    | none => exact pluginCall (hoperand g) name hargs
    | some s =>
      obtain ⟨row, hrow, hspecial⟩ := Option.map_eq_some_iff.mp hs
      apply W.specialCall ⟨row, List.mem_of_find?_eq_some hrow, hspecial⟩
      · exact fun g target => variableUse (hoperand g) hp target rfl rfl
      · exact fun g count => arguments (hoperand g) name fun text htext =>
          hargs text (List.mem_of_mem_drop htext)

theorem placeholder (hoperand : ∀ q, W.Inside q → W.Rel g 0 1 q operand operand')
    (hp : W.Inside p) (meaning : Placeholder) :
    W.Rel g 0 1 p (SignalCalc.placeholder operand meaning)
      (SignalCalc.placeholder operand' meaning) := by
  cases meaning with
  | forbidden => exact W.fail (by simp) (by simp)
  | parameter => exact W.emit (a := .operate (.stack .parameter)) rfl rfl (.inr trivial)
  | value v => exact W.emit (a := .push v) trivial rfl (.inr trivial)
  | named name => exact variableUse hoperand hp (.named name) rfl rfl

/-- An operand is read, and an operation that takes one entry is applied to it. -/
theorem applied (op : Opcode) (hoperand : ∀ q, W.Inside q → W.Rel g 0 1 q operand operand')
    (hp : W.Inside p) (hfits : op.fits .absent = true) (hframeless : op.usesFrame = false)
    (hop : op.takes 0 = 1 ∧ op.gives = 1) :
    W.Rel g 0 1 p (operand >>= fun _ => Reading.emit (.operate op))
      (operand' >>= fun _ => Reading.emit (.operate op)) := by
  apply W.bind (hoperand p hp)
  intro _ q _
  have hplain : (Action.operate op).isPlain = true := by simp [Action.isPlain, hframeless]
  have hemit := W.emit (g := g) (p := q) (a := .operate op) hfits hplain (.inr trivial)
  rwa [show (Action.operate op).use.takes = 1 from hop.1,
    show (Action.operate op).use.gives = 1 from hop.2] at hemit

theorem negation (hoperand : ∀ q, W.Inside q → W.Rel g 0 1 q operand operand') (hp : W.Inside p) :
    W.Rel g 0 1 p (SignalCalc.negation operand) (SignalCalc.negation operand') := by
  have hnegated := applied (.arithmetic .neg) hoperand hp rfl rfl ⟨rfl, rfl⟩
  apply W.current
  · exact fun _ => hnegated
  · exact fun _ _ => hnegated
  · intro t us htokens
    cases t with
    | number v =>
      cases hliteral : negatedLiteral? v with
      | none =>
        simp only [hliteral]
        exact hnegated
      | some w =>
        simp only [hliteral]
        apply W.advance htokens (by simp [Token.IsFlat])
        exact fun _ _ => W.emit (a := .push w) trivial rfl (.inr trivial)
    | symbol | name | call | placeholder => exact hnegated

/-- The variable behind a star. -/
theorem reference (hoperand : ∀ q, W.Inside q → W.Rel g 0 1 q operand operand')
    (hp : W.Inside p) :
    W.Rel g 0 1 p
      (Reading.current >>= fun t => match t with
        | some (.name name) => do
          Reading.emit (.follow name)
          Reading.advance
          SignalCalc.variableUse operand (.reference name) .read .write
        | _ => Reading.fail .missingReference)
      (Reading.current >>= fun t => match t with
        | some (.name name) => do
          Reading.emit (.follow name)
          Reading.advance
          SignalCalc.variableUse operand' (.reference name) .read .write
        | _ => Reading.fail .missingReference) := by
  have hfail : ∀ {q : W.Place}, W.Rel g 0 1 q (Reading.fail .missingReference : Reading Unit)
      (Reading.fail .missingReference) := W.fail (by simp) (by simp)
  apply W.current
  · exact fun _ => hfail
  · exact fun _ _ => hfail
  · intro t us htokens
    cases t with
    | name n =>
      apply W.ask (.follow n)
      rw [show (Action.follow n).guards = false from rfl, Bool.or_false]
      apply W.advance htokens (by simp [Token.IsFlat])
      exact fun q hq => variableUse hoperand (W.inside_of_over hq hp) (.reference n) rfl rfl
    | symbol | number | call | placeholder => exact hfail

/-- An operand, if the operands inside of it are related. -/
theorem operandWith (hoperand : ∀ g q, W.Inside q → W.Rel g 0 1 q operand operand')
    (hp : W.Start p) :
    W.Rel g 0 1 p (SignalCalc.operandWith dialect operand)
      (SignalCalc.operandWith dialect operand') := by
  have hfail : ∀ {q : W.Place}, W.Rel g 0 1 q (Reading.fail .missingOperand : Reading Unit)
      (Reading.fail .missingOperand) := W.fail (by simp) (by simp)
  apply W.current
  · exact fun _ => hfail
  · exact fun _ _ => hfail
  · intro t us htokens
    cases t with
    | number v =>
      apply W.advance htokens (by simp [Token.IsFlat])
      exact fun _ _ => W.emit (a := .push v) trivial rfl (.inr trivial)
    | name n =>
      apply W.advance htokens (by simp [Token.IsFlat])
      exact fun q hq => variableUse (hoperand g) (W.inside_of_start hq hp) (.named n) rfl rfl
    | call name args =>
      apply W.advance htokens (by simp [Token.IsFlat])
      exact fun q hq => call hoperand (W.inside_of_start hq hp) name fun text htext =>
        W.inside_of_call hp htokens htext
    | placeholder =>
      apply W.advance htokens (by simp [Token.IsFlat])
      exact fun q hq => placeholder (hoperand g) (W.inside_of_start hq hp) _
    | symbol s =>
      cases s with
      | minus =>
        apply W.advance htokens (by simp [Token.IsFlat])
        exact fun q hq => negation (hoperand g) (W.inside_of_start hq hp)
      | plus =>
        apply W.advance htokens (by simp [Token.IsFlat])
        exact fun q hq => hoperand g q (W.inside_of_start hq hp)
      | bang =>
        apply W.advance htokens (by simp [Token.IsFlat])
        exact fun q hq => applied (.logic .not) (hoperand g) (W.inside_of_start hq hp) rfl rfl
          ⟨rfl, rfl⟩
      | openParen =>
        apply W.group htokens
        exact fun q hq => expression (hoperand g) (W.inside_of_start hq hp)
      | star =>
        apply W.advance htokens (by simp [Token.IsFlat])
        exact fun q hq => reference (hoperand g) (W.inside_of_start hq hp)
      | _ => exact hfail

end Walk

/-! ## Walks with one reading -/

/-- Something said of one reading alone, which is passed on in all productions wherever they start. -/
structure Trait (dialect : Dialect) where
  Holds {α : Type} (g : Bool) (n m : Nat) (ts : Tokens) (r : Reading α) : Prop
  done {α : Type} {g : Bool} {n : Nat} {ts : Tokens} (a : α) :
    Holds g n n ts (pure a : Reading α)
  bind {α β : Type} {g : Bool} {n k m : Nat} {ts : Tokens} {r : Reading α}
    {next : α → Reading β} (hr : Holds g n k ts r) (hnext : ∀ a us, Holds g k m us (next a)) :
    Holds g n m ts (r >>= next)
  raise {α : Type} {g : Bool} {n m : Nat} {ts : Tokens} {r : Reading α} (h : Holds g n m ts r)
    (k : Nat) : Holds g (n + k) (m + k) ts r
  emit {g : Bool} {ts : Tokens} {a : Action} (hlisted : a.Listed) (hplain : a.isPlain = true)
    (hguarded : g = true ∨ Guarded [a]) :
    Holds g a.use.takes a.use.gives ts (Reading.emit a)
  ask {α : Type} {g : Bool} {n m : Nat} {ts : Tokens} {a : Action} {next : Reading α}
    (ha : a.Asks) (hnext : Holds (g || a.guards) n m ts next) :
    Holds g n m ts (Reading.emit a >>= fun _ => next)
  refuse {α : Type} {g : Bool} {n m : Nat} {ts : Tokens} (f : SourceFault) :
    Holds g n m ts (Reading.refuse f : Reading α)
  /-- A look at the tokens, and then what is done about what was seen. -/
  look {α β : Type} {g : Bool} {n m : Nat} {ts : Tokens} {r : Reading α} {a : α}
    {next : α → Reading β} (hr : r ts = ⟨[], .ok (a, ts)⟩) (h : Holds g n m ts (next a)) :
    Holds g n m ts (r >>= next)
  advance {α : Type} {g : Bool} {n m : Nat} {ts : Tokens} {t : Token} {us : List Token}
    {next : Reading α} (htokens : ts.tokens = t :: us) (ht : t.IsFlat)
    (hnext : ∀ vs, Holds g n m vs next) :
    Holds g n m ts (Reading.advance >>= fun _ => next)
  group {α : Type} {g : Bool} {n m : Nat} {ts : Tokens} {us : List Token} {x : Reading α}
    (htokens : ts.tokens = .symbol .openParen :: us) (hx : ∀ vs, Holds g n m vs x) :
    Holds g n m ts (Reading.advance >>= fun _ => x >>= fun _ => closing)
  settle {g : Bool} {n : Nat} {ts : Tokens} : Holds g n n ts Reading.settle
  within {g : Bool} {n m : Nat} {ts : Tokens} {text : List Char} {r : Reading Unit}
    (h : Holds g n m (Tokens.ofText text) r) : Holds g n m ts (Reading.within text r)
  gated {g : Bool} {n : Nat} {ts : Tokens} {gate : Gate} {x : Reading Unit} {i : Instruction}
    {count : Nat} {usesFrame : Bool} (function : String) (hcalled : Called i count usesFrame)
    (hgate : usesFrame = decide (gate = .frame))
    (huse : (Action.invoke i count usesFrame).use = ⟨n, 1⟩)
    (hframe : dialect.plugins.Numbered → i.frameUse? dialect.plugins = some usesFrame)
    (hx : ∀ us, Holds g 0 n us x) :
    Holds g 0 1 ts
      (demandGate gate function >>= fun _ => x >>= fun _ =>
        Reading.emit (.invoke i count usesFrame))

namespace Trait

variable {dialect : Dialect} {g : Bool} {ts : Tokens}

/-- Nothing has to be known of the places and of the second reading. -/
def walk (T : Trait dialect) : Walk dialect where
  Place := Tokens
  Later _ _ := True
  Rel g n m ts r _ := T.Holds g n m ts r
  later_trans _ _ := trivial
  done := T.done
  bind hr hnext := T.bind hr fun a us => hnext a us trivial
  raise := T.raise
  emit := T.emit
  ask := T.ask
  refuse _ _ := T.refuse _
  tokens ts := ts.tokens
  nested := Tokens.ofText
  Over _ _ := True
  Followed _ := False
  Start _ := True
  Inside _ := True
  Fuel _ fuel fuel' := fuel = fuel'
  nested_alone := id
  followed_of_later _ h := h
  inside_of_later _ _ := trivial
  inside_of_over _ _ := trivial
  inside_of_start _ _ := trivial
  inside_of_call _ _ _ := trivial
  current {_ _ _ _ ts _ _} hnone _ hsome := by
    apply T.look rfl
    cases htokens : ts.tokens with
    | nil => exact hnone htokens
    | cons t us => exact hsome t us htokens
  advance htokens ht hnext := T.advance htokens ht fun us => hnext us trivial
  group htokens hx := T.group htokens fun us => hx us trivial
  settle := T.settle
  ending {g n ts} := by
    have hlook : T.Holds g n n ts (Reading.ending >>= pure) := T.look rfl (T.done _)
    rwa [bind_pure] at hlook
  within := T.within
  remaining h := T.look rfl (h _ _ rfl)
  spent _ _ := T.refuse _
  round h := by
    subst h
    exact ⟨_, rfl, fun _ _ _ _ => rfl⟩
  unknown _ := T.refuse _
  gated function hcalled hgate huse hframe hx :=
    T.gated function hcalled hgate huse hframe fun us => hx us trivial

theorem operand (T : Trait dialect) (depth : Nat) :
    T.Holds g 0 1 ts (SignalCalc.operand dialect depth) := by
  induction depth generalizing g ts with
  | zero => exact T.refuse _
  | succ depth ih =>
    have hinside : ∀ g us, T.walk.Inside us → T.walk.Rel g 0 1 us
        (SignalCalc.operand dialect depth) (SignalCalc.operand dialect depth) := fun _ _ _ => ih
    exact Walk.operandWith hinside trivial

theorem expression (T : Trait dialect) (depth : Nat) :
    T.Holds g 0 1 ts (SignalCalc.expression (SignalCalc.operand dialect depth)) := by
  have hinside : ∀ us, T.walk.Inside us → T.walk.Rel g 0 1 us
      (SignalCalc.operand dialect depth) (SignalCalc.operand dialect depth) :=
    fun _ _ => T.operand depth
  exact Walk.expression hinside trivial

theorem wholeText (T : Trait dialect) (depth : Nat) :
    T.Holds g 0 1 ts (SignalCalc.wholeText (SignalCalc.operand dialect depth)) := by
  have hinside : ∀ us, T.walk.Inside us → T.walk.Rel g 0 1 us
      (SignalCalc.operand dialect depth) (SignalCalc.operand dialect depth) :=
    fun _ _ => T.operand depth
  exact Walk.wholeText hinside trivial id

end Trait

end SignalCalc
