import SignalCalc.Proofs.Script.Descent
import SignalCalc.Proofs.Script.Walk
import SignalCalc.Proofs.Token.Scanning

/-! # Expressions in longer texts

An expression that is read to its end by itself is read in the same way where a closing parenthesis
follows it, and with any depth of nesting that is enough for its text. The descent goes through the
same productions in both cases; the only difference is what it sees behind the last token, and there
it only asks whether the expression goes on.
-/

namespace SignalCalc

open Reading

/-! ## Tokens -/

namespace Tokens

def followed (ts : Tokens) (more : List Token) : Tokens := { ts with tokens := ts.tokens ++ more }

@[simp] theorem followed_nil (ts : Tokens) : ts.followed [] = ts := by
  simp [followed]

/-- The descent is not at a place where the text is no token. -/
def Settled (ts : Tokens) : Prop := ts.tokens = [] → ∀ f, ts.ending ≠ .fault f

/-- What a piece of the descent leaves of its tokens. -/
structure Leaves (ts rest : Tokens) : Prop where
  ending : rest.ending = ts.ending
  settled : ts.Settled → rest.Settled
  weight : rest.weight ≤ ts.weight

theorem Leaves.refl (ts : Tokens) : Leaves ts ts := ⟨rfl, id, Nat.le_refl _⟩

theorem Leaves.trans {ts us vs : Tokens} (h : Leaves ts us) (h' : Leaves us vs) : Leaves ts vs :=
  ⟨h'.ending.trans h.ending, fun hts => h'.settled (h.settled hts), Nat.le_trans h'.weight h.weight⟩

end Tokens

/-- Tokens behind an expression that do not go on with it: there are none, or a parenthesis closes
what is around it. -/
def Closing (more : List Token) : Prop := more = [] ∨ ∃ us, more = .symbol .closeParen :: us

/-! ## Pieces of the descent -/

section Persists

variable {α β : Type} {more : List Token} {ts : Tokens}

/-- What the first piece reads of these tokens, the second one reads also where others follow. -/
def PersistsAt (more : List Token) (ts : Tokens) (r r' : Reading α) : Prop :=
  ∀ acts a rest, r ts = ⟨acts, .ok (a, rest)⟩ →
    Tokens.Leaves ts rest ∧ r' (ts.followed more) = ⟨acts, .ok (a, rest.followed more)⟩

theorem persistsAt_pure (a : α) : PersistsAt more ts (pure a) (pure a) := by
  intro acts b rest h
  cases h
  exact ⟨.refl ts, rfl⟩

theorem persistsAt_emit (a : Action) : PersistsAt more ts (Reading.emit a) (Reading.emit a) := by
  intro acts b rest h
  cases h
  exact ⟨.refl ts, rfl⟩

/-- A fault persists in anything. -/
theorem persistsAt_refuse (f : SourceFault) (r' : Reading α) : PersistsAt more ts (refuse f) r' := by
  intro acts a rest h
  cases h

theorem persistsAt_fail (f : TextFault) (r' : Reading α) : PersistsAt more ts (fail f) r' :=
  persistsAt_refuse _ r'

theorem PersistsAt.bind {r r' : Reading α} {next next' : α → Reading β}
    (hr : PersistsAt more ts r r')
    (hnext : ∀ a rest, Tokens.Leaves ts rest → PersistsAt more rest (next a) (next' a)) :
    PersistsAt more ts (r >>= next) (r' >>= next') := by
  intro acts b rest h
  simp only [Bind.bind, andThen] at h ⊢
  cases hfirst : r ts with
  | mk first result =>
    rw [hfirst] at h
    cases result with
    | error f => cases h
    | ok pair =>
      obtain ⟨a, mid⟩ := pair
      dsimp only at h
      cases hsecond : next a mid with
      | mk second result =>
        rw [hsecond] at h
        cases h
        obtain ⟨hleaves, hfirst'⟩ := hr _ _ _ hfirst
        obtain ⟨hleaves', hsecond'⟩ := hnext a mid hleaves _ _ _ hsecond
        refine ⟨hleaves.trans hleaves', ?_⟩
        simp only [hfirst', hsecond']

theorem persistsAt_ask (a : Action) {next next' : Reading β}
    (h : PersistsAt more ts next next') :
    PersistsAt more ts (Reading.emit a >>= fun _ => next) (Reading.emit a >>= fun _ => next') := by
  intro acts b rest hread
  simp only [Bind.bind, andThen, Reading.emit] at hread ⊢
  cases hnext : next ts with
  | mk second result =>
    rw [hnext] at hread
    cases hread
    obtain ⟨hleaves, hnext'⟩ := h _ _ _ hnext
    exact ⟨hleaves, by simp only [hnext']⟩

/-- A look at the next token. Behind the last one there may be a closing parenthesis. -/
theorem persistsAt_current (hmore : Closing more) {next next' : Option Token → Reading β}
    (hnone : ts.tokens = [] → PersistsAt more ts (next none) (next' none))
    (hclose : ts.tokens = [] → more ≠ [] →
      PersistsAt more ts (next none) (next' (some (.symbol .closeParen))))
    (hsome : ∀ t us, ts.tokens = t :: us → PersistsAt more ts (next (some t)) (next' (some t))) :
    PersistsAt more ts (current >>= next) (current >>= next') := by
  have hlook : ∀ (f : Option Token → Reading β) (us : Tokens),
      (current >>= f) us = f us.tokens.head? us := by
    intro f us
    simp [Bind.bind, andThen, current]
  intro acts b rest h
  rw [hlook] at h ⊢
  cases hts : ts.tokens with
  | nil =>
    rw [hts] at h
    have hhead : (ts.followed more).tokens.head? = more.head? := by simp [Tokens.followed, hts]
    rw [hhead]
    obtain rfl | ⟨us, rfl⟩ := hmore
    · exact hnone hts acts b rest h
    · exact hclose hts (by simp) acts b rest h
  | cons t us =>
    rw [hts] at h
    have hhead : (ts.followed more).tokens.head? = some t := by simp [Tokens.followed, hts]
    rw [hhead]
    exact hsome t us hts acts b rest h

theorem settle_eq (hts : ts.Settled) : settle ts = ⟨[], .ok ((), ts)⟩ := by
  obtain ⟨tokens, ending⟩ := ts
  cases tokens with
  | cons t us => rfl
  | nil =>
    cases ending with
    | done | comma => rfl
    | fault f => exact absurd rfl (hts rfl f)

theorem settle_cases (ts : Tokens) : ts.Settled ∨ ∃ f, settle ts = ⟨[], .error f⟩ := by
  obtain ⟨tokens, ending⟩ := ts
  cases tokens with
  | cons t us => exact .inl fun h => by cases h
  | nil =>
    cases ending with
    | done | comma => exact .inl fun _ _ h => by cases h
    | fault f => exact .inr ⟨_, rfl⟩

theorem Tokens.Settled.followed (hts : ts.Settled) (more : List Token) : (ts.followed more).Settled :=
  fun hnil => hts (List.append_eq_nil_iff.mp hnil).1

/-- The step over a token takes its weight off the tokens. -/
theorem persistsAt_advance {t : Token} {us : List Token} (hts : ts.tokens = t :: us)
    {next next' : Reading β}
    (hnext : ∀ rest : Tokens, Tokens.Leaves ts rest → t.weight + rest.weight = ts.weight →
      PersistsAt more rest next next') :
    PersistsAt more ts (advance >>= fun _ => next) (advance >>= fun _ => next') := by
  have hstep : ∀ (f : Reading β) (vs : Tokens), vs.Settled →
      (advance >>= fun _ => f) { vs with tokens := t :: vs.tokens } = f vs := by
    intro f vs hvs
    have hadvance : advance { vs with tokens := t :: vs.tokens } = ⟨[], .ok ((), vs)⟩ := settle_eq hvs
    simp [Bind.bind, andThen, hadvance]
  obtain ⟨tokens, ending⟩ := ts
  cases hts
  intro acts b rest h
  obtain hsettled | ⟨f, hfault⟩ := settle_cases ⟨us, ending⟩
  · rw [hstep next ⟨us, ending⟩ hsettled] at h
    have hlonger := hstep next' (Tokens.followed ⟨us, ending⟩ more) (hsettled.followed more)
    have hleaves : Tokens.Leaves ⟨t :: us, ending⟩ ⟨us, ending⟩ :=
      ⟨rfl, fun _ => hsettled, by simp [Tokens.weight]⟩
    obtain ⟨hrest, hnext'⟩ := hnext ⟨us, ending⟩ hleaves (by simp [Tokens.weight]) acts b rest h
    exact ⟨hleaves.trans hrest, hlonger.trans hnext'⟩
  · have hadvance : advance ⟨t :: us, ending⟩ = ⟨[], .error f⟩ := hfault
    simp [Bind.bind, andThen, hadvance] at h

theorem persistsAt_advance_last {t : Token} {us : List Token} (hts : ts.tokens = t :: us) :
    PersistsAt more ts advance advance := by
  have hlast : advance = advance >>= fun _ => pure () := by
    funext us
    simp only [Bind.bind, andThen, Pure.pure, done, List.append_nil]
    cases (advance us) with
    | mk acts result => cases result <;> rfl
  rw [hlast]
  exact persistsAt_advance hts fun _ _ _ => persistsAt_pure ()

theorem persistsAt_settle : PersistsAt more ts settle settle := by
  intro acts b rest h
  obtain hsettled | ⟨f, hfault⟩ := settle_cases ts
  · rw [settle_eq hsettled] at h
    cases h
    exact ⟨.refl ts, settle_eq (hsettled.followed more)⟩
  · rw [hfault] at h
    cases h

theorem persistsAt_ending : PersistsAt more ts ending ending := by
  intro acts b rest h
  cases h
  exact ⟨.refl ts, rfl⟩

/-- A nested text is read for what it lists; nothing follows it, whatever follows the call. -/
theorem persistsAt_within {text : List Char} {r r' : Reading Unit}
    (h : PersistsAt [] (Tokens.ofText text) r r') :
    PersistsAt more ts (within text r) (within text r') := by
  intro acts a rest hread
  unfold within at hread ⊢
  cases hinner : r (Tokens.ofText text) with
  | mk inner result =>
    rw [hinner] at hread
    cases result with
    | error f => cases hread
    | ok pair =>
      cases hread
      obtain ⟨-, hlonger⟩ := h _ _ _ hinner
      rw [Tokens.followed_nil] at hlonger
      exact ⟨.refl ts, by rw [hlonger]; rfl⟩

/-- A parenthesis of an operand is closed by one of its own. -/
theorem persistsAt_closing (hmore : Closing more) : PersistsAt more ts closing closing := by
  apply persistsAt_current hmore
  · exact fun _ => persistsAt_fail _ _
  · exact fun _ _ => persistsAt_fail _ _
  · intro t us htokens
    split
    · exact persistsAt_advance_last htokens
    · exact persistsAt_fail _ _

theorem persistsAt_demandGate (gate : Gate) (function : String) :
    PersistsAt more ts (demandGate gate function) (demandGate gate function) := by
  cases gate with
  | anywhere => exact persistsAt_pure ()
  | frame | stateful => exact persistsAt_emit _

end Persists

/-! ## Nested texts -/

/-- The pieces between commas are parts of the text. -/
theorem length_le_of_mem_splitCommas {depth : Int} {piece cs text : List Char}
    (h : text ∈ splitCommas depth piece cs) : text.length ≤ piece.length + cs.length := by
  have htrim : ∀ piece : List Char, (Text.trim piece.reverse).length ≤ piece.length := fun piece => by
    simpa using Text.length_trim_le piece.reverse
  induction cs generalizing depth piece with
  | nil =>
    obtain rfl := List.mem_singleton.mp h
    exact htrim piece
  | cons c cs ih =>
    unfold splitCommas at h
    split at h
    · obtain rfl | hmore := List.mem_cons.mp h
      · exact Nat.le_trans (htrim piece) (Nat.le_add_right _ _)
      · have := ih hmore
        simp only [List.length_nil, List.length_cons] at this ⊢
        omega
    · have := ih h
      simp only [List.length_cons] at this ⊢
      omega

theorem length_le_of_mem_splitArguments {cs text : List Char} (h : text ∈ splitArguments cs) :
    text.length ≤ cs.length := by
  unfold splitArguments at h
  split at h
  · cases h
  · simpa using length_le_of_mem_splitCommas h

/-- The argument texts of a call are shorter than what the tokens with the call weigh. -/
theorem length_argument_lt_weight {ts : Tokens} {args text : List Char} {name : String}
    (hcall : .call name args ∈ ts.tokens) (htext : text ∈ splitArguments args) :
    text.length < ts.weight := by
  have hcalled := Tokens.weight_le_of_mem hcall
  have hlength := length_le_of_mem_splitArguments htext
  simp only [Token.weight] at hcalled
  omega

/-- A place in a shorter text: its tokens, and what closes the expression in the longer one. -/
structure Tokens.Cut where
  more : List Token
  closing : Closing more
  tokens : Tokens

/-- Reading persists in all productions. Every operand takes a character at least, so that those
inside of one of fewer than `n + 1` characters have fewer than `n`. -/
def persistenceWalk (dialect : Dialect) (n : Nat) : Walk dialect where
  Place := Tokens.Cut
  Later q p := q.more = p.more ∧ Tokens.Leaves p.tokens q.tokens
  Rel _ _ _ p r r' := PersistsAt p.more p.tokens r r'
  later_trans h h' := ⟨h'.1.trans h.1, h.2.trans h'.2⟩
  done a := persistsAt_pure a
  bind {_ _ _ _ _ _ p _ _ _ _} hr hnext :=
    hr.bind fun a rest hrest => hnext a ⟨p.more, p.closing, rest⟩ ⟨rfl, hrest⟩
  raise h _ := h
  emit _ _ _ := persistsAt_emit _
  ask _ hnext := persistsAt_ask _ hnext
  refuse _ _ := persistsAt_refuse _ _
  tokens p := p.tokens.tokens
  nested text := ⟨[], .inl rfl, Tokens.ofText text⟩
  Over q p := q.more = p.more ∧ Tokens.Leaves p.tokens q.tokens ∧
    ∃ t us, p.tokens.tokens = t :: us ∧ t.weight + q.tokens.weight = p.tokens.weight
  Followed p := p.more ≠ []
  Start p := p.tokens.weight < n + 1
  Inside p := p.tokens.weight < n
  Fuel _ fuel fuel' := fuel ≤ fuel'
  nested_alone h := h rfl
  followed_of_later h hq := h.1 ▸ hq
  inside_of_later h hp := Nat.lt_of_le_of_lt h.2.weight hp
  inside_of_over h hp := Nat.lt_of_le_of_lt h.2.1.weight hp
  inside_of_start {p q} h hp := by
    obtain ⟨-, -, t, us, -, hweight⟩ := h
    have hpos := t.weight_pos
    omega
  inside_of_call {p _ args text us} hp htokens htext := by
    have hweight := Tokens.weight_ofText text
    have hshorter := length_argument_lt_weight (htokens ▸ List.mem_cons_self) htext
    exact Nat.lt_of_le_of_lt hweight (Nat.lt_of_lt_of_le hshorter (Nat.le_of_lt_succ hp))
  current {_ _ _ _ p _ _} hnone hclose hsome := persistsAt_current p.closing hnone hclose hsome
  advance {_ _ _ _ p t us _ _} htokens _ hnext :=
    persistsAt_advance htokens fun rest hrest hweight =>
      hnext ⟨p.more, p.closing, rest⟩ ⟨rfl, hrest, t, us, htokens, hweight⟩
  group {_ _ _ _ p us _ _} htokens hx :=
    persistsAt_advance htokens fun rest hrest hweight =>
      (hx ⟨p.more, p.closing, rest⟩ ⟨rfl, hrest, _, us, htokens, hweight⟩).bind
        fun _ _ _ => persistsAt_closing p.closing
  settle := persistsAt_settle
  ending := persistsAt_ending
  within h := persistsAt_within h
  remaining {_ _ _ _ p _ _} h := by
    intro acts a rest hread
    -- the longer text has more tokens left, and so more fuel
    have hfuel : p.tokens.tokens.length + 1 ≤ (p.tokens.followed p.more).tokens.length + 1 := by
      simp [Tokens.followed]
    exact h _ _ hfuel acts a rest hread
  spent _ r' := persistsAt_fail _ r'
  round {_ _ fuel'} h := by
    cases fuel' with
    | zero => omega
    | succ left => exact ⟨left, rfl, fun _ _ _ _ => Nat.le_of_succ_le_succ h⟩
  unknown _ := persistsAt_fail _ _
  gated {_ _ p _ _ _ _ _ _} function _ _ _ _ hx :=
    (persistsAt_demandGate _ function).bind fun _ rest hrest =>
      (hx ⟨p.more, p.closing, rest⟩ ⟨rfl, hrest⟩).bind fun _ _ _ => persistsAt_emit _

/-! ## Operands -/

section Operands

variable {n : Nat} {ts : Tokens}

/-- What the first piece reads of tokens of fewer characters than this, the second one reads whatever
closes the expression. -/
def Persists (n : Nat) (r r' : Reading Unit) : Prop :=
  ∀ more, Closing more → ∀ ts : Tokens, ts.weight < n → PersistsAt more ts r r'

theorem persists_expression (dialect : Dialect) {operand operand' : Reading Unit}
    (h : Persists n operand operand') : Persists n (expression operand) (expression operand') := by
  have hoperand : ∀ q, (persistenceWalk dialect n).Inside q →
      (persistenceWalk dialect n).Rel false 0 1 q operand operand' :=
    fun q hq => h q.more q.closing q.tokens hq
  intro more hmore ts hts
  exact Walk.expression (W := persistenceWalk dialect n)
    (p := (⟨more, hmore, ts⟩ : Tokens.Cut)) hoperand hts

theorem persists_operandWith (dialect : Dialect) {operand operand' : Reading Unit}
    (h : Persists n operand operand') :
    Persists (n + 1) (operandWith dialect operand) (operandWith dialect operand') := by
  have hoperand : ∀ g q, (persistenceWalk dialect n).Inside q →
      (persistenceWalk dialect n).Rel g 0 1 q operand operand' :=
    fun _ q hq => h q.more q.closing q.tokens hq
  intro more hmore ts hts
  exact Walk.operandWith (W := persistenceWalk dialect n) (g := false)
    (p := (⟨more, hmore, ts⟩ : Tokens.Cut)) hoperand hts

/-- The depth of nesting is enough if it is no less than it was, or than the text is long. -/
theorem operand_persists (dialect : Dialect) {depth depth' : Nat} (h : depth ≤ depth' ∨ n ≤ depth') :
    Persists n (SignalCalc.operand dialect depth) (SignalCalc.operand dialect depth') := by
  -- every level of nesting takes a character at least, so that both `n` and the depths go down
  induction depth generalizing n depth' with
  | zero => exact fun _ _ _ _ => persistsAt_fail _ _
  | succ depth ih =>
    cases n with
    | zero => exact fun _ _ _ hts => absurd hts (Nat.not_lt_zero _)
    | succ n =>
      cases depth' with
      | zero => omega
      | succ depth' => exact persists_operandWith dialect (ih (by omega))

/-- What the descent leaves of its tokens. -/
theorem leaves_expression {dialect : Dialect} {depth : Nat} {rest : Tokens} {acts : List Action}
    (h : expression (SignalCalc.operand dialect depth) ts = ⟨acts, .ok ((), rest)⟩) :
    Tokens.Leaves ts rest :=
  (persists_expression dialect (operand_persists dialect (.inl (Nat.le_refl depth))) [] (.inl rfl) ts
    (Nat.lt_succ_self _) _ _ _ h).1

/-- Expressions are read in the same way where something closes them, by all depths that are enough
for their tokens. -/
theorem Reads.enclosed {dialect : Dialect} {depth depth' : Nat} {us : List Token} {acts : List Action}
    (h : Reads (expression (SignalCalc.operand dialect depth)) us acts () [])
    (hdepth : Tokens.weight ⟨us, .done⟩ < depth') (hmore : Closing more) :
    Reads (expression (SignalCalc.operand dialect depth')) (us ++ more) acts () more :=
  (persists_expression dialect (operand_persists dialect (.inr (Nat.le_refl depth'))) more hmore
    ⟨us, .done⟩ hdepth _ _ _ h).2

end Operands

/-! ## The end of an expression -/

section Exhausts

variable {operand : Reading Unit}

/-- The loop goes on as long as there are operators, and each round ends with an operand. -/
theorem operators_exhausts {level : Level} {Q : Tokens → Prop}
    (hoperand : ∀ ts pair, (operand ts).result = .ok pair → Q pair.2) {fuel : Nat} {ts : Tokens}
    {pair : Unit × Tokens} (hts : Q ts) (h : (operators level operand fuel ts).result = .ok pair) :
    operator? level pair.2.tokens = none ∧ Q pair.2 := by
  induction fuel generalizing ts with
  | zero => cases h
  | succ fuel ih =>
    have hlook : operatorAt level ts = ⟨[], .ok (operator? level ts.tokens, ts)⟩ := by
      obtain ⟨tokens, ending⟩ := ts
      cases tokens with
      | nil => rfl
      | cons t us => cases t <;> rfl
    obtain ⟨found, ts', hfound, hrest, -⟩ := bind_ok h
    rw [hlook] at hfound
    cases hfound
    cases hop : operator? level ts.tokens with
    | none =>
      rw [hop] at hrest
      cases hrest
      exact ⟨hop, hts⟩
    | some op =>
      rw [hop] at hrest
      obtain ⟨_, us, -, hround, -⟩ := bind_ok hrest
      obtain ⟨_, vs, hread, hround, -⟩ := bind_ok hround
      obtain ⟨_, ws, hemit, hround, -⟩ := bind_ok hround
      cases hemit
      exact ih (hoperand us _ hread) hround

/-- No operator of its levels is left behind a row of operands. -/
theorem ladder_exhausts {ls : List Level} {ts : Tokens} {pair : Unit × Tokens}
    (h : (ladder operand ls ts).result = .ok pair) :
    ∀ level ∈ ls, operator? level pair.2.tokens = none := by
  induction ls generalizing ts pair with
  | nil => simp
  | cons level tighter ih =>
    obtain ⟨_, us, hfirst, hrest, -⟩ := bind_ok h
    obtain ⟨fuel, vs, hfuel, hloop, -⟩ := bind_ok hrest
    cases hfuel
    rw [List.forall_mem_cons]
    exact operators_exhausts (Q := fun us => ∀ level ∈ tighter, operator? level us.tokens = none)
      (fun _ _ hread => ih hread) (ih hfirst) hloop

theorem bind_of_ok {α β : Type} {r : Reading α} {next : α → Reading β} {ts mid : Tokens}
    {acts : List Action} {a : α} (h : r ts = ⟨acts, .ok (a, mid)⟩) :
    (r >>= next) ts = ⟨acts ++ (next a mid).actions, (next a mid).result⟩ := by
  simp only [Bind.bind, andThen, h]

theorem bind_of_error {α β : Type} {r : Reading α} {next : α → Reading β} {ts : Tokens}
    {f : SourceFault} (h : (r ts).result = .error f) : ((r >>= next) ts).result = .error f := by
  simp only [Bind.bind, andThen, h]

theorem bind_of_fault {α β : Type} {r : Reading α} {next : α → Reading β} {ts : Tokens}
    {acts : List Action} {f : SourceFault} (h : r ts = ⟨acts, .error f⟩) :
    (r >>= next) ts = ⟨acts, .error f⟩ := by
  simp only [Bind.bind, andThen, h]

theorem Reads.hand_over {α β : Type} {r : Reading α} {next : α → Reading β} {ts mid : List Token}
    {a : α} (h : Reads r ts [] a mid) : (r >>= next) ⟨ts, .done⟩ = next a ⟨mid, .done⟩ :=
  bind_of_ok h

/-- Where the operand at the start of an expression is refused, the expression is. -/
theorem ladder_of_fault {operand : Reading Unit} {ts : Tokens} {acts : List Action}
    {f : SourceFault} (h : operand ts = ⟨acts, .error f⟩) (ls : List Level) :
    ladder operand ls ts = ⟨acts, .error f⟩ := by
  induction ls with
  | nil => exact h
  | cons level tighter ih => exact bind_of_fault ih

theorem ladder_of_error {operand : Reading Unit} {ts : Tokens} {f : SourceFault}
    (h : (operand ts).result = .error f) (ls : List Level) :
    (ladder operand ls ts).result = .error f := by
  have hfault : operand ts = ⟨(operand ts).actions, .error f⟩ := by rw [← h]
  rw [ladder_of_fault hfault]

theorem operand_call (dialect : Dialect) (depth : Nat) (name : String) (args : List Char)
    (ts : List Token) :
    SignalCalc.operand dialect (depth + 1) ⟨.call name args :: ts, .done⟩ =
      call dialect (SignalCalc.operand dialect depth) name args ⟨ts, .done⟩ :=
  reads_current.hand_over.trans (reads_advance _).hand_over

/-- A whole text is one expression, and it ends with it. -/
theorem reads_of_wholeText {dialect : Dialect} {depth : Nat} {ts : Tokens} {acts : List Action}
    {pair : Unit × Tokens}
    (h : wholeText (SignalCalc.operand dialect depth) ts = ⟨acts, .ok pair⟩) :
    ts.ending = .done ∧
      Reads (expression (SignalCalc.operand dialect depth)) ts.tokens acts () [] := by
  obtain hts | ⟨f, hfault⟩ := settle_cases ts
  · obtain ⟨tokens, last⟩ := ts
    rw [wholeText, bind_of_ok (settle_eq hts)] at h
    cases hread : expression (SignalCalc.operand dialect depth) ⟨tokens, last⟩ with
    | mk acts' result =>
      cases result with
      | error f =>
        rw [bind_of_error (f := f) (by rw [hread])] at h
        cases h
      | ok pair' =>
        obtain ⟨_, rest, last'⟩ := pair'
        have hleaves := leaves_expression hread
        obtain rfl : last' = last := hleaves.ending
        have hsettled := hleaves.settled hts
        rw [bind_of_ok hread] at h
        -- whatever is left, a token, a comma or no token at all, is a fault of the whole text
        cases rest with
        | cons t us => cases h
        | nil =>
          cases last' with
          | comma => cases h
          | fault f => exact absurd rfl (hsettled rfl f)
          | done =>
            obtain ⟨hacts, -⟩ := Step.mk.inj h
            have hsame : acts' = acts := by
              simpa [Bind.bind, andThen, current, ending, Pure.pure, done] using hacts
            exact ⟨rfl, hsame ▸ hread⟩
  · have herror : (wholeText (SignalCalc.operand dialect depth) ts).result = .error f :=
      bind_of_error (by rw [hfault])
    rw [h] at herror
    cases herror

theorem Script.reads_of_ofText {dialect : Dialect} {source : String}
    (h : (Script.ofText dialect source).fault = none) :
    (Tokens.ofText source.toList).ending = .done ∧
      Reads (expression (SignalCalc.operand dialect (source.toList.length + 1)))
        (Tokens.ofText source.toList).tokens (Script.ofText dialect source).actions () [] := by
  unfold Script.ofText at h ⊢
  dsimp only at h ⊢
  cases hwhole : wholeText (SignalCalc.operand dialect (source.toList.length + 1))
      (Tokens.ofText source.toList) with
  | mk acts result =>
    rw [hwhole] at h
    cases result with
    | error f => cases h
    | ok pair => exact reads_of_wholeText hwhole

end Exhausts

end SignalCalc
