import SignalCalc.Proofs.Script.Balance

/-! # Termination of the descent

The descent ends on every text, and the depth and the fuel in its definition never matter. Tokens are
taken off the front of a text, a character at least with each, so that a text has finitely many. An
operand takes a token before it reads another operand, and this one is further on among the same
tokens or in an argument of a call among them, whose text is shorter. What is left of the text and
what is in the calls still to be read are one measure: the weight of the tokens.
-/

namespace SignalCalc

open Reading

/-! ## Tokens -/

theorem readName_suffix {cs rest : List Char} {t : Token} (h : readName cs = .token t rest) :
    rest <:+ cs := by
  have hname : (cs.dropWhile isNameChar).dropWhile Text.isGap <:+ cs :=
    (List.dropWhile_suffix _).trans (List.dropWhile_suffix _)
  unfold readName at h
  dsimp only at h
  split at h
  · cases h
  · split at h
    · next inner hparen =>
      rw [hparen] at hname
      split at h
      · next args rest' hclose =>
        cases h
        rw [splitClose?_eq_append hclose] at hname
        have hargs : rest <:+ '(' :: (args ++ ')' :: rest) := ⟨'(' :: args ++ [')'], by simp⟩
        exact hargs.trans hname
      · cases h
    · cases h
      exact hname

theorem Starts.suffix {c : Char} {more rest : List Char} {t : Token} (h : Starts c more t rest) :
    rest <:+ c :: more := by
  cases h with
  | placeholder => exact List.suffix_cons c more
  | number _ _ hread => exact Numeral.read_suffix hread
  | name _ _ _ hread => exact readName_suffix hread
  | symbol _ _ _ hread =>
    rw [Symbol.read?_eq_append hread]
    exact List.suffix_append _ _

/-- A token takes a word off the front of its text, with the gaps before it. -/
theorem Token.next_word {cs rest : List Char} {t : Token} (h : next cs = .token t rest) :
    ∃ word, word ≠ [] ∧ cs = word ++ rest := by
  obtain ⟨c, more, hcs, -, hstarts⟩ := starts_of_next h
  have hsuffix : rest <:+ cs := by
    apply hstarts.suffix.trans
    rw [← hcs]
    exact List.dropWhile_suffix _
  obtain ⟨word, rfl⟩ := hsuffix
  refine ⟨word, ?_, rfl⟩
  rintro rfl
  have hweight := next_weight h
  have hpos := t.weight_pos
  simp only [List.nil_append] at hweight
  omega

theorem readName_fault {cs : List Char} {f : TextFault} (h : readName cs = .fault f) :
    f ≠ .tooDeep := by
  unfold readName at h
  dsimp only at h
  split at h
  · cases h
    simp
  · split at h
    · split at h
      · cases h
      · cases h
        simp
    · cases h

/-- What is wrong with the words of a text is not how they nest. -/
theorem Token.next_fault {cs : List Char} {f : TextFault} (h : next cs = .fault f) :
    f ≠ .tooDeep := by
  unfold next at h
  split at h
  · cases h
  · split at h
    · cases h
    · split at h
      · cases h
      · split at h
        · split at h
          · cases h
          · cases h
            simp
        · split at h
          · exact readName_fault h
          · split at h
            · cases h
            · cases h
              simp

namespace Tokens

theorem ending_ofText (cs : List Char) : (ofText cs).ending ≠ .fault .tooDeep := by
  -- the ending of a text is that of what is behind its first token
  induction hn : cs.length using Nat.strongRecOn generalizing cs with
  | ind n ih =>
    subst hn
    cases hnext : Token.next cs with
    | token t rest =>
      have hweight := next_weight hnext
      have hpos := t.weight_pos
      rw [ofText_token hnext]
      exact ih rest.length (by omega) rest rfl
    | stop rest =>
      simp only [ofText, scan, hnext]
      split <;> simp
    | fault f => simpa [ofText, scan, hnext] using Token.next_fault hnext

structure Remains (rest ts : Tokens) : Prop where
  ending : rest.ending = ts.ending
  tokens : rest.tokens <:+ ts.tokens

namespace Remains

theorem refl (ts : Tokens) : Remains ts ts := ⟨rfl, List.suffix_rfl⟩

theorem trans {us vs ts : Tokens} (h : Remains us vs) (h' : Remains vs ts) : Remains us ts :=
  ⟨h.ending.trans h'.ending, h.tokens.trans h'.tokens⟩

theorem length_le {rest ts : Tokens} (h : Remains rest ts) :
    rest.tokens.length ≤ ts.tokens.length := h.tokens.length_le

theorem length_lt {rest ts : Tokens} (h : Remains rest ts) (hne : rest.tokens ≠ ts.tokens) :
    rest.tokens.length < ts.tokens.length :=
  Nat.lt_of_le_of_ne h.length_le fun hlength => hne (h.tokens.eq_of_length hlength)

end Remains

theorem Remains.weight_le {rest ts : Tokens} (h : Remains rest ts) : rest.weight ≤ ts.weight := by
  obtain ⟨tokens, ending⟩ := ts
  obtain ⟨taken, rfl : taken ++ rest.tokens = tokens⟩ := h.tokens
  have happend := weight_append taken rest.tokens ending
  simp only [weight] at happend ⊢
  omega

theorem Remains.weight_lt {rest ts : Tokens} (h : Remains rest ts) (hne : rest.tokens ≠ ts.tokens) :
    rest.weight < ts.weight := by
  obtain ⟨tokens, ending⟩ := ts
  obtain ⟨taken, rfl : taken ++ rest.tokens = tokens⟩ := h.tokens
  have happend := weight_append taken rest.tokens ending
  cases taken with
  | nil => exact absurd rfl hne
  | cons t taken =>
    have hpos := t.weight_pos
    simp only [weight, List.foldr_cons] at happend ⊢
    omega

end Tokens

/-! ## Operands inside of operands -/

/-- Where the operands inside of an operand may start: further on among the tokens at its start, or
in an argument of a call that is among them. -/
inductive Inside : Tokens → Tokens → Prop where
  | further {us ts : Tokens} (h : us.Remains ts) (hne : us.tokens ≠ ts.tokens) : Inside us ts
  | argument {us ts : Tokens} {name : String} {args text : List Char}
      (hcall : .call name args ∈ ts.tokens) (htext : text ∈ splitArguments args)
      (h : us.Remains (Tokens.ofText text)) : Inside us ts

theorem Inside.weight_lt {us ts : Tokens} (h : Inside us ts) : us.weight < ts.weight := by
  cases h with
  | further h hne => exact h.weight_lt hne
  | @argument _ _ text hcall htext h =>
    have hargument := h.weight_le.trans (Tokens.weight_ofText text)
    exact hargument.trans_lt (length_argument_lt_weight hcall htext)

theorem inside_wellFounded : WellFounded Inside :=
  Subrelation.wf Inside.weight_lt (measure Tokens.weight).wf

/-- Places that are not left by reading on. -/
def Hereditary (P : Tokens → Prop) : Prop := ∀ ⦃us vs : Tokens⦄, vs.Remains us → P us → P vs

theorem hereditary_inside (ts : Tokens) : Hereditary (Inside · ts) := by
  intro us vs hvs hus
  cases hus with
  | further h hne =>
    refine .further (hvs.trans h) fun heq => hne ?_
    -- all the tokens are left only if all of them were left before
    have hlength := hvs.length_le
    rw [heq] at hlength
    exact h.tokens.eq_of_length_le hlength
  | argument hcall htext h => exact .argument hcall htext (hvs.trans h)

theorem hereditary_weight (n : Nat) : Hereditary (Tokens.weight · < n) := fun _ _ hvs hus =>
  Nat.lt_of_le_of_lt hvs.weight_le hus

/-! ## Pieces of the descent -/

section Pieces

variable {α β : Type} {ts : Tokens}

/-- The piece goes through these tokens and leaves what remains of them, or it ends in a fault, but
not for want of depth: such a fault would have to be at the end of the tokens. -/
def EndsAt (ts : Tokens) (r : Reading α) : Prop :=
  match (r ts).result with
  | .ok (_, rest) => rest.Remains ts
  | .error f => f = .text .tooDeep → ts.ending = .fault .tooDeep

/-- Two pieces do the same with these tokens, and come to an end. -/
def AgreesAt (ts : Tokens) (r r' : Reading α) : Prop := r ts = r' ts ∧ EndsAt ts r

/-- So they do in all places of some kind. -/
def AgreesOn (P : Tokens → Prop) (r r' : Reading α) : Prop := ∀ us, P us → AgreesAt us r r'

theorem EndsAt.agrees {r : Reading α} (h : EndsAt ts r) : AgreesAt ts r r := ⟨rfl, h⟩

theorem endsAt_pure (a : α) : EndsAt ts (pure a : Reading α) := Tokens.Remains.refl ts

theorem endsAt_emit (a : Action) : EndsAt ts (Reading.emit a) := Tokens.Remains.refl ts

theorem endsAt_refuse {f : SourceFault} (hf : f ≠ .text .tooDeep) :
    EndsAt ts (refuse f : Reading α) := fun heq => absurd heq hf

theorem endsAt_fail {f : TextFault} (hf : f ≠ .tooDeep) : EndsAt ts (fail f : Reading α) :=
  endsAt_refuse fun heq => hf (SourceFault.text.inj heq)

theorem EndsAt.remains {r : Reading α} (h : EndsAt ts r) {a : α} {rest : Tokens}
    (hr : (r ts).result = .ok (a, rest)) : rest.Remains ts := by
  unfold EndsAt at h
  rwa [hr] at h

theorem AgreesAt.bind_ok {r r' : Reading α} {next next' : α → Reading β} (hr : AgreesAt ts r r')
    (hnext : ∀ a rest, (r ts).result = .ok (a, rest) → AgreesAt rest (next a) (next' a)) :
    AgreesAt ts (r >>= next) (r' >>= next') := by
  obtain ⟨hsame, hend⟩ := hr
  unfold AgreesAt EndsAt
  simp only [Bind.bind, andThen, ← hsame]
  cases hresult : (r ts).result with
  | error f =>
    unfold EndsAt at hend
    rw [hresult] at hend
    exact ⟨rfl, hend⟩
  | ok pair =>
    obtain ⟨a, rest⟩ := pair
    have hrest := hend.remains hresult
    obtain ⟨hsame', hend'⟩ := hnext a rest hresult
    refine ⟨by simp only [hsame'], ?_⟩
    unfold EndsAt at hend'
    dsimp only
    cases hsecond : (next a rest).result with
    | error f =>
      rw [hsecond] at hend'
      exact fun hdeep => hrest.ending ▸ hend' hdeep
    | ok pair' =>
      rw [hsecond] at hend'
      exact hend'.trans hrest

theorem AgreesAt.bind {r r' : Reading α} {next next' : α → Reading β} (hr : AgreesAt ts r r')
    (hnext : ∀ a rest, rest.Remains ts → AgreesAt rest (next a) (next' a)) :
    AgreesAt ts (r >>= next) (r' >>= next') :=
  hr.bind_ok fun a rest hok => hnext a rest (hr.2.remains hok)

/-- A piece that is the same in both. -/
theorem EndsAt.then {r : Reading α} {next next' : α → Reading β} (hr : EndsAt ts r)
    (hnext : ∀ a rest, rest.Remains ts → AgreesAt rest (next a) (next' a)) :
    AgreesAt ts (r >>= next) (r >>= next') := hr.agrees.bind hnext

theorem agreesAt_look {r : Reading α} {a : α} (hr : r ts = ⟨[], .ok (a, ts)⟩)
    {next next' : α → Reading β} (h : AgreesAt ts (next a) (next' a)) :
    AgreesAt ts (r >>= next) (r >>= next') := by
  have hlook : ∀ f : α → Reading β, (r >>= f) ts = f a ts := by
    intro f
    simp [Bind.bind, andThen, hr]
  unfold AgreesAt EndsAt at h ⊢
  rwa [hlook, hlook]

theorem endsAt_settle : EndsAt ts settle := by
  obtain ⟨tokens, ending⟩ := ts
  cases tokens with
  | cons t us => exact .refl _
  | nil =>
    cases ending with
    | done | comma => exact .refl _
    | fault f =>
      intro hdeep
      obtain rfl := SourceFault.text.inj hdeep
      rfl

theorem endsAt_advance : EndsAt ts advance := by
  have htail : Tokens.Remains { ts with tokens := ts.tokens.tail } ts :=
    ⟨rfl, List.tail_suffix ts.tokens⟩
  have hrest : EndsAt { ts with tokens := ts.tokens.tail } settle := endsAt_settle
  unfold EndsAt at hrest ⊢
  unfold advance
  cases hsettle : (settle { ts with tokens := ts.tokens.tail }).result with
  | error f =>
    rw [hsettle] at hrest
    exact hrest
  | ok pair =>
    rw [hsettle] at hrest
    exact hrest.trans htail

/-- Behind the step over a token the others remain, and not all of them. -/
theorem agreesAt_advance {t : Token} {us : List Token} (hts : ts.tokens = t :: us)
    {next next' : Reading β}
    (hnext : ∀ rest : Tokens, rest.Remains ts → rest.tokens ≠ ts.tokens →
      AgreesAt rest next next') :
    AgreesAt ts (advance >>= fun _ => next) (advance >>= fun _ => next') := by
  apply endsAt_advance.agrees.bind_ok
  intro _ rest hok
  have hus : rest.tokens = us := advance_ok hts hok
  apply hnext rest (endsAt_advance.remains hok)
  rw [hus, hts]
  exact List.ne_cons_self

/-- A nested text is read for its actions only. -/
theorem agreesAt_within {text : List Char} {r r' : Reading Unit}
    (h : AgreesAt (Tokens.ofText text) r r') : AgreesAt ts (within text r) (within text r') := by
  obtain ⟨hsame, hend⟩ := h
  unfold AgreesAt EndsAt within
  unfold EndsAt at hend
  dsimp only
  rw [← hsame]
  refine ⟨rfl, ?_⟩
  cases hresult : (r (Tokens.ofText text)).result with
  | ok pair => exact .refl ts
  | error f =>
    rw [hresult] at hend
    exact fun hdeep => absurd (hend hdeep) (Tokens.ending_ofText text)

theorem endsAt_demandGate (gate : Gate) (function : String) :
    EndsAt ts (demandGate gate function) := by
  cases gate with
  | anywhere => exact endsAt_pure ()
  | frame | stateful => exact endsAt_emit _

theorem endsAt_closing : EndsAt ts closing := by
  have hlook : AgreesAt ts closing closing := by
    apply agreesAt_look rfl
    apply EndsAt.agrees
    split
    · exact endsAt_advance
    · exact endsAt_fail (by simp)
  exact hlook.2

end Pieces

/-! ## Loops over operators -/

section Loops

variable {P : Tokens → Prop} {operand operand' : Reading Unit} {ts : Tokens}

/-- Whatever the operators of a level are, the loop over them takes a token in each round. -/
theorem agreesOn_operators (hP : Hereditary P) (level : Level)
    (hoperand : AgreesOn P operand operand') {fuel fuel' : Nat} (hts : P ts) (hfuel : ts.tokens.length < fuel)
    (hfuel' : ts.tokens.length < fuel') :
    AgreesAt ts (operators level operand fuel) (operators level operand' fuel') := by
  -- both kinds of fuel stay above the number of tokens that remain
  induction fuel generalizing ts fuel' with
  | zero => omega
  | succ fuel ih =>
    cases fuel' with
    | zero => omega
    | succ fuel' =>
      have hround : ∀ op t us, ts.tokens = t :: us →
          AgreesAt ts (advance >>= fun _ => operand >>= fun _ =>
              Reading.emit (.operate op) >>= fun _ => operators level operand fuel)
            (advance >>= fun _ => operand' >>= fun _ =>
              Reading.emit (.operate op) >>= fun _ => operators level operand' fuel') := by
        intro op t us htokens
        apply agreesAt_advance htokens
        intro rest hrest hne
        have hless := hrest.length_lt hne
        apply (hoperand rest (hP hrest hts)).bind
        intro _ rest' hrest'
        apply (endsAt_emit _).then
        intro _ rest'' hrest''
        have hlast := hrest''.trans hrest'
        have hlength := hlast.length_le
        exact ih (hP (hlast.trans hrest) hts) (by omega) (by omega)
      unfold operators
      rw [operatorAt_bind, operatorAt_bind]
      apply agreesAt_look rfl
      cases htokens : ts.tokens with
      | nil => exact (endsAt_pure ()).agrees
      | cons t us =>
        cases t with
        | symbol s =>
          dsimp only [List.head?_cons]
          cases level s with
          | none => exact (endsAt_pure ()).agrees
          | some op => exact hround op _ _ htokens
        | number | name | call | placeholder => exact (endsAt_pure ()).agrees

theorem agreesOn_ladder (hP : Hereditary P) (hoperand : AgreesOn P operand operand')
    (ls : List Level) : AgreesOn P (ladder operand ls) (ladder operand' ls) := by
  induction ls with
  | nil => exact hoperand
  | cons level tighter ih =>
    intro ts hts
    apply (ih ts hts).bind
    intro _ rest hrest
    apply agreesAt_look rfl
    have hless := Nat.lt_succ_self rest.tokens.length
    exact agreesOn_operators hP level ih (hP hrest hts) hless hless

end Loops

/-! ## Operands -/

/-- Agreement is passed on through all productions, where that of the operands is known in places
that are not left by reading on. -/
def agreementWalk (dialect : Dialect) {P : Tokens → Prop} (hP : Hereditary P) : Walk dialect where
  Place := Tokens
  Later rest ts := rest.Remains ts
  Rel _ _ _ ts r r' := AgreesAt ts r r'
  later_trans h h' := h'.trans h
  done a := (endsAt_pure a).agrees
  bind hr hnext := hr.bind hnext
  raise h _ := h
  emit _ _ _ := (endsAt_emit _).agrees
  ask _ hnext := AgreesAt.bind_ok (endsAt_emit _).agrees fun _ _ hok => by
    cases hok
    exact hnext
  refuse hdeep _ := (endsAt_refuse hdeep).agrees
  tokens ts := ts.tokens
  nested := Tokens.ofText
  Over rest ts := rest.Remains ts ∧ rest.tokens ≠ ts.tokens
  Followed _ := False
  Start ts := ∀ us, Inside us ts → P us
  Inside := P
  Fuel ts fuel fuel' := ts.tokens.length < fuel ∧ ts.tokens.length < fuel'
  nested_alone := id
  followed_of_later _ h := h
  inside_of_later h hp := hP h hp
  inside_of_over h hp := hP h.1 hp
  inside_of_start h hp := hp _ (.further h.1 h.2)
  inside_of_call hp htokens htext :=
    hp _ (.argument (htokens ▸ List.mem_cons_self) htext (.refl _))
  current {_ _ _ _ ts _ _} hnone _ hsome := by
    apply agreesAt_look rfl
    cases htokens : ts.tokens with
    | nil => exact hnone htokens
    | cons t us => exact hsome t us htokens
  advance htokens _ hnext := agreesAt_advance htokens fun rest hrest hne => hnext rest ⟨hrest, hne⟩
  group htokens hx := agreesAt_advance htokens fun rest hrest hne =>
    (hx rest ⟨hrest, hne⟩).bind fun _ _ _ => endsAt_closing.agrees
  settle := endsAt_settle.agrees
  ending {_ _ ts} := EndsAt.agrees (Tokens.Remains.refl ts)
  within h := agreesAt_within h
  remaining h := agreesAt_look rfl (h _ _ ⟨Nat.lt_succ_self _, Nat.lt_succ_self _⟩)
  spent h _ := absurd h.1 (Nat.not_lt_zero _)
  round {ts fuel fuel'} h := by
    obtain ⟨hfuel, hfuel'⟩ := h
    refine ⟨fuel' - 1, by omega, ?_⟩
    intro q rest hq hrest
    have hless := hq.1.length_lt hq.2
    have hlength := hrest.length_le
    exact ⟨by omega, by omega⟩
  unknown _ := (endsAt_fail (by simp)).agrees
  gated _ _ _ _ _ hx := (endsAt_demandGate _ _).then fun _ rest hrest =>
    (hx rest hrest).bind fun _ _ _ => (endsAt_emit _).agrees

section Operands

variable {P : Tokens → Prop} {operand operand' : Reading Unit} {ts : Tokens}

theorem agreesOn_wholeText (dialect : Dialect) (hP : Hereditary P)
    (hoperand : AgreesOn P operand operand') :
    AgreesOn P (wholeText operand) (wholeText operand') := fun us hus =>
  Walk.wholeText (W := agreementWalk dialect hP) (g := false) (p := us) hoperand hus id

/-- An operand depends on the operands inside of it only, and comes to an end if they do. -/
theorem agreesAt_operandWith (dialect : Dialect)
    (hoperand : AgreesOn (Inside · ts) operand operand') :
    AgreesAt ts (operandWith dialect operand) (operandWith dialect operand') :=
  Walk.operandWith (W := agreementWalk dialect (hereditary_inside ts)) (g := false) (p := ts)
    (fun _ => hoperand) fun _ hus => hus

/-- The depth does not matter where it is more than the weight of the tokens. -/
theorem agreesAt_operand (dialect : Dialect) {depth depth' : Nat} (h : ts.weight < depth)
    (h' : ts.weight < depth') :
    AgreesAt ts (SignalCalc.operand dialect depth) (SignalCalc.operand dialect depth') := by
  -- the operands inside weigh less, so that one less of depth is enough for them
  induction depth generalizing ts depth' with
  | zero => omega
  | succ depth ih =>
    cases depth' with
    | zero => omega
    | succ depth' =>
      apply agreesAt_operandWith
      intro us hus
      have hless := hus.weight_lt
      exact ih (by omega) (by omega)

end Operands

/-! ## The descent without a depth -/

/-- An operand, in which others may be nested as deep as its tokens allow. -/
def Dialect.operand (dialect : Dialect) : Reading Unit := fun ts =>
  SignalCalc.operand dialect (ts.weight + 1) ts

namespace Dialect

variable {ts : Tokens}

theorem operand_agreesAt (dialect : Dialect) {depth : Nat} (h : ts.weight < depth) :
    AgreesAt ts dialect.operand (SignalCalc.operand dialect depth) :=
  agreesAt_operand dialect (Nat.lt_succ_self _) h

theorem operand_endsAt (dialect : Dialect) (ts : Tokens) : EndsAt ts dialect.operand :=
  (dialect.operand_agreesAt (Nat.lt_succ_self ts.weight)).2

/-- Without a depth operands are read from the operands inside of them. -/
theorem operandWith_operand (dialect : Dialect) :
    operandWith dialect dialect.operand = dialect.operand := by
  funext ts
  have hinside : AgreesOn (Inside · ts) dialect.operand (SignalCalc.operand dialect ts.weight) :=
    fun us hus => dialect.operand_agreesAt hus.weight_lt
  exact (agreesAt_operandWith dialect hinside).1

/-- Whatever reads the operands inside of an operand in this way reads the operand in this way. -/
theorem operand_of_inside (dialect : Dialect) {o : Reading Unit}
    (h : ∀ us, Inside us ts → o us = dialect.operand us) :
    operandWith dialect o ts = dialect.operand ts := by
  have hinside : AgreesOn (Inside · ts) dialect.operand o := fun us hus =>
    ⟨(h us hus).symm, dialect.operand_endsAt us⟩
  have hsame := (agreesAt_operandWith dialect hinside).1
  rw [operandWith_operand] at hsame
  exact hsame.symm

/-- There is no other way to read operands from the operands inside of them. -/
theorem operand_unique (dialect : Dialect) {o : Reading Unit} (h : operandWith dialect o = o) :
    o = dialect.operand := by
  funext ts
  -- induction on where an operand is: both read the operands inside of it in the same way
  induction ts using inside_wellFounded.induction with
  | _ ts ih =>
    rw [← h]
    exact dialect.operand_of_inside ih

/-- The fuel of a loop over operators does not matter where it is more than there are tokens. -/
theorem operators_fuel (dialect : Dialect) (level : Level) (ls : List Level) {fuel : Nat}
    (h : ts.tokens.length < fuel) :
    operators level (ladder dialect.operand ls) fuel ts =
      operators level (ladder dialect.operand ls) (ts.tokens.length + 1) ts := by
  have hanywhere : Hereditary fun _ => True := fun _ _ _ _ => trivial
  have hladder : AgreesOn (fun _ => True) (ladder dialect.operand ls) (ladder dialect.operand ls) :=
    agreesOn_ladder hanywhere (fun us _ => (dialect.operand_endsAt us).agrees) ls
  exact (agreesOn_operators hanywhere level hladder trivial h (Nat.lt_succ_self _)).1

/-- A whole text is read without a depth as with one that is more than its length. -/
theorem wholeText_agreesAt (dialect : Dialect) {cs : List Char} {depth : Nat}
    (h : cs.length < depth) :
    AgreesAt (Tokens.ofText cs) (wholeText dialect.operand)
      (wholeText (SignalCalc.operand dialect depth)) := by
  apply agreesOn_wholeText dialect (hereditary_weight depth)
  · exact fun us hus => dialect.operand_agreesAt hus
  · exact Nat.lt_of_le_of_lt (Tokens.weight_ofText cs) h

/-- Operands are read so where nothing bounds their nesting. -/
structure Unbounded (dialect : Dialect) (o : Reading Unit) : Prop where
  /-- It is the only way to read operands from the operands inside of them. -/
  unique : ∀ o', operandWith dialect o' = o' ↔ o' = o
  /-- How an operand is read depends on the places inside of it only. -/
  inside : ∀ ts o', (∀ us, Inside us ts → o' us = o us) → operandWith dialect o' ts = o ts
  /-- A loop over operators has no more rounds than there are tokens. -/
  loops : ∀ level ls ts fuel, ts.tokens.length < fuel →
    operators level (ladder o ls) fuel ts = operators level (ladder o ls) (ts.tokens.length + 1) ts
  /-- A bound that is more than the length of a text changes nothing. -/
  bounded : ∀ cs depth, cs.length < depth →
    wholeText (SignalCalc.operand dialect depth) (Tokens.ofText cs) =
      wholeText o (Tokens.ofText cs)

theorem operand_unbounded (dialect : Dialect) : dialect.Unbounded dialect.operand where
  unique o' := by
    refine ⟨dialect.operand_unique, ?_⟩
    rintro rfl
    exact dialect.operandWith_operand
  inside _ _ hinside := dialect.operand_of_inside hinside
  loops level ls _ _ hfuel := dialect.operators_fuel level ls hfuel
  bounded _ _ hdepth := (dialect.wholeText_agreesAt hdepth).1.symm

end Dialect

/-- What is wrong with an equation is not that it is nested too deep. -/
theorem Script.fault_ofText (dialect : Dialect) (source : String) :
    (ofText dialect source).fault ≠ some (.text .tooDeep) := by
  have hagrees := dialect.wholeText_agreesAt (Nat.lt_succ_self source.toList.length)
  have hend := hagrees.2
  unfold EndsAt at hend
  unfold ofText
  dsimp only
  rw [← hagrees.1]
  cases hresult : (wholeText dialect.operand (Tokens.ofText source.toList)).result with
  | ok pair => simp
  | error f =>
    rw [hresult] at hend
    intro hdeep
    exact Tokens.ending_ofText _ (hend (Option.some.inj hdeep))

end SignalCalc
