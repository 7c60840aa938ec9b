import Mathlib.Data.List.TakeWhile
import SignalCalc.Equation.Parser
import SignalCalc.Proofs.Equation.Actions
import SignalCalc.Proofs.Token.Scanning

/-! # Reading and working in one pass

The parser works on an equation while it reads, and the mode has a say in what it does next. The
script of an equation is read without a mode, and worked on afterwards. Both come to the same: at any
place of a text the parser has done what the actions listed so far do, and it stands before the tokens
that are left for the script. It stops early where an action is refused, and from then on the rest of
the script is of no consequence.

The two are compared production by production. Most of them have the same shape on both sides. Calls
do not: what the script lists for a function has a meaning in every mode, whereas the parser chooses
its way by the mode. A reference is followed once by the parser, and again by each action of the
script that names it; this makes no difference, because nothing that an equation does redirects a
local reference.
-/

namespace SignalCalc

open WorkM

/-! ## Places in a text -/

namespace Cursor

def tokens (c : Cursor) : Tokens := (Tokens.ofText c.rest).behind c.token.toList

/-- Without a token at hand the text is over, or there is a comma. -/
def Settled (c : Cursor) : Prop :=
  c.token = none → c.rest = [] ∨ ∃ more, c.rest = ',' :: more

variable {c : Cursor}

theorem Settled.tokens_eq_nil (h : c.Settled) (htoken : c.token = none) :
    c.tokens.tokens = [] := by
  obtain hrest | ⟨more, hrest⟩ := h htoken <;> simp [tokens, htoken, hrest] <;> rfl

theorem Settled.head?_tokens (h : c.Settled) : c.tokens.tokens.head? = c.token := by
  cases htoken : c.token with
  | none => rw [h.tokens_eq_nil htoken, List.head?_nil]
  | some t => simp [tokens, htoken, Tokens.behind]

theorem Settled.tail_tokens (h : c.Settled) :
    { c.tokens with tokens := c.tokens.tokens.tail } = Tokens.ofText c.rest := by
  cases htoken : c.token with
  | none =>
    have hnil := h.tokens_eq_nil htoken
    simp only [tokens, htoken, Option.toList_none, Tokens.behind, List.nil_append] at hnil ⊢
    rw [hnil, List.tail_nil, ← hnil]
  | some t => simp [tokens, htoken, Tokens.behind]

end Cursor

variable {σ : Type} [VariableStore σ] {cfg : Setting} {mode : Mode}

/-! ## References -/

def Workspace.references (w : Workspace σ) : Option (List (String × String)) :=
  w.scope.map (·.references)

theorem accessLocal_references (op : AccessOp) (name : String)
    (references : Option (List (String × String))) :
    Raises (fun w => w.references = references) (fun _ => True)
      (accessLocal cfg op name : WorkM σ Bool) := by
  intro w hw
  rw [accessLocal, bind_apply, locals_eq (by simp)]
  cases hlocals : cfg.locals? w.scope with
  | none => exact hw
  | some scope =>
    cases op with
    | read =>
      dsimp only
      cases scope.read? name with
      | none => exact hw
      | some v =>
        have hemit : Raises (fun w => w.references = references) (fun _ => True)
            (emitLiteral cfg .direct v : WorkM σ Unit) :=
          emit_raises (Q := fun scope => scope.map (·.references) = references)
            (fun _ => trivial) cfg .direct _
        exact (hemit.bind fun _ => raises_pure true) w hw
    | write =>
      -- the scope gets a new value for the name; the references in it are carried along
      dsimp only
      have hpeek := onStack_raises (σ := σ) (Q := (· = some scope)) (E := fun _ => True)
        (fun _ => trivial) Stack.peek w (scope_of_locals? hlocals)
      rw [bind_apply]
      cases hresult : WorkM.onStack Stack.peek w with
      | error r w' => trivial
      | ok v w' =>
        rw [hresult] at hpeek
        have hsame : w'.references = w.references := by
          rw [Workspace.references, Workspace.references, scope_of_locals? hlocals, hpeek]
        dsimp only
        cases hwrite : scope.write? name v with
        | none => exact hsame.trans hw
        | some scope' =>
          simp only [Scope.write?, Option.ite_none_right_eq_some, Option.some.injEq] at hwrite
          obtain ⟨-, rfl⟩ := hwrite
          rw [← hw, Workspace.references, scope_of_locals? hlocals]
          rfl
    | readPhysical | writePhysical | readBits | writeBits | invertedBits => exact hw

omit [VariableStore σ] in
theorem dereference_ok {r name : String} {w v : Workspace σ}
    (h : dereference cfg mode r w = .ok name v) :
    v = w ∧ ∀ w' : Workspace σ, w'.references = w.references →
      dereference cfg mode r w' = .ok name w' := by
  by_cases hmode : mode = .compile
  · subst hmode
    cases h
  · rw [dereference_eq hmode] at h
    cases hlocals : cfg.locals? w.scope with
    | none =>
      rw [hlocals] at h
      cases h
    | some scope =>
      cases hfound : scope.dereference? r with
      | none =>
        simp only [hlocals, Option.map_some, hfound] at h
        cases h
      | some target =>
        simp only [hlocals, Option.map_some, hfound] at h
        cases h
        -- a scope with the same references exists there, and answers alike
        refine ⟨rfl, fun w' hsame => ?_⟩
        simp only [Workspace.references, scope_of_locals? hlocals, Option.map_some,
          Option.map_eq_some_iff] at hsame
        obtain ⟨scope', hscope, hreferences⟩ := hsame
        have hlocals' : cfg.locals? w'.scope = some scope' := by
          simp only [Setting.locals?, Option.ite_none_right_eq_some] at hlocals ⊢
          exact ⟨hlocals.1, hscope⟩
        have hfound' : scope'.dereference? r = some name := by
          rw [← hfound, Scope.dereference?, Scope.dereference?, hreferences]
        simp only [dereference_eq hmode, hlocals', Option.map_some, hfound']

theorem perform_references (a : Action) (references : Option (List (String × String))) :
    Raises (fun w => w.references = references) (fun _ => True)
      (perform cfg mode a : WorkM σ Unit) := by
  have hdereference : ∀ r, Raises (fun w => w.references = references) (fun _ => True)
      (dereference cfg mode r : WorkM σ String) := by
    intro r w hw
    cases hname : dereference cfg mode r w with
    | error e v => trivial
    | ok name v => exact (dereference_ok hname).1 ▸ hw
  apply perform_raises_of (Q := fun scope => scope.map (·.references) = references)
    (fun _ => trivial) (fun _ _ => trivial) (fun _ => trivial) (fun _ _ => trivial)
  · exact fun op name => accessLocal_references op name references
  · rintro op (name | r) -
    · exact raises_pure name
    · exact hdereference r
  · exact fun r _ => hdereference r

/-- No action redirects a local reference. -/
theorem performAll_references {actions : List Action} {w w' : Workspace σ}
    (h : performAll cfg mode actions w = .ok () w') : w'.references = w.references := by
  induction actions generalizing w with
  | nil =>
    cases h
    rfl
  | cons a actions ih =>
    have hfirst := @perform_references _ _ cfg mode a w.references w rfl
    rw [performAll, bind_apply] at h
    cases hperform : perform cfg mode a w with
    | error r v =>
      rw [hperform] at h
      cases h
    | ok u v =>
      rw [hperform] at h hfirst
      exact (ih h).trans hfirst

/-! ## Steps of both -/

namespace Parser

/-- What the parser comes to, beside a step of the script from the same place. -/
inductive Matches (cfg : Setting) (mode : Mode) {α : Type} (p : Parser σ) :
    Step α → EStateM.Result Refusal (Parser σ) α → Prop where
  | stopped {actions : List Action} {result : Except SourceFault (α × Tokens)} {r : Refusal}
      {q : Parser σ} (hactions : performAll cfg mode actions p.workspace = .error r q.workspace) :
      Matches cfg mode p ⟨actions, result⟩ (.error r q)
  | refused {actions : List Action} {f : SourceFault} {q : Parser σ}
      (hactions : performAll cfg mode actions p.workspace = .ok () q.workspace) :
      Matches cfg mode p ⟨actions, .error f⟩ (.error f.refusal q)
  | through {actions : List Action} {a : α} {rest : Tokens} {q : Parser σ}
      (hactions : performAll cfg mode actions p.workspace = .ok () q.workspace)
      (hsettled : q.cursor.Settled) (hrest : q.cursor.tokens = rest)
      (hlength : rest.tokens.length ≤ p.cursor.tokens.tokens.length) :
      Matches cfg mode p ⟨actions, .ok (a, rest)⟩ (.ok a q)

def FollowsAt (cfg : Setting) (mode : Mode) {α : Type} (p : Parser σ) (r : Reading α)
    (x : ParserM σ α) : Prop :=
  Matches cfg mode p (r p.cursor.tokens) (x p)

def Follows (cfg : Setting) (mode : Mode) {α : Type} (r : Reading α) (x : ParserM σ α) : Prop :=
  ∀ p : Parser σ, p.cursor.Settled → FollowsAt cfg mode p r x

/-- Where the parser may be after some reading. -/
structure Onward (p q : Parser σ) : Prop where
  settled : q.cursor.Settled
  references : q.workspace.references = p.workspace.references
  length_le : q.cursor.tokens.tokens.length ≤ p.cursor.tokens.tokens.length

section Steps

variable {α β : Type} {p : Parser σ}

theorem FollowsAt.bind_ok {r : Reading α} {next : α → Reading β} {x : ParserM σ α}
    {next' : α → ParserM σ β} (h : FollowsAt cfg mode p r x)
    (hnext : ∀ a q, Onward p q → (r p.cursor.tokens).result = .ok (a, q.cursor.tokens) →
      FollowsAt cfg mode q (next a) (next' a)) :
    FollowsAt cfg mode p (r >>= next) (x >>= next') := by
  unfold FollowsAt at h ⊢
  -- what the first piece came to decides whether there is a second one
  simp only [Bind.bind, Reading.andThen, EStateM.bind]
  generalize r p.cursor.tokens = step at h hnext
  generalize x p = out at h
  cases h with
  | @stopped actions result r q hactions =>
    cases result with
    | error f => exact .stopped hactions
    | ok pair =>
      apply Matches.stopped
      rw [performAll_append, bind_apply, hactions]
  | refused hactions => exact .refused hactions
  | @through actions a rest q hactions hsettled hrest hlength =>
    subst hrest
    have hsecond := hnext a q ⟨hsettled, performAll_references hactions, hlength⟩ rfl
    -- the actions of the second piece are performed behind those of the first
    have happend : ∀ more, performAll cfg mode (actions ++ more) p.workspace =
        performAll cfg mode more q.workspace := by
      intro more
      rw [performAll_append, bind_apply, hactions]
    unfold FollowsAt at hsecond
    dsimp only
    generalize next a q.cursor.tokens = step at hsecond
    generalize next' a q = out at hsecond
    cases hsecond with
    | stopped hmore => exact .stopped ((happend _).trans hmore)
    | refused hmore => exact .refused ((happend _).trans hmore)
    | through hmore hsettled' hrest' hlength' =>
      exact .through ((happend _).trans hmore) hsettled' hrest' (Nat.le_trans hlength' hlength)

theorem FollowsAt.bind {r : Reading α} {next : α → Reading β} {x : ParserM σ α}
    {next' : α → ParserM σ β} (h : FollowsAt cfg mode p r x)
    (hnext : ∀ a q, Onward p q → FollowsAt cfg mode q (next a) (next' a)) :
    FollowsAt cfg mode p (r >>= next) (x >>= next') :=
  h.bind_ok fun a q hq _ => hnext a q hq

theorem Follows.bind {r : Reading α} {next : α → Reading β} {x : ParserM σ α}
    {next' : α → ParserM σ β} (h : Follows cfg mode r x)
    (hnext : ∀ a, Follows cfg mode (next a) (next' a)) :
    Follows cfg mode (r >>= next) (x >>= next') :=
  fun p hp => (h p hp).bind fun a q hq => hnext a q hq.settled

theorem follows_pure (a : α) : Follows cfg mode (pure a : Reading α) (pure a : ParserM σ α) :=
  fun _ hp => .through rfl hp rfl (Nat.le_refl _)

theorem follows_refuse (f : SourceFault) :
    Follows cfg mode (Reading.refuse f : Reading α) (throw f.refusal : ParserM σ α) :=
  fun _ _ => .refused rfl

theorem follows_fail (f : TextFault) :
    Follows cfg mode (Reading.fail f : Reading α) (fail f : ParserM σ α) :=
  follows_refuse (.text f)

/-- The parser does what an action does. -/
theorem followsAt_emit {a : Action} {x : WorkM σ Unit} (hp : p.cursor.Settled)
    (hx : x p.workspace = perform cfg mode a p.workspace) :
    FollowsAt cfg mode p (Reading.emit a) (work x) := by
  unfold FollowsAt work
  rw [hx]
  have hsingle : performAll cfg mode [a] p.workspace = perform cfg mode a p.workspace := by
    simp only [performAll, bind_apply]
    cases perform cfg mode a p.workspace <;> rfl
  cases hperform : perform cfg mode a p.workspace with
  | error r w => exact .stopped (hsingle.trans hperform)
  | ok u w => exact .through (hsingle.trans hperform) hp rfl (Nat.le_refl _)

theorem follows_emit (a : Action) :
    Follows cfg mode (Reading.emit a) (work (perform cfg mode a) : ParserM σ Unit) :=
  fun _ hp => followsAt_emit hp rfl

/-- Where an action is refused, the rest of the script does not matter. -/
theorem followsAt_refused {a : Action} {next : Unit → Reading α} {x : ParserM σ α} {r : Refusal}
    {q : Parser σ} (ha : perform cfg mode a p.workspace = .error r q.workspace)
    (hx : x p = .error r q) : FollowsAt cfg mode p (Reading.emit a >>= next) x := by
  have hactions : ∀ more, performAll cfg mode (a :: more) p.workspace = .error r q.workspace := by
    intro more
    rw [performAll, bind_apply, ha]
  unfold FollowsAt
  rw [hx]
  simp only [Bind.bind, Reading.andThen, Reading.emit, List.singleton_append]
  exact .stopped (hactions _)

omit [VariableStore σ] in
theorem work_bind (x : WorkM σ α) (f : α → WorkM σ β) :
    work (x >>= f) = work x >>= fun a => work (f a) := by
  funext p
  simp only [work, bind, EStateM.bind]
  cases x p.workspace <;> rfl

theorem followsAt_current {next : Option Token → Reading β} {next' : Option Token → ParserM σ β}
    (hp : p.cursor.Settled)
    (h : FollowsAt cfg mode p (next p.cursor.token) (next' p.cursor.token)) :
    FollowsAt cfg mode p (Reading.current >>= next) (token >>= next') := by
  unfold FollowsAt at h ⊢
  simpa [Bind.bind, Reading.andThen, EStateM.bind, Reading.current, token, hp.head?_tokens] using h

/-- Reading on, the parser finds what the script has next. -/
theorem matches_settle (p : Parser σ) :
    Matches cfg mode p (Reading.settle (Tokens.ofText p.cursor.rest)) (advance p) := by
  have hlength : (Tokens.ofText p.cursor.rest).tokens.length ≤ p.cursor.tokens.tokens.length := by
    simp [Cursor.tokens, Tokens.behind]
  unfold advance
  cases hnext : Token.next p.cursor.rest with
  | fault f =>
    rw [ofText_fault hnext]
    exact .refused rfl
  | token t rest =>
    rw [ofText_token hnext] at hlength ⊢
    exact .through rfl (fun h => by cases h) rfl hlength
  | stop rest =>
    have hsettled : Cursor.Settled ⟨none, rest⟩ := fun _ => stop_cases hnext
    rw [ofText_stop hnext] at hlength ⊢
    obtain rfl | ⟨more, rfl⟩ := stop_cases hnext
    · exact .through rfl hsettled rfl hlength
    · exact .through rfl hsettled rfl hlength

theorem follows_advance : Follows cfg mode Reading.advance (advance : ParserM σ Unit) := by
  intro p hp
  unfold FollowsAt Reading.advance
  rw [hp.tail_tokens]
  exact matches_settle p

/-- Behind a token there are fewer. -/
theorem followsAt_advance {t : Token} (hp : p.cursor.Settled) (ht : p.cursor.token = some t)
    {next : Reading β} {next' : ParserM σ β}
    (hnext : ∀ q, Onward p q →
      q.cursor.tokens.tokens.length < p.cursor.tokens.tokens.length →
      FollowsAt cfg mode q next next') :
    FollowsAt cfg mode p (Reading.advance >>= fun _ => next) (advance >>= fun _ => next') := by
  apply (follows_advance p hp).bind_ok
  intro _ q hq hok
  apply hnext q hq
  rw [Reading.advance, hp.tail_tokens] at hok
  rw [Reading.settle_ok hok]
  simp [Cursor.tokens, ht, Tokens.behind]

/-- A nested text is read for what it does, and the place at hand stays. -/
theorem follows_nested {text : List Char} {r : Reading Unit} {x : ParserM σ Unit}
    (h : ∀ p : Parser σ, p.cursor = ⟨none, text⟩ → FollowsAt cfg mode p r x) :
    Follows cfg mode (Reading.within text r) (nested text x) := by
  intro p hp
  have hinner := h { p with cursor := ⟨none, text⟩ } rfl
  unfold FollowsAt Reading.within nested
  unfold FollowsAt at hinner
  rw [show Cursor.tokens ⟨none, text⟩ = Tokens.ofText text from rfl] at hinner
  generalize r (Tokens.ofText text) = step at hinner
  generalize x { p with cursor := ⟨none, text⟩ } = out at hinner
  cases hinner with
  | stopped hactions => exact .stopped hactions
  | refused hactions => exact .refused hactions
  | through hactions => exact .through hactions hp rfl (Nat.le_refl _)

end Steps

/-! ## Expressions -/

section Expressions

variable {reading : Reading Unit} {operand : ParserM σ Unit} {p : Parser σ}

theorem followsAt_operators (hoperand : Follows cfg mode reading operand) (level : Level)
    {fuel fuel' : Nat} (hp : p.cursor.Settled) (hfuel : p.cursor.tokens.tokens.length < fuel)
    (hfuel' : p.cursor.tokens.tokens.length < fuel') :
    FollowsAt cfg mode p (SignalCalc.operators level reading fuel)
      (operators cfg mode operand level fuel') := by
  -- each round takes a token, so that both kinds of fuel last
  induction fuel generalizing p fuel' with
  | zero => omega
  | succ fuel ih =>
    cases fuel' with
    | zero => omega
    | succ fuel' =>
      have hstop : FollowsAt cfg mode p (pure () : Reading Unit) (pure ()) := follows_pure () p hp
      unfold SignalCalc.operators operators operatorAt
      rw [bind_assoc]
      apply followsAt_current hp
      cases htoken : p.cursor.token with
      | none => exact hstop
      | some t =>
        cases t with
        | symbol s =>
          dsimp only
          rw [pure_bind]
          cases level s with
          | none => exact hstop
          | some op =>
            apply followsAt_advance hp htoken
            intro q hq hless
            apply (hoperand q hq.settled).bind
            intro _ q' hq'
            apply (follows_emit (.operate op) q' hq'.settled).bind
            intro _ q'' hq''
            have hlength := Nat.le_trans hq''.length_le hq'.length_le
            exact ih hq''.settled (by omega) (by omega)
        | number | name | call | placeholder => exact hstop

theorem follows_leftAssociative (hoperand : Follows cfg mode reading operand) (level : Level) :
    Follows cfg mode (SignalCalc.leftAssociative level reading)
      (leftAssociative cfg mode operand level) := by
  apply hoperand.bind
  intro _ p hp
  have hlength : p.cursor.tokens.tokens.length ≤ p.cursor.rest.length + 1 := by
    have htoken : p.cursor.token.toList.length ≤ 1 := by cases p.cursor.token <;> simp
    have hrest := Tokens.length_ofText_le p.cursor.rest
    simp only [Cursor.tokens, Tokens.behind, List.length_append]
    omega
  exact followsAt_operators hoperand level hp (Nat.lt_succ_self _) (Nat.lt_succ_of_le hlength)

theorem follows_ladder (hoperand : Follows cfg mode reading operand) (ls : List Level) :
    Follows cfg mode (SignalCalc.ladder reading ls) (ladder cfg mode operand ls) := by
  induction ls with
  | nil => exact hoperand
  | cons level tighter ih => exact follows_leftAssociative ih level

theorem follows_expression (hoperand : Follows cfg mode reading operand) :
    Follows cfg mode (SignalCalc.expression reading) (expression cfg mode operand) :=
  follows_ladder hoperand levels

/-- Behind the last token a comma is told from the end of the text. -/
theorem followsAt_end (hp : p.cursor.Settled) (htoken : p.cursor.token = none) :
    FollowsAt cfg mode p
      (Reading.ending >>= fun e => match e with
        | .comma => Reading.fail .unexpectedComma
        | _ => pure ())
      (rest >>= fun text =>
        if (Text.trim text).isEmpty then pure () else fail .unexpectedComma) := by
  obtain ⟨⟨token, rest⟩, w⟩ := p
  obtain rfl : token = none := htoken
  obtain rfl | ⟨more, rfl⟩ : rest = [] ∨ ∃ more, rest = ',' :: more := hp rfl
  · exact .through rfl hp rfl (Nat.le_refl _)
  · have htrim : (Text.trim (',' :: more)).isEmpty = false := by
      -- a comma is no blank, so that neither end of the text is trimmed over it
      have hcomma : Text.isBlank ',' = false := by decide
      rw [Text.trim, List.dropWhile_cons_of_neg (by simp [hcomma]), List.isEmpty_reverse]
      refine Bool.eq_false_iff.mpr fun hall => ?_
      rw [List.isEmpty_iff, List.dropWhile_eq_nil_iff] at hall
      exact absurd (hall ',' (by simp)) (by simp [hcomma])
    have hfail : (rest >>= fun text => if (Text.trim text).isEmpty then pure ()
        else fail .unexpectedComma : ParserM σ Unit) ⟨⟨none, ',' :: more⟩, w⟩ =
          .error (.text .unexpectedComma) ⟨⟨none, ',' :: more⟩, w⟩ := by
      simp only [Bind.bind, EStateM.bind, rest, htrim]
      rfl
    unfold FollowsAt
    rw [hfail]
    exact .refused rfl

/-- A whole text is entered without a token at hand. -/
theorem followsAt_wholeText (hoperand : Follows cfg mode reading operand)
    (hp : p.cursor.token = none) :
    FollowsAt cfg mode p (wholeText reading) (parseAll cfg mode operand) := by
  have hstart : FollowsAt cfg mode p Reading.settle advance := by
    unfold FollowsAt
    rw [show p.cursor.tokens = Tokens.ofText p.cursor.rest by simp [Cursor.tokens, hp, Tokens.behind]]
    exact matches_settle p
  apply hstart.bind
  intro _ q hq
  apply (follows_expression hoperand q hq.settled).bind
  intro _ q' hq'
  apply followsAt_current hq'.settled
  cases htoken : q'.cursor.token with
  | some t => exact follows_fail _ q' hq'.settled
  | none => exact followsAt_end hq'.settled htoken

/-! ## Variables -/

def Names (cfg : Setting) (mode : Mode) (target : Target) (name : String) (p : Parser σ) : Prop :=
  targetName cfg mode target p.workspace = .ok name p.workspace

omit [VariableStore σ] in
theorem Names.onward {target : Target} {name : String} {q : Parser σ}
    (h : Names cfg mode target name p) (hq : Onward p q) : Names cfg mode target name q := by
  cases target with
  | named n =>
    cases h
    rfl
  | reference r => exact (dereference_ok h).2 _ hq.references

omit [VariableStore σ] in
theorem names_named (name : String) (p : Parser σ) : Names cfg mode (.named name) name p := rfl

theorem followsAt_access {target : Target} {name : String} (hp : p.cursor.Settled)
    (hname : Names cfg mode target name p) (op : AccessOp) :
    FollowsAt cfg mode p (Reading.emit (.access op target)) (variableOp cfg mode op name) := by
  apply followsAt_emit hp
  rw [perform, bind_apply, show targetName cfg mode target p.workspace = _ from hname]

theorem followsAt_variableUse (hoperand : Follows cfg mode reading operand) {target : Target}
    {name : String} (hp : p.cursor.Settled) (hname : Names cfg mode target name p)
    (load store : AccessOp) :
    FollowsAt cfg mode p (SignalCalc.variableUse reading target load store)
      (variableUse cfg mode operand load store name) := by
  have hload := followsAt_access hp hname load
  apply followsAt_current hp
  cases htoken : p.cursor.token with
  | none => exact hload
  | some t =>
    cases t with
    | symbol s =>
      cases hsign : assignment? s with
      | none =>
        simp only [hsign]
        exact hload
      | some combine =>
        simp only [hsign]
        apply (follows_advance p hp).bind
        intro _ q hq
        apply (follows_expression hoperand q hq.settled).bind
        intro _ q' hq'
        -- the name behind a reference is the same after the right-hand side as before it
        have hname' := (hname.onward hq).onward hq'
        cases combine with
        | none => exact followsAt_access hq'.settled hname' store
        | some op =>
          apply (followsAt_access hq'.settled hname' load).bind
          intro _ q₁ hq₁
          apply (follows_emit (.operate (.stack .swap)) q₁ hq₁.settled).bind
          intro _ q₂ hq₂
          apply (follows_emit (.operate op) q₂ hq₂.settled).bind
          intro _ q₃ hq₃
          exact followsAt_access hq₃.settled
            (((hname'.onward hq₁).onward hq₂).onward hq₃) store
    | number | name | call | placeholder => exact hload

end Expressions

/-! ## Calls -/

section Calls

variable {reading : Reading Unit} {operand : ParserM σ Unit} {p : Parser σ}

theorem follows_arguments (hoperand : Follows cfg mode reading operand) (function : String)
    (texts : List (List Char)) :
    Follows cfg mode (SignalCalc.arguments reading function texts)
      (arguments cfg mode operand function texts) := by
  induction texts with
  | nil => exact follows_pure ()
  | cons text more ih =>
    unfold SignalCalc.arguments arguments
    split
    · exact follows_fail _
    · apply (follows_nested fun p hp => ?_).bind fun _ => ih
      exact followsAt_wholeText hoperand (by rw [hp])

theorem follows_checkArity (function : String) (arity : Arity) (got : Nat) :
    Follows cfg mode (SignalCalc.checkArity function arity got)
      (checkArity function arity got : ParserM σ Unit) := by
  unfold SignalCalc.checkArity checkArity
  split
  · exact follows_pure ()
  · exact follows_refuse _

theorem follows_checkGate (gate : Gate) (name : String) :
    Follows cfg mode (demandGate gate name) (checkGate cfg mode gate name : ParserM σ Unit) := by
  intro p hp
  cases gate with
  | anywhere => exact follows_pure () p hp
  | frame =>
    have hgate : (checkGate cfg mode .frame name : ParserM σ Unit) =
        work (perform cfg mode (.demand .frame name)) := by
      simp only [checkGate, perform, meetDemand]
      split <;> rfl
    rw [hgate]
    exact follows_emit _ p hp
  | stateful =>
    have hgate : (checkGate cfg mode .stateful name : ParserM σ Unit) =
        work (perform cfg mode (.demand .memory name)) := by
      simp only [checkGate, perform, meetDemand]
      split <;> rfl
    rw [hgate]
    exact follows_emit _ p hp

theorem follows_immediate {function : String} {r : Reading Unit} {x : ParserM σ Unit}
    (h : mode ≠ .compile → Follows cfg mode r x) :
    Follows cfg mode (Reading.emit (.demand .immediate function) >>= fun _ => r)
      (if mode = .compile then notAllowed function else x) := by
  intro p hp
  by_cases hmode : mode = .compile
  · subst hmode
    exact followsAt_refused (r := .place (.notAllowed function)) (q := p) rfl rfl
  · have hidle : (work (perform cfg mode (.demand .immediate function)) : ParserM σ Unit) =
        pure () := by
      simp only [perform, meetDemand, if_neg hmode]
      rfl
    have hboth := (follows_emit (.demand .immediate function) p hp).bind
      fun _ q hq => h hmode q hq.settled
    rw [hidle, pure_bind] at hboth
    rwa [if_neg hmode]

theorem follows_invoke (i : Instruction) (count : Nat) (usesFrame : Bool) :
    Follows cfg mode (Reading.emit (.invoke i count usesFrame))
      (if usesFrame && mode.isCheck then work (stubResult count) else emit cfg mode i :
        ParserM σ Unit) := by
  have hinvoke : (if usesFrame && mode.isCheck then work (stubResult count)
      else emit cfg mode i : ParserM σ Unit) =
        work (perform cfg mode (.invoke i count usesFrame)) := by
    simp only [perform]
    split <;> rfl
  rw [hinvoke]
  exact follows_emit _

theorem follows_variableName (function : String) (args : List Char) :
    Follows cfg mode (nameArgument function args)
      (variableName function args : ParserM σ String) := by
  unfold nameArgument variableName
  dsimp only
  split
  · exact follows_pure _
  · exact follows_fail _

theorem follows_fixedBuiltin (hoperand : Follows cfg mode reading operand) (b : Builtin)
    (args : List Char) :
    Follows cfg mode (builtinCall reading b args) (fixedBuiltin cfg mode operand b args) := by
  have hinvoke : Follows cfg mode
      (Reading.emit (.invoke (b.instruction (splitArguments args).length)
        (splitArguments args).length (b.gate = .frame)))
      (if b.gate = .frame && mode.isCheck then work (stubResult (splitArguments args).length)
        else emit cfg mode (b.instruction (splitArguments args).length) : ParserM σ Unit) :=
    follows_invoke _ _ _
  apply (follows_checkArity _ _ _).bind
  intro _
  apply (follows_checkGate _ _).bind
  intro _
  apply (follows_arguments hoperand _ _).bind
  intro _
  by_cases hnear : (b.op = .math .near && (splitArguments args).length = 2) = true
  · simp only [hnear, if_true]
    exact (follows_emit (.push (.ofFloat 0.0))).bind fun _ => hinvoke
  · simp only [hnear]
    exact hinvoke

theorem follows_plugin (hoperand : Follows cfg mode reading operand) (name : String)
    (args : List Char) :
    Follows cfg mode (pluginCall cfg.plugins reading name args)
      (plugin cfg mode operand name args) := by
  unfold pluginCall plugin
  cases cfg.plugins.lookup? name with
  | none => exact follows_fail _
  | some p =>
    apply (follows_checkArity _ _ _).bind
    intro _
    cases hframe : p.usesFrame with
    | true =>
      simp only [if_true]
      apply (follows_checkGate .frame name).bind
      intro _
      exact (follows_arguments hoperand _ _).bind fun _ => follows_invoke _ _ _
    | false =>
      simp only
      exact (follows_arguments hoperand _ _).bind fun _ => follows_invoke _ _ _

/-- The parser follows a reference where the script asks whether it can be followed. -/
theorem followsAt_follow {reference : String} (hp : p.cursor.Settled) {next : Reading Unit}
    {next' : String → ParserM σ Unit}
    (hnext : ∀ name q, Onward p q → Names cfg mode (.reference reference) name q →
      FollowsAt cfg mode q next (next' name)) :
    FollowsAt cfg mode p (Reading.emit (.follow reference) >>= fun _ => next)
      (work (dereference cfg mode reference) >>= next') := by
  cases hname : dereference cfg mode reference p.workspace with
  | error r w =>
    apply followsAt_refused (r := r) (q := { p with workspace := w })
    · rw [perform, bind_apply, hname]
    · simp only [bind, EStateM.bind, work, hname]
  | ok name w =>
    obtain ⟨rfl, hsame⟩ := dereference_ok hname
    have hfollow : FollowsAt cfg mode p (Reading.emit (.follow reference))
        (work (perform cfg mode (.follow reference))) := follows_emit _ p hp
    have hboth := hfollow.bind fun _ q hq => hnext name q hq (hsame _ hq.references)
    have hx : (work (perform cfg mode (.follow reference)) >>= fun _ => next' name) p =
        (work (dereference cfg mode reference) >>= next') p := by
      simp only [perform, bind, EStateM.bind, work, hname]
      rfl
    unfold FollowsAt at hboth ⊢
    rwa [hx] at hboth

theorem follows_physical (hoperand : Follows cfg mode reading operand) (name : String)
    (args : List Char) :
    Follows cfg mode (specialCall reading name args .physical)
      (physical cfg mode operand name args) := by
  by_cases hstar : ∃ reference, args = '*' :: reference
  · obtain ⟨reference, rfl⟩ := hstar
    intro p hp
    exact followsAt_follow hp fun name q hq hname =>
      followsAt_variableUse hoperand hq.settled hname .readPhysical .writePhysical
  · have hscript : specialCall reading name args .physical = (nameArgument name args >>= fun n =>
        SignalCalc.variableUse reading (.named n) .readPhysical .writePhysical) := by
      unfold specialCall
      dsimp only
      split
      · exact absurd ⟨_, rfl⟩ hstar
      · rfl
    have hparser : physical cfg mode operand name args = (variableName name args >>= fun n =>
        variableUse cfg mode operand .readPhysical .writePhysical n) := by
      unfold physical
      split
      · exact absurd ⟨_, rfl⟩ hstar
      · rfl
    rw [hscript, hparser]
    apply (follows_variableName name args).bind
    intro n p hp
    exact followsAt_variableUse hoperand hp (names_named n p) .readPhysical .writePhysical

theorem follows_enumValue (reading : Reading Unit) (name : String) (args : List Char) :
    Follows cfg mode (specialCall reading name args .enumText)
      (enumValue cfg mode args : ParserM σ Unit) := by
  unfold specialCall enumValue
  cases splitEnum? args with
  | none => exact follows_fail _
  | some parts =>
    obtain ⟨before, after⟩ := parts
    have henum : ∀ n text, (if mode.isCheck then variableOp cfg mode .read n
        else work (enumNumber n text) >>= emitLiteral cfg mode : ParserM σ Unit) =
          work (perform cfg mode (.enumText n text)) := by
      intro n text
      simp only [perform]
      split
      · rfl
      · rw [work_bind]
        rfl
    dsimp only
    rw [henum]
    exact follows_emit _

theorem follows_query (reading : Reading Unit) (name : String) (args : List Char) (q : Query) :
    Follows cfg mode (specialCall reading name args (.query q))
      (query cfg mode name args q : ParserM σ Unit) := by
  apply follows_immediate
  intro _
  extract_lets subject
  split
  · exact follows_fail _
  · have hquery : (if mode.isCheck then emitLiteral cfg mode (.ofFloat 1.0)
        else work WorkM.store >>= fun s => emitLiteral cfg mode
          (.ofFloat (Float.ofNat (answer cfg.host s (String.ofList subject) q))) :
            ParserM σ Unit) = work (perform cfg mode (.query q (String.ofList subject))) := by
      simp only [perform]
      split
      · rfl
      · rw [work_bind]
        rfl
    rw [hquery]
    exact follows_emit _

/-- A comparison takes its limit first, if it has one. -/
theorem work_compareText (cfg : Setting) (mode : Mode) (bounded ignoreCase : Bool)
    (left right : String) :
    (work (perform cfg mode (.compareText bounded ignoreCase left right)) : ParserM σ Unit) =
      (if bounded then work (onStack Stack.pop) >>= fun v => pure (some v.toUInt64.toNat)
        else pure none) >>= fun limit =>
        if mode.isCheck then emitLiteral cfg mode (.ofFloat 1.0)
        else emitLiteral cfg mode (.ofFloat (orderNumber (compareBytes
          (comparedBytes ignoreCase limit left) (comparedBytes ignoreCase limit right)))) := by
  cases bounded with
  | false => cases mode <;> rfl
  | true =>
    simp only [perform, textOrder, if_true, bind_assoc, map_eq_pure_bind, work_bind, pure_bind]
    cases mode <;> rfl

theorem follows_compareStrings (hoperand : Follows cfg mode reading operand) (name : String)
    (args : List Char) (bounded ignoreCase : Bool) :
    Follows cfg mode (specialCall reading name args (.compareText bounded ignoreCase))
      (compareStrings cfg mode operand name args bounded ignoreCase) := by
  apply follows_immediate
  intro hmode
  apply (follows_checkArity _ _ _).bind
  intro _
  unfold limit
  cases bounded with
  | false =>
    have htexts := work_compareText (σ := σ) cfg mode false ignoreCase
      (String.ofList (Text.unquote ((splitArguments args).getD 0 [])))
      (String.ofList (Text.unquote ((splitArguments args).getD 1 [])))
    simp only [Bool.false_eq_true, if_false] at htexts ⊢
    rw [← htexts]
    exact follows_emit _
  | true =>
    have htexts := work_compareText (σ := σ) cfg mode true ignoreCase
      (String.ofList (Text.unquote ((splitArguments args).getD 0 [])))
      (String.ofList (Text.unquote ((splitArguments args).getD 1 [])))
    simp only [if_true] at htexts ⊢
    rw [bind_assoc]
    apply (follows_arguments hoperand _ _).bind
    intro _
    rw [← htexts]
    exact follows_emit _

theorem follows_rawBits (hoperand : Follows cfg mode reading operand) (name : String)
    (args : List Char) (op : AccessOp) :
    Follows cfg mode (specialCall reading name args (.rawBits op))
      (special cfg mode operand name args (.rawBits op)) := by
  by_cases hwrite : op = .writeBits
  · subst hwrite
    rw [specialCall, special]
    apply (follows_checkArity _ _ _).bind
    intro _
    apply (follows_variableName _ _).bind
    intro n
    apply (follows_arguments hoperand _ _).bind
    intro _ p hp
    exact followsAt_access hp (names_named n p) .writeBits
  · rw [specialCall, special]
    · apply (follows_variableName _ _).bind
      intro n p hp
      exact followsAt_access hp (names_named n p) op
    · exact hwrite
    · exact hwrite

theorem follows_call (hoperand : Follows cfg mode reading operand) (name : String)
    (args : List Char) :
    Follows cfg mode (SignalCalc.call cfg.dialect reading name args)
      (call cfg mode operand name args) := by
  unfold SignalCalc.call call
  cases Builtin.lookup? name with
  | some b => exact follows_fixedBuiltin hoperand b args
  | none =>
    cases Special.lookup? name with
    | none => exact follows_plugin hoperand name args
    | some s =>
      cases s with
      | physical => exact follows_physical hoperand name args
      | enumText => exact follows_enumValue reading name args
      | query q => exact follows_query reading name args q
      | compareText bounded ignoreCase =>
        exact follows_compareStrings hoperand name args bounded ignoreCase
      | rawBits op => exact follows_rawBits hoperand name args op

end Calls

/-! ## Operands -/

section Operands

variable {reading : Reading Unit} {operand : ParserM σ Unit} {p : Parser σ}

theorem follows_variable (hoperand : Follows cfg mode reading operand) (name : String)
    (load store : AccessOp) :
    Follows cfg mode (SignalCalc.variableUse reading (.named name) load store)
      (variableUse cfg mode operand load store name) :=
  fun _ hp => followsAt_variableUse hoperand hp (names_named name _) load store

theorem follows_placeholder (hoperand : Follows cfg mode reading operand) :
    Follows cfg mode (SignalCalc.placeholder reading cfg.options.placeholder)
      (placeholder cfg mode operand) := by
  unfold placeholder
  cases cfg.options.placeholder with
  | forbidden => exact follows_fail _
  | parameter => exact follows_emit (.operate (.stack .parameter))
  | value v => exact follows_emit (.push v)
  | named name => exact follows_variable hoperand name .read .write

theorem follows_negation (hoperand : Follows cfg mode reading operand) :
    Follows cfg mode (SignalCalc.negation reading) (negation cfg mode operand) := by
  intro p hp
  have hnegated : FollowsAt cfg mode p
      (reading >>= fun _ => Reading.emit (.operate (.arithmetic .neg)))
      (operand >>= fun _ => emit cfg mode (.plain (.arithmetic .neg))) :=
    (hoperand p hp).bind fun _ q hq => follows_emit (.operate (.arithmetic .neg)) q hq.settled
  apply followsAt_current hp
  cases htoken : p.cursor.token with
  | none => exact hnegated
  | some t =>
    cases t with
    | number v =>
      cases hliteral : negatedLiteral? v with
      | none =>
        simp only [hliteral]
        exact hnegated
      | some w =>
        simp only [hliteral]
        exact (follows_advance p hp).bind fun _ q hq => follows_emit (.push w) q hq.settled
    | symbol | name | call | placeholder => exact hnegated

theorem follows_closing :
    Follows cfg mode closing
      (token >>= fun t => match t with
        | some (.symbol .closeParen) => advance
        | _ => fail .missingParenthesis : ParserM σ Unit) := by
  intro p hp
  have hfail : FollowsAt cfg mode p (Reading.fail .missingParenthesis : Reading Unit)
      (fail .missingParenthesis) := follows_fail _ p hp
  apply followsAt_current hp
  cases p.cursor.token with
  | none => exact hfail
  | some t =>
    cases t with
    | symbol s =>
      cases s with
      | closeParen => exact follows_advance p hp
      | _ => exact hfail
    | number | name | call | placeholder => exact hfail

theorem follows_reference (hoperand : Follows cfg mode reading operand) :
    Follows cfg mode
      (Reading.current >>= fun t => match t with
        | some (.name name) => do
          Reading.emit (.follow name)
          Reading.advance
          SignalCalc.variableUse reading (.reference name) .read .write
        | _ => Reading.fail .missingReference)
      (token >>= fun t => match t with
        | some (.name reference) => do
          let name ← work (dereference cfg mode reference)
          advance
          variableUse cfg mode operand .read .write name
        | _ => fail .missingReference) := by
  intro p hp
  apply followsAt_current hp
  cases p.cursor.token with
  | none => exact follows_fail _ p hp
  | some t =>
    cases t with
    | name n =>
      apply followsAt_follow hp
      intro name q hq hname
      apply (follows_advance q hq.settled).bind
      intro _ q' hq'
      exact followsAt_variableUse hoperand hq'.settled (hname.onward hq') .read .write
    | symbol | number | call | placeholder => exact follows_fail _ p hp

theorem follows_primaryWith (hoperand : Follows cfg mode reading operand) :
    Follows cfg mode (operandWith cfg.dialect reading) (primaryWith cfg mode operand) := by
  intro p hp
  have hfail : ∀ f, FollowsAt cfg mode p (Reading.fail f : Reading Unit) (fail f) :=
    fun f => follows_fail f p hp
  -- every operand starts with a token
  have hadvance : ∀ {r : Reading Unit} {x : ParserM σ Unit}, Follows cfg mode r x →
      FollowsAt cfg mode p (Reading.advance >>= fun _ => r) (advance >>= fun _ => x) :=
    fun h => (follows_advance p hp).bind fun _ q hq => h q hq.settled
  apply followsAt_current hp
  cases p.cursor.token with
  | none => exact hfail _
  | some t =>
    cases t with
    | number v => exact hadvance (follows_emit (.push v))
    | name n => exact hadvance (follows_variable hoperand n .read .write)
    | call name args => exact hadvance (follows_call hoperand name args)
    | placeholder => exact hadvance (follows_placeholder hoperand)
    | symbol s =>
      cases s with
      | minus => exact hadvance (follows_negation hoperand)
      | plus => exact hadvance hoperand
      | bang => exact hadvance (hoperand.bind fun _ => follows_emit (.operate (.logic .not)))
      | openParen => exact hadvance ((follows_expression hoperand).bind fun _ => follows_closing)
      | star => exact hadvance (follows_reference hoperand)
      | _ => exact hfail _

theorem follows_primary (depth : Nat) :
    Follows cfg mode (SignalCalc.operand cfg.dialect depth)
      (primary cfg mode depth : ParserM σ Unit) := by
  induction depth with
  | zero => exact follows_fail _
  | succ depth ih => exact follows_primaryWith ih

end Operands

/-- To read an equation and work on it in one pass is to read its script and then to do what the
script says, in any mode. -/
theorem read_eq_interpret (cfg : Setting) (mode : Mode) (source : String) (w : Workspace σ) :
    read cfg mode source w = interpret cfg mode (.ofText cfg.dialect source) w := by
  -- the parser starts in front of the first token, and the first step is to read it
  let start : Parser σ := ⟨⟨none, source.toList⟩, w⟩
  have hwhole : FollowsAt cfg mode start
      (wholeText (SignalCalc.operand cfg.dialect (source.toList.length + 1)))
      (parseAll cfg mode (primary cfg mode (source.toList.length + 1))) :=
    followsAt_wholeText (follows_primary _) rfl
  unfold FollowsAt at hwhole
  rw [show start.cursor.tokens = Tokens.ofText source.toList from rfl] at hwhole
  unfold read interpret Script.ofText
  dsimp only
  rw [bind_apply]
  generalize wholeText (SignalCalc.operand cfg.dialect (source.toList.length + 1))
    (Tokens.ofText source.toList) = step at hwhole ⊢
  change Matches cfg mode start step _ at hwhole
  generalize parseAll cfg mode (primary cfg mode (source.toList.length + 1)) start = out at hwhole
  cases hwhole with
  | @stopped actions result r q hactions =>
    change performAll cfg mode actions w = _ at hactions
    cases result <;> simp only [hactions]
  | refused hactions =>
    change performAll cfg mode _ w = _ at hactions
    simp only [hactions]
    rfl
  | through hactions =>
    change performAll cfg mode _ w = _ at hactions
    simp only [hactions]
    rfl

end Parser

end SignalCalc
