import SignalCalc.Grammar
import SignalCalc.Script

/-! # Reading a script

`Script.ofText` goes through an equation by the descent of the parser, and lists the actions in the
order in which operands and operators are met. Operators associate to the left and bind, from loose
to tight: `||`, `&&`, `|`, `^`, `&`, equality, order, shifts, sums, products.
-/

namespace SignalCalc

/-- What reading a piece of an equation gives: the actions listed so far, and the tokens left or a
fault. -/
structure Step (α : Type) where
  actions : List Action
  result : Except SourceFault (α × Tokens)

def Reading (α : Type) : Type := Tokens → Step α

namespace Reading

def done {α : Type} (a : α) : Reading α := fun ts => ⟨[], .ok (a, ts)⟩

/-- One piece after the other; a fault ends both. -/
def andThen {α β : Type} (r : Reading α) (next : α → Reading β) : Reading β := fun ts =>
  let first := r ts
  match first.result with
  | .error e => ⟨first.actions, .error e⟩
  | .ok (a, rest) =>
    let second := next a rest
    ⟨first.actions ++ second.actions, second.result⟩

theorem andThen_done {α : Type} (r : Reading α) : andThen r done = r := by
  funext ts
  unfold andThen done
  rcases r ts with ⟨actions, _ | ⟨a, rest⟩⟩ <;> simp

theorem done_andThen {α β : Type} (a : α) (next : α → Reading β) :
    andThen (done a) next = next a := by
  funext ts
  simp [andThen, done]

theorem andThen_assoc {α β γ : Type} (r : Reading α) (next : α → Reading β)
    (last : β → Reading γ) :
    andThen (andThen r next) last = andThen r fun a => andThen (next a) last := by
  funext ts
  unfold andThen
  rcases r ts with ⟨actions, _ | ⟨a, rest⟩⟩
  · rfl
  · dsimp only
    rcases next a rest with ⟨more, _ | ⟨b, rest'⟩⟩ <;> simp

instance : Monad Reading where
  pure := done
  bind := andThen

instance : LawfulMonad Reading := .mk' Reading andThen_done done_andThen andThen_assoc

theorem bind_ok {α β : Type} {r : Reading α} {next : α → Reading β} {ts : Tokens} {last : β × Tokens}
    (h : ((r >>= next) ts).result = .ok last) :
    ∃ a rest, (r ts).result = .ok (a, rest) ∧ (next a rest).result = .ok last ∧
      ((r >>= next) ts).actions = (r ts).actions ++ (next a rest).actions := by
  simp only [Bind.bind, andThen] at h ⊢
  cases hfirst : (r ts).result with
  | error e =>
    rw [hfirst] at h
    cases h
  | ok pair =>
    obtain ⟨a, rest⟩ := pair
    rw [hfirst] at h
    exact ⟨a, rest, rfl, h, rfl⟩

def emit (a : Action) : Reading Unit := fun ts => ⟨[a], .ok ((), ts)⟩

def refuse {α : Type} (f : SourceFault) : Reading α := fun _ => ⟨[], .error f⟩

theorem refuse_bind {α β : Type} (f : SourceFault) (next : α → Reading β) :
    refuse f >>= next = refuse f := rfl

def fail {α : Type} (f : TextFault) : Reading α := refuse (.text f)

def current : Reading (Option Token) := fun ts => ⟨[], .ok (ts.tokens.head?, ts)⟩

def remaining : Reading Nat := fun ts => ⟨[], .ok (ts.tokens.length, ts)⟩

def ending : Reading Ending := fun ts => ⟨[], .ok (ts.ending, ts)⟩

/-- Fails when the text after the last token is no token. -/
def settle : Reading Unit := fun ts =>
  match ts.tokens, ts.ending with
  | [], .fault f => ⟨[], .error (.text f)⟩
  | _, _ => ⟨[], .ok ((), ts)⟩

theorem settle_ok {ts rest : Tokens} {a : Unit} (h : (settle ts).result = .ok (a, rest)) :
    rest = ts := by
  unfold settle at h
  split at h
  · cases h
  · cases h
    rfl

def advance : Reading Unit := fun ts => settle { ts with tokens := ts.tokens.tail }

def within (text : List Char) (r : Reading Unit) : Reading Unit := fun ts =>
  let inner := r (Tokens.ofText text)
  ⟨inner.actions, inner.result.map fun _ => ((), ts)⟩

end Reading

open Reading

def operatorAt (level : Level) : Reading (Option Opcode) := do
  match ← current with
  | some (.symbol s) => return level s
  | _ => return none

/-- Operators of a level with their right operands, as long as there are any; the fuel is the number
of tokens. -/
def operators (level : Level) (operand : Reading Unit) : Nat → Reading Unit
  | 0 => fail .tooDeep
  | fuel + 1 => do
    match ← operatorAt level with
    | none => return ()
    | some op =>
      advance
      operand
      emit (.operate op)
      operators level operand fuel

def leftAssociative (level : Level) (operand : Reading Unit) : Reading Unit := do
  operand
  let fuel ← remaining
  operators level operand (fuel + 1)

/-- Operands joined by the operators of some levels, the first level binding loosest. -/
def ladder (operand : Reading Unit) : List Level → Reading Unit
  | [] => operand
  | level :: tighter => leftAssociative level (ladder operand tighter)

def expression (operand : Reading Unit) : Reading Unit := ladder operand levels

def wholeText (operand : Reading Unit) : Reading Unit := do
  settle
  expression operand
  match ← current with
  | some t => fail (.unexpected t)
  | none =>
    match ← ending with
    | .comma => fail .unexpectedComma
    | _ => return ()

/-- A variable: an assignment to it if its sign follows, else a read. The assigned value stays on
the stack. -/
def variableUse (operand : Reading Unit) (target : Target) (load store : AccessOp) :
    Reading Unit := do
  let sign := match ← current with
    | some (.symbol s) => assignment? s
    | _ => none
  match sign with
  | none => emit (.access load target)
  | some combine =>
    advance
    expression operand
    match combine with
    | none => emit (.access store target)
    | some op =>
      emit (.access load target)
      emit (.operate (.stack .swap))
      emit (.operate op)
      emit (.access store target)

def arguments (operand : Reading Unit) (function : String) : List (List Char) → Reading Unit
  | [] => return ()
  | text :: more => do
    if text.isEmpty then fail (.emptyArgument function)
    else
      within text (wholeText operand)
      arguments operand function more

def checkArity (function : String) (arity : Arity) (got : Nat) : Reading Unit :=
  if arity.admits got then return () else refuse (.arity function arity got)

def Gate.demand? : Gate → Option Demand
  | .anywhere => none
  | .frame => some .frame
  | .stateful => some .memory

def demandGate (gate : Gate) (function : String) : Reading Unit :=
  match gate.demand? with
  | some d => emit (.demand d function)
  | none => return ()

/-- A call of a function that takes expressions. The tolerance of `equal` is 0 when it is left
out. -/
def builtinCall (operand : Reading Unit) (b : Builtin) (args : List Char) : Reading Unit := do
  let params := splitArguments args
  checkArity b.name b.arity params.length
  demandGate b.gate b.name
  arguments operand b.name params
  if b.op = .math .near && params.length = 2 then emit (.push (.ofFloat 0.0))
  emit (.invoke (b.instruction params.length) params.length (b.gate = .frame))

def pluginCall (plugins : Registry) (operand : Reading Unit) (name : String) (args : List Char) :
    Reading Unit := do
  match plugins.lookup? name with
  | none => fail (.unknownFunction name)
  | some p =>
    let params := splitArguments args
    checkArity name p.arity params.length
    demandGate (if p.usesFrame then .frame else .anywhere) name
    arguments operand name params
    emit (.invoke ⟨.plugin p.id, .absent⟩ params.length p.usesFrame)

def nameArgument (function : String) (args : List Char) : Reading String :=
  let name := Text.trim args
  if isVariableName name then return String.ofList name else fail (.missingName function args)

def specialCall (operand : Reading Unit) (name : String) (args : List Char) :
    Special → Reading Unit
  | .physical => do
    match args with
    | '*' :: reference =>
      let reference := String.ofList (Text.trim reference)
      emit (.follow reference)
      variableUse operand (.reference reference) .readPhysical .writePhysical
    | _ =>
      let variableName ← nameArgument name args
      variableUse operand (.named variableName) .readPhysical .writePhysical
  | .enumText =>
    match splitEnum? args with
    | some (before, after) =>
      emit (.enumText (String.ofList (Text.trim before)) (String.ofList (Text.trim after)))
    | none => fail (.missingEnumText args)
  | .query q => do
    emit (.demand .immediate name)
    let subject := Text.unquote args
    if q = .environmentSet && subject.contains '%' then fail (.patternInEnvironment args)
    else emit (.query q (String.ofList subject))
  | .compareText bounded ignoreCase => do
    emit (.demand .immediate name)
    let params := splitArguments args
    checkArity name (.exactly (if bounded then 3 else 2)) params.length
    if bounded then arguments operand name (params.drop 2)
    let text (i : Nat) : String := String.ofList (Text.unquote (params.getD i []))
    emit (.compareText bounded ignoreCase (text 0) (text 1))
  | .rawBits .writeBits => do
    let params := splitArguments args
    checkArity name (.exactly 2) params.length
    let variableName ← nameArgument name (params.getD 0 [])
    arguments operand name (params.drop 1)
    emit (.access .writeBits (.named variableName))
  | .rawBits op => do
    let variableName ← nameArgument name args
    emit (.access op (.named variableName))

def call (dialect : Dialect) (operand : Reading Unit) (name : String) (args : List Char) :
    Reading Unit :=
  match Builtin.lookup? name with
  | some b => builtinCall operand b args
  | none =>
    match Special.lookup? name with
    | some s => specialCall operand name args s
    | none => pluginCall dialect.plugins operand name args

def placeholder (operand : Reading Unit) : Placeholder → Reading Unit
  | .forbidden => fail .placeholderForbidden
  | .parameter => emit (.operate (.stack .parameter))
  | .value v => emit (.push v)
  | .named name => variableUse operand (.named name) .read .write

/-- What follows a minus sign: a literal that takes the sign, or an operand that is negated. -/
def negation (operand : Reading Unit) : Reading Unit := do
  let literal := match ← current with
    | some (.number v) => negatedLiteral? v
    | _ => none
  match literal with
  | some v =>
    advance
    emit (.push v)
  | none =>
    operand
    emit (.operate (.arithmetic .neg))

def closing : Reading Unit := do
  match ← current with
  | some (.symbol .closeParen) => advance
  | _ => fail .missingParenthesis

def operandWith (dialect : Dialect) (operand : Reading Unit) : Reading Unit := do
  match ← current with
  | some (.number v) =>
    advance
    emit (.push v)
  | some (.symbol .minus) =>
    advance
    negation operand
  | some (.symbol .plus) =>
    advance
    operand
  | some (.symbol .bang) =>
    advance
    operand
    emit (.operate (.logic .not))
  | some (.symbol .openParen) =>
    advance
    expression operand
    closing
  | some .placeholder =>
    advance
    placeholder operand dialect.placeholder
  | some (.call name args) =>
    advance
    call dialect operand name args
  | some (.symbol .star) =>
    advance
    match ← current with
    | some (.name name) =>
      emit (.follow name)
      advance
      variableUse operand (.reference name) .read .write
    | _ => fail .missingReference
  | some (.name name) =>
    advance
    variableUse operand (.named name) .read .write
  | _ => fail .missingOperand

def operand (dialect : Dialect) : Nat → Reading Unit
  | 0 => fail .tooDeep
  | depth + 1 => operandWith dialect (operand dialect depth)

/-- Reads an equation. Each nested operand takes a character at least, so that the length of the
text bounds the depth. -/
def Script.ofText (dialect : Dialect) (source : String) : Script :=
  let text := source.toList
  let step := wholeText (operand dialect (text.length + 1)) (Tokens.ofText text)
  match step.result with
  | .ok _ => ⟨step.actions, none⟩
  | .error f => ⟨step.actions, some f⟩

end SignalCalc
