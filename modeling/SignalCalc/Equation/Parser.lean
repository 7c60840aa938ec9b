import SignalCalc.Equation.Work

/-! # The parser

An equation is read once, from left to right, by recursive descent, and every operand and operator is
worked on as soon as it has been read. The mode is at hand all the time: it decides what becomes of an
instruction, and some functions go separate ways in compiling, evaluating and checking before their
arguments are looked at. What was done before something turns out to be wrong stays done.
-/

namespace SignalCalc

/-- A place in a text: the token at hand, if the text has not ended, and what is behind it. -/
structure Cursor where
  token : Option Token := none
  rest : List Char

structure Parser (σ : Type) where
  cursor : Cursor
  workspace : Workspace σ

abbrev ParserM (σ : Type) := EStateM Refusal (Parser σ)

namespace Parser

variable {σ : Type}

def work {α : Type} (x : WorkM σ α) : ParserM σ α := fun p =>
  match x p.workspace with
  | .ok a w => .ok a { p with workspace := w }
  | .error e w => .error e { p with workspace := w }

def token : ParserM σ (Option Token) := fun p => .ok p.cursor.token p

def rest : ParserM σ (List Char) := fun p => .ok p.cursor.rest p

def advance : ParserM σ Unit := fun p =>
  match Token.next p.cursor.rest with
  | .token t rest => .ok () { p with cursor := ⟨some t, rest⟩ }
  | .stop rest => .ok () { p with cursor := ⟨none, rest⟩ }
  | .fault f => .error (.text f) p

def fail {α : Type} (f : TextFault) : ParserM σ α := throw (.text f)

def notAllowed {α : Type} (function : String) : ParserM σ α := throw (.place (.notAllowed function))

/-- Reads another text and comes back to the place at hand, also when it is refused. -/
def nested (text : List Char) (x : ParserM σ Unit) : ParserM σ Unit := fun p =>
  match x { p with cursor := ⟨none, text⟩ } with
  | .ok a q => .ok a { q with cursor := p.cursor }
  | .error e q => .error e { q with cursor := p.cursor }

variable [VariableStore σ] (cfg : Setting) (mode : Mode)

def emit (i : Instruction) : ParserM σ Unit := work (SignalCalc.emit cfg mode i)

def emitLiteral (v : Value) : ParserM σ Unit := work (SignalCalc.emitLiteral cfg mode v)

def variableOp (op : AccessOp) (name : String) : ParserM σ Unit :=
  work (variableAccess cfg mode op name)

section Expressions

/-! ## Expressions

The operands inside of what is read are read by `operand`. -/

variable (operand : ParserM σ Unit)

/-- Operators of a level with their right operands, as long as there are any. Each takes a character
at least, so that the length of the text serves as fuel. -/
def operators (level : Level) : Nat → ParserM σ Unit
  | 0 => fail .tooDeep
  | fuel + 1 => do
    match ← token with
    | some (.symbol s) =>
      match level s with
      | some op =>
        advance
        operand
        emit cfg mode (.plain op)
        operators level fuel
      | none => return ()
    | _ => return ()

def leftAssociative (level : Level) : ParserM σ Unit := do
  operand
  let text ← rest
  operators cfg mode operand level (text.length + 2)

def ladder : List Level → ParserM σ Unit
  | [] => operand
  | level :: tighter => leftAssociative cfg mode (ladder tighter) level

def expression : ParserM σ Unit := ladder cfg mode operand levels

def parseAll : ParserM σ Unit := do
  advance
  expression cfg mode operand
  match ← token with
  | some t => fail (.unexpected t)
  | none =>
    -- the tokens also end at a comma, which is an error here
    let text ← rest
    if (Text.trim text).isEmpty then return () else fail .unexpectedComma

/-- What follows the sign of an assignment. The assigned value stays on the stack. -/
def assignment (load store : AccessOp) (name : String) (combine : Option Opcode) :
    ParserM σ Unit := do
  advance
  expression cfg mode operand
  match combine with
  | none => variableOp cfg mode store name
  | some op =>
    -- the right-hand side is on the stack already; the old value comes on top and has to go below
    variableOp cfg mode load name
    emit cfg mode (.plain (.stack .swap))
    emit cfg mode (.plain op)
    variableOp cfg mode store name

/-- A variable: a read, or an assignment when its sign follows. -/
def variableUse (load store : AccessOp) (name : String) : ParserM σ Unit := do
  match ← token with
  | some (.symbol s) =>
    match assignment? s with
    | some combine => assignment cfg mode operand load store name combine
    | none => variableOp cfg mode load name
  | _ => variableOp cfg mode load name

end Expressions

/-! ## Calls -/

section Calls

variable (operand : ParserM σ Unit)

def arguments (function : String) : List (List Char) → ParserM σ Unit
  | [] => return ()
  | text :: more => do
    if text.isEmpty then fail (.emptyArgument function)
    else
      nested text (parseAll cfg mode operand)
      arguments function more

def checkArity (function : String) (arity : Arity) (got : Nat) : ParserM σ Unit :=
  if arity.admits got then return () else throw (.arity function arity got)

/-- Functions of the frame need one and are not evaluated at once; functions with a memory need a
program that keeps it. -/
def checkGate (gate : Gate) (name : String) : ParserM σ Unit :=
  match gate with
  | .anywhere => return ()
  | .frame =>
    if mode = .direct || !cfg.options.frameFunctions then throw (.place (.needsFrame name))
    else work (modify fun w => { w with usesFrame := true })
  | .stateful => if mode = .compile then return () else notAllowed name

def variableName (function : String) (args : List Char) : ParserM σ String :=
  let name := Text.trim args
  if isVariableName name then return String.ofList name else fail (.missingName function args)

/-- A call of a function that takes expressions. The tolerance of `equal` is 0 when it is left
out. -/
def fixedBuiltin (b : Builtin) (args : List Char) : ParserM σ Unit := do
  let params := splitArguments args
  checkArity b.name b.arity params.length
  checkGate cfg mode b.gate b.name
  arguments cfg mode operand b.name params
  if b.op = .math .near && params.length = 2 then emitLiteral cfg mode (.ofFloat 0.0)
  -- a check has no frame to look at
  if b.gate = .frame && mode.isCheck then work (stubResult params.length)
  else emit cfg mode (b.instruction params.length)

def plugin (name : String) (args : List Char) : ParserM σ Unit :=
  match cfg.plugins.lookup? name with
  | none => fail (.unknownFunction name)
  | some p => do
    let params := splitArguments args
    checkArity name p.arity params.length
    if p.usesFrame then checkGate cfg mode .frame name
    arguments cfg mode operand name params
    if p.usesFrame && mode.isCheck then work (stubResult params.length)
    else emit cfg mode ⟨.plugin p.id, .absent⟩

/-- The physical value of a variable, or of the one behind a reference. -/
def physical (function : String) (args : List Char) : ParserM σ Unit := do
  match args with
  | '*' :: reference =>
    let name ← work (dereference cfg mode (String.ofList (Text.trim reference)))
    variableUse cfg mode operand .readPhysical .writePhysical name
  | _ =>
    let name ← variableName function args
    variableUse cfg mode operand .readPhysical .writePhysical name

/-- The number behind an enumeration text; a check asks for the variable only. -/
def enumValue (args : List Char) : ParserM σ Unit :=
  match splitEnum? args with
  | none => fail (.missingEnumText args)
  | some (before, after) => do
    let name := String.ofList (Text.trim before)
    if mode.isCheck then variableOp cfg mode .read name
    else
      let v ← work (enumNumber name (String.ofList (Text.trim after)))
      emitLiteral cfg mode v

/-- A question to the host, which is never put while compiling; a check takes 1 for the answer. -/
def query (function : String) (args : List Char) (q : Query) : ParserM σ Unit := do
  if mode = .compile then notAllowed function
  else
    let subject := Text.unquote args
    if q = .environmentSet && subject.contains '%' then fail (.patternInEnvironment args)
    else if mode.isCheck then emitLiteral cfg mode (.ofFloat 1.0)
    else
      let s ← work WorkM.store
      emitLiteral cfg mode
        (.ofFloat (Float.ofNat (answer cfg.host s (String.ofList subject) q)))

def limit (bounded : Bool) (function : String) (params : List (List Char)) :
    ParserM σ (Option Nat) := do
  if bounded then
    arguments cfg mode operand function (params.drop 2)
    let v ← work (WorkM.onStack Stack.pop)
    return some v.toUInt64.toNat
  else return none

/-- A comparison of two texts, which is never compiled; a check takes 1 for the order. -/
def compareStrings (function : String) (args : List Char) (bounded ignoreCase : Bool) :
    ParserM σ Unit := do
  if mode = .compile then notAllowed function
  else
    let params := splitArguments args
    checkArity function (.exactly (if bounded then 3 else 2)) params.length
    let limit ← limit cfg mode operand bounded function params
    if mode.isCheck then emitLiteral cfg mode (.ofFloat 1.0)
    else
      let bytes (i : Nat) : List UInt8 :=
        comparedBytes ignoreCase limit (String.ofList (Text.unquote (params.getD i [])))
      emitLiteral cfg mode (.ofFloat (orderNumber (compareBytes (bytes 0) (bytes 1))))

def rawBits (function : String) (args : List Char) (op : AccessOp) : ParserM σ Unit := do
  let name ← variableName function args
  variableOp cfg mode op name

def setBinary (function : String) (args : List Char) : ParserM σ Unit := do
  let params := splitArguments args
  checkArity function (.exactly 2) params.length
  let name ← variableName function (params.getD 0 [])
  arguments cfg mode operand function (params.drop 1)
  variableOp cfg mode .writeBits name

def special (name : String) (args : List Char) : Special → ParserM σ Unit
  | .physical => physical cfg mode operand name args
  | .enumText => enumValue cfg mode args
  | .query q => query cfg mode name args q
  | .compareText bounded ignoreCase => compareStrings cfg mode operand name args bounded ignoreCase
  | .rawBits .writeBits => setBinary cfg mode operand name args
  | .rawBits op => rawBits cfg mode name args op

def call (name : String) (args : List Char) : ParserM σ Unit :=
  match Builtin.lookup? name with
  | some b => fixedBuiltin cfg mode operand b args
  | none =>
    match Special.lookup? name with
    | some s => special cfg mode operand name args s
    | none => plugin cfg mode operand name args

end Calls

/-! ## Operands -/

section Operands

variable (operand : ParserM σ Unit)

def placeholder : ParserM σ Unit :=
  match cfg.options.placeholder with
  | .forbidden => fail .placeholderForbidden
  | .parameter => emit cfg mode (.plain (.stack .parameter))
  | .value v => emitLiteral cfg mode v
  | .named name => variableUse cfg mode operand .read .write name

/-- What follows a minus sign: a literal takes it in, anything else is negated. -/
def negation : ParserM σ Unit := do
  let literal := match ← token with
    | some (.number v) => negatedLiteral? v
    | _ => none
  match literal with
  | some v =>
    advance
    emitLiteral cfg mode v
  | none =>
    operand
    emit cfg mode (.plain (.arithmetic .neg))

def primaryWith : ParserM σ Unit := do
  match ← token with
  | some (.number v) =>
    advance
    emitLiteral cfg mode v
  | some (.symbol .minus) =>
    advance
    negation cfg mode operand
  | some (.symbol .plus) =>
    advance
    operand
  | some (.symbol .bang) =>
    advance
    operand
    emit cfg mode (.plain (.logic .not))
  | some (.symbol .openParen) =>
    advance
    expression cfg mode operand
    match ← token with
    | some (.symbol .closeParen) => advance
    | _ => fail .missingParenthesis
  | some .placeholder =>
    advance
    placeholder cfg mode operand
  | some (.call name args) =>
    advance
    call cfg mode operand name args
  | some (.symbol .star) =>
    advance
    match ← token with
    | some (.name reference) =>
      let name ← work (dereference cfg mode reference)
      advance
      variableUse cfg mode operand .read .write name
    | _ => fail .missingReference
  | some (.name name) =>
    advance
    variableUse cfg mode operand .read .write name
  | _ => fail .missingOperand

def primary : Nat → ParserM σ Unit
  | 0 => fail .tooDeep
  | depth + 1 => primaryWith cfg mode (primary depth)

end Operands

/-- Reads an equation and works on it. Each nested operand takes a character at least, so that the
length of the text bounds the depth. -/
def read (source : String) : WorkM σ Unit := fun w =>
  let text := source.toList
  match parseAll cfg mode (primary cfg mode (text.length + 1)) ⟨⟨none, text⟩, w⟩ with
  | .ok _ p => .ok () p.workspace
  | .error e p => .error e p.workspace

end Parser

end SignalCalc
