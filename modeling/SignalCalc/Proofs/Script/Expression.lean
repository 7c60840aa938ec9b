import SignalCalc.Proofs.Token.Words
import SignalCalc.Script.Reading

/-! # Expressions

Expressions as trees, how they are written, and the code that they stand for. An expression is
written with one space between words and with no more parentheses than it needs: they stand around
an operand that binds looser than its place, and around an assignment inside of an expression.

* `Expr` — the trees; names, functions and numbers of arguments carry the proof that they are valid.
* `Expr.text` — the written form.
* `Expr.code` — the instructions in post-order.
* `Expr.actions`, `Expr.tokens` — the same in the steps between text and code.
* `Expr.spelled` — the written form has the tokens of the tree.
-/

namespace SignalCalc

structure Name where
  chars : List Char
  valid : isVariableName chars = true

def Name.text (x : Name) : String := String.ofList x.chars

/-- A built-in function that takes expressions and may be called anywhere. -/
structure FreeFunction where
  builtin : Builtin
  listed : builtin ∈ Builtin.table
  anywhere : builtin.gate = .anywhere

inductive UnaryOp where
  | plus
  | minus
  | not
deriving DecidableEq, Repr

def UnaryOp.symbol : UnaryOp → Symbol
  | .plus => .plus
  | .minus => .minus
  | .not => .bang

inductive BinaryOp where
  | or
  | and
  | bitOr
  | bitXor
  | bitAnd
  | equal
  | notEqual
  | less
  | lessEqual
  | greater
  | greaterEqual
  | shiftLeft
  | shiftRight
  | add
  | sub
  | mul
  | div
deriving DecidableEq, Repr

namespace BinaryOp

def symbol : BinaryOp → Symbol
  | .or => .pipePipe
  | .and => .ampAmp
  | .bitOr => .pipe
  | .bitXor => .caret
  | .bitAnd => .amp
  | .equal => .equal
  | .notEqual => .notEqual
  | .less => .less
  | .lessEqual => .lessEqual
  | .greater => .greater
  | .greaterEqual => .greaterEqual
  | .shiftLeft => .shiftLeft
  | .shiftRight => .shiftRight
  | .add => .plus
  | .sub => .minus
  | .mul => .star
  | .div => .slash

/-- How tightly an operator binds, from 1 to 10. -/
def level : BinaryOp → Nat
  | .or => 1
  | .and => 2
  | .bitOr => 3
  | .bitXor => 4
  | .bitAnd => 5
  | .equal | .notEqual => 6
  | .less | .lessEqual | .greater | .greaterEqual => 7
  | .shiftLeft | .shiftRight => 8
  | .add | .sub => 9
  | .mul | .div => 10

def opcode : BinaryOp → Opcode
  | .or => .logic .or
  | .and => .logic .and
  | .bitOr => .bits .or
  | .bitXor => .bits .xor
  | .bitAnd => .bits .and
  | .equal => .logic .eq
  | .notEqual => .logic .ne
  | .less => .logic .lt
  | .lessEqual => .logic .le
  | .greater => .logic .gt
  | .greaterEqual => .logic .ge
  | .shiftLeft => .bits .shiftLeft
  | .shiftRight => .bits .shiftRight
  | .add => .arithmetic .add
  | .sub => .arithmetic .sub
  | .mul => .arithmetic .mul
  | .div => .arithmetic .div

end BinaryOp

inductive AssignOp where
  | set
  | add
  | sub
  | mul
  | div
deriving DecidableEq, Repr

namespace AssignOp

def symbol : AssignOp → Symbol
  | .set => .assign
  | .add => .plusAssign
  | .sub => .minusAssign
  | .mul => .starAssign
  | .div => .slashAssign

def combine? : AssignOp → Option Opcode
  | .set => none
  | .add => some (.arithmetic .add)
  | .sub => some (.arithmetic .sub)
  | .mul => some (.arithmetic .mul)
  | .div => some (.arithmetic .div)

end AssignOp

/-- Expressions. A call has one of the numbers of arguments that its function accepts. -/
inductive Expr where
  | literal (n : UInt64)
  | name (x : Name)
  | unary (op : UnaryOp) (e : Expr)
  | binary (op : BinaryOp) (left right : Expr)
  | call (f : FreeFunction) {n : Nat} (h : f.builtin.arity.admits n = true) (args : Fin n → Expr)
  | assign (sign : AssignOp) (x : Name) (e : Expr)

namespace Expr

/-! ## Text -/

def level : Expr → Nat
  | .assign .. => 0
  | .binary op .. => op.level
  | _ => 11

/-- Parentheses around the text of an expression, if it binds looser than its place. -/
def enclose (place : Nat) (e : Expr) (text : List Char) : List Char :=
  if e.level < place then '(' :: ' ' :: (text ++ [' ', ')']) else text

/-- The characters of an expression that stands by itself. The left operand may bind as loosely as
its operator, the right one has to bind tighter. -/
def chars : Expr → List Char
  | .literal n => Nat.toDigits 10 n.toNat
  | .name x => x.chars
  | .unary op e => op.symbol.spelling ++ ' ' :: enclose 11 e e.chars
  | .binary op l r =>
    enclose op.level l l.chars ++
      ' ' :: (op.symbol.spelling ++ ' ' :: enclose (op.level + 1) r r.chars)
  | .call f _ args =>
    f.builtin.name.toList ++
      ' ' :: '(' :: ' ' :: (argumentText (List.ofFn fun i => (args i).chars) ++ [' ', ')'])
  | .assign sign x e => x.chars ++ ' ' :: (sign.symbol.spelling ++ ' ' :: e.chars)

def text (e : Expr) : String := String.ofList e.chars

/-! ## Code -/

def names : Expr → List String
  | .literal _ => []
  | .name x => [x.text]
  | .unary _ e => e.names
  | .binary _ l r => l.names ++ r.names
  | .call _ _ args => (List.ofFn fun i => (args i).names).flatten
  | .assign _ x e => e.names ++ [x.text]

/-- The value of a number with a minus sign in front, if the number has one: the sign belongs to the
literal then. -/
def negated? : Expr → Option Value
  | .literal n => negatedLiteral? (Numeral.plainValue n.toNat)
  | _ => none

/-- The instructions of an expression in post-order, with the variable of each name: operands from
left to right, then the operation. A plus sign does nothing; the tolerance of `equal` is 0 when it is
left out; a compound assignment reads the old value after the new one was computed. -/
def code (ids : String → VarId) : Expr → List Instruction
  | .literal n => [.literal (Numeral.plainValue n.toNat)]
  | .name x => [.access .read (ids x.text)]
  | .unary .plus e => e.code ids
  | .unary .minus e =>
    match e.negated? with
    | some v => [.literal v]
    | none => e.code ids ++ [.plain (.arithmetic .neg)]
  | .unary .not e => e.code ids ++ [.plain (.logic .not)]
  | .binary op l r => l.code ids ++ r.code ids ++ [.plain op.opcode]
  | @Expr.call f n _ args =>
    (List.ofFn fun i => (args i).code ids).flatten ++
      (if f.builtin.op = .math .near ∧ n = 2 then [.literal (.ofFloat 0.0)] else []) ++
      [f.builtin.instruction n]
  | .assign sign x e =>
    e.code ids ++
      (match sign.combine? with
        | none => []
        | some op => [.access .read (ids x.text), .plain (.stack .swap), .plain op]) ++
      [.access .write (ids x.text)]

/-! ## Tokens and actions -/

def encloseTokens (place : Nat) (e : Expr) (ts : List Token) : List Token :=
  if e.level < place then .symbol .openParen :: (ts ++ [.symbol .closeParen]) else ts

def tokens : Expr → List Token
  | .literal n => [.number (Numeral.plainValue n.toNat)]
  | .name x => [.name x.text]
  | .unary op e => .symbol op.symbol :: encloseTokens 11 e e.tokens
  | .binary op l r =>
    encloseTokens op.level l l.tokens ++
      .symbol op.symbol :: encloseTokens (op.level + 1) r r.tokens
  | .call f _ args => [.call f.builtin.name (argumentText (List.ofFn fun i => (args i).chars))]
  | .assign sign x e => .name x.text :: .symbol sign.symbol :: e.tokens

def actions : Expr → List Action
  | .literal n => [.push (Numeral.plainValue n.toNat)]
  | .name x => [.access .read (.named x.text)]
  | .unary .plus e => e.actions
  | .unary .minus e =>
    match e.negated? with
    | some v => [.push v]
    | none => e.actions ++ [.operate (.arithmetic .neg)]
  | .unary .not e => e.actions ++ [.operate (.logic .not)]
  | .binary op l r => l.actions ++ r.actions ++ [.operate op.opcode]
  | @Expr.call f n _ args =>
    (List.ofFn fun i => (args i).actions).flatten ++
      (if f.builtin.op = .math .near ∧ n = 2 then [.push (.ofFloat 0.0)] else []) ++
      [.invoke (f.builtin.instruction n) n false]
  | .assign sign x e =>
    e.actions ++
      (match sign.combine? with
        | none => []
        | some op =>
          [.access .read (.named x.text), .operate (.stack .swap), .operate op]) ++
      [.access .write (.named x.text)]

end Expr

/-! ## Spelled forms have the tokens of their trees -/

theorem Builtin.isVariableName_name :
    ∀ b ∈ Builtin.table, isVariableName b.name.toList = true := by
  decide +kernel

theorem Builtin.lookup?_name : ∀ b ∈ Builtin.table, Builtin.lookup? b.name = some b := by
  decide +kernel

/-- Every function that may be called anywhere takes an argument. -/
theorem Builtin.accepts_zero :
    ∀ b ∈ Builtin.table, b.gate = .anywhere → b.arity.accepts 0 = false := by
  decide +kernel

theorem FreeFunction.count_ne_zero (f : FreeFunction) {n : Nat}
    (h : f.builtin.arity.admits n = true) : n ≠ 0 := by
  rintro rfl
  simp [Arity.admits, Builtin.accepts_zero f.builtin f.listed f.anywhere] at h

theorem UnaryOp.isOperator_symbol (op : UnaryOp) : op.symbol.isOperator = true := by
  cases op <;> rfl

theorem BinaryOp.isOperator_symbol (op : BinaryOp) : op.symbol.isOperator = true := by
  cases op <;> rfl

theorem AssignOp.isOperator_symbol (sign : AssignOp) : sign.symbol.isOperator = true := by
  cases sign <;> rfl

namespace Expr

theorem spelled_enclose {e : Expr} (h : Spelled e.chars e.tokens) (place : Nat) :
    Spelled (enclose place e e.chars) (encloseTokens place e e.tokens) := by
  by_cases hlevel : e.level < place
  · simpa [enclose, encloseTokens, hlevel] using h.paren
  · simpa [enclose, encloseTokens, hlevel] using h

theorem arguments_of_spelled {n : Nat} (hn : n ≠ 0) {args : Fin n → Expr}
    (h : ∀ i, Spelled (args i).chars (args i).tokens) :
    Arguments (List.ofFn fun i => (args i).chars) := by
  refine ⟨by simp [hn], ?_⟩
  intro text htext
  obtain ⟨i, rfl⟩ := List.mem_ofFn.mp htext
  exact ⟨_, h i⟩

theorem spelled (e : Expr) : Spelled e.chars e.tokens := by
  induction e with
  | literal n =>
    apply spelled_number
    have hword := n.toNat_lt
    simp only [Numeral.wordMax]
    omega
  | name x => exact spelled_name x.valid
  | unary op e ih => exact (spelled_enclose ih 11).after op.isOperator_symbol
  | binary op l r ihl ihr =>
    exact (spelled_enclose ihl op.level).join op.isOperator_symbol
      (spelled_enclose ihr (op.level + 1))
  | call f h args ih =>
    have hcall := spelled_call (Builtin.isVariableName_name _ f.listed)
      (arguments_of_spelled (f.count_ne_zero h) ih)
    rw [String.ofList_toList] at hcall
    exact hcall
  | assign sign x e ih => exact (spelled_name x.valid).join sign.isOperator_symbol ih

end Expr

end SignalCalc
