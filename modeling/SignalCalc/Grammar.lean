import SignalCalc.Options
import SignalCalc.Plugin
import SignalCalc.Token.Lexer

namespace SignalCalc

/-- The settings of the language: what the placeholder means and which plugins there are. -/
structure Dialect where
  placeholder : Placeholder := .forbidden
  plugins : Registry := .empty

abbrev Level := Symbol → Option Opcode

/-- The levels of binary operators, from the loosest to the tightest. -/
def levels : List Level :=
  [fun | .pipePipe => some (.logic .or) | _ => none,
    fun | .ampAmp => some (.logic .and) | _ => none,
    fun | .pipe => some (.bits .or) | _ => none,
    fun | .caret => some (.bits .xor) | _ => none,
    fun | .amp => some (.bits .and) | _ => none,
    fun | .equal => some (.logic .eq) | .notEqual => some (.logic .ne) | _ => none,
    fun
      | .less => some (.logic .lt)
      | .lessEqual => some (.logic .le)
      | .greater => some (.logic .gt)
      | .greaterEqual => some (.logic .ge)
      | _ => none,
    fun
      | .shiftLeft => some (.bits .shiftLeft)
      | .shiftRight => some (.bits .shiftRight)
      | _ => none,
    fun | .plus => some (.arithmetic .add) | .minus => some (.arithmetic .sub) | _ => none,
    fun | .star => some (.arithmetic .mul) | .slash => some (.arithmetic .div) | _ => none]

/-- An assignment sign: the operation that combines the old value with the new one, if any. -/
def assignment? : Symbol → Option (Option Opcode)
  | .assign => some none
  | .plusAssign => some (some (.arithmetic .add))
  | .minusAssign => some (some (.arithmetic .sub))
  | .starAssign => some (some (.arithmetic .mul))
  | .slashAssign => some (some (.arithmetic .div))
  | _ => none

/-- A literal with a minus sign in front. An unsigned one has no negative. -/
def negatedLiteral? (v : Value) : Option Value :=
  match v.scalar with
  | .signed i => some ⟨.signed (-i), v.width⟩
  | .real d => some ⟨.real (-d), v.width⟩
  | .unsigned _ => none

def Builtin.instruction (b : Builtin) (count : Nat) : Instruction where
  operation := .builtin b.op
  operand :=
    if b.variadic then .argCount (UInt8.ofNat count)
    else if b.gate = .stateful then .edge none
    else .absent

/-- The parts of a text before and after its last point or at-sign. -/
def splitEnum? : List Char → Option (List Char × List Char)
  | [] => none
  | c :: cs =>
    match splitEnum? cs with
    | some (before, after) => some (c :: before, after)
    | none => if c == '.' || c == '@' then some ([], cs) else none

end SignalCalc
