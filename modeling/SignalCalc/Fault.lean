import SignalCalc.Builtin
import SignalCalc.RunError
import SignalCalc.Text.Blank
import SignalCalc.Token

namespace SignalCalc

def maxNameLength : Nat := 511

inductive TextFault where
  | illegalCharacter (c : Char)
  | malformedNumber (text : List Char)
  | nameTooLong
  | unclosedCall (name : String)
  | unexpected (t : Token)
  | unexpectedComma
  | missingParenthesis
  | missingOperand
  | missingReference
  | placeholderForbidden
  | unknownFunction (name : String)
  | emptyArgument (function : String)
  | missingName (function : String) (args : List Char)
  | missingEnumText (args : List Char)
  | patternInEnvironment (args : List Char)
  | noDereference (name : String)
  | noEnumText (name text : String)
  /-- The text nests deeper than it is long, which no text does. -/
  | tooDeep
deriving Repr

def TextFault.message : TextFault → String
  | .illegalCharacter c => "illegal character '" ++ Text.showChar c ++ "'"
  | .malformedNumber text => "malformed number \"" ++ String.ofList text ++ "\""
  | .nameTooLong => "label size exceeds " ++ toString maxNameLength ++ " chars"
  | .unclosedCall name => "expect a ')' in " ++ name ++ "()"
  | .unexpected t => "unexpected " ++ t.text
  | .unexpectedComma => "unexpected ','"
  | .missingParenthesis => "missing ')'"
  | .missingOperand => "expecting a primary (value, variable, (), or a command)"
  | .missingReference => "expecting a variable name after '*'"
  | .placeholderForbidden => "placeholder '#' not allowed here"
  | .unknownFunction name => "unknown builtin function '" ++ name ++ "'"
  | .emptyArgument function => "empty parameter in " ++ function ++ "()"
  | .missingName function args =>
    "expecting a variable name in " ++ function ++ "(" ++ String.ofList args ++ ")"
  | .missingEnumText args => "expecting \"variable.TEXT\" in enum(" ++ String.ofList args ++ ")"
  | .patternInEnvironment args =>
    "expecting a plain environment variable name in env_exist(" ++ String.ofList args ++ ")"
  | .noDereference name => "no dereference \"*" ++ name ++ "\" allowed"
  | .noEnumText name text => "variable \"" ++ name ++ "\" has no enum \"" ++ text ++ "\""
  | .tooDeep => "nesting too deep"

inductive BindingSide where
  | read
  | write
  | conversion
deriving DecidableEq, Repr

def BindingSide.text : BindingSide → String
  | .read => "cannot read from"
  | .write => "cannot write to"
  | .conversion => "no conversion attached to"

inductive PlaceFault where
  | needsFrame (function : String)
  | notAllowed (function : String)
  | writesReplaced (name : String)
deriving DecidableEq, Repr

def PlaceFault.message : PlaceFault → String
  | .needsFrame function =>
    "builtin function '" ++ function ++ "' only allowed in CAN configuration"
  | .notAllowed function => "function " ++ function ++ "() not allowed in this context"
  | .writesReplaced name => "cannot write to replaced variable \"" ++ name ++ "\""

inductive Refusal where
  | text (fault : TextFault)
  | arity (function : String) (expected : Arity) (got : Nat)
  | binding (side : BindingSide) (name : String)
  | place (fault : PlaceFault)
  | run (error : RunError)
deriving Repr

def Refusal.message : Refusal → String
  | .text fault => "syntax error: " ++ fault.message
  | .arity function expected got =>
    "function \"" ++ function ++ "\" expects " ++ expected.text ++ " parameter(s) but got " ++
      toString got
  | .binding side name => side.text ++ " variable \"" ++ name ++ "\""
  | .place fault => fault.message
  | .run error => "cannot solve equation: " ++ error.message

structure EquationError where
  refusal : Refusal
  equation : String
  warnings : List String

namespace EquationError

def message (e : EquationError) : String :=
  e.refusal.message ++ " in equation \"" ++ e.equation ++ "\""

/-- The warnings and the error, one on a line. -/
def report (e : EquationError) : String := String.intercalate "\n" (e.warnings ++ [e.message])

end EquationError

end SignalCalc
