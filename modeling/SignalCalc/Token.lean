import SignalCalc.Value

namespace SignalCalc

inductive Symbol where
  | plus
  | minus
  | star
  | slash
  | openParen
  | closeParen
  | assign
  | plusAssign
  | minusAssign
  | starAssign
  | slashAssign
  | equal
  | notEqual
  | less
  | lessEqual
  | greater
  | greaterEqual
  | shiftLeft
  | shiftRight
  | amp
  | ampAmp
  | pipe
  | pipePipe
  | caret
  | bang
deriving DecidableEq, Repr

namespace Symbol

def spelling : Symbol → List Char
  | .plus => ['+']
  | .minus => ['-']
  | .star => ['*']
  | .slash => ['/']
  | .openParen => ['(']
  | .closeParen => [')']
  | .assign => ['=']
  | .plusAssign => ['+', '=']
  | .minusAssign => ['-', '=']
  | .starAssign => ['*', '=']
  | .slashAssign => ['/', '=']
  | .equal => ['=', '=']
  | .notEqual => ['!', '=']
  | .less => ['<']
  | .lessEqual => ['<', '=']
  | .greater => ['>']
  | .greaterEqual => ['>', '=']
  | .shiftLeft => ['<', '<']
  | .shiftRight => ['>', '>']
  | .amp => ['&']
  | .ampAmp => ['&', '&']
  | .pipe => ['|']
  | .pipePipe => ['|', '|']
  | .caret => ['^']
  | .bang => ['!']

def doubles : List Symbol :=
  [.plusAssign, .minusAssign, .starAssign, .slashAssign, .equal, .notEqual, .lessEqual,
    .greaterEqual, .shiftLeft, .shiftRight, .ampAmp, .pipePipe]

def singles : List Symbol :=
  [.plus, .minus, .star, .slash, .openParen, .closeParen, .assign, .less, .greater, .amp, .pipe,
    .caret, .bang]

/-- The symbol at the start of a text, the longer one if two fit, and the text after it. -/
def read? (cs : List Char) : Option (Symbol × List Char) :=
  match doubles.find? fun s => s.spelling.isPrefixOf cs with
  | some s => some (s, cs.drop 2)
  | none => (singles.find? fun s => s.spelling.isPrefixOf cs).map fun s => (s, cs.drop 1)

end Symbol

inductive Token where
  | symbol (s : Symbol)
  | number (v : Value)
  | name (n : String)
  /-- A call with the trimmed text between its parentheses. -/
  | call (name : String) (args : List Char)
  /-- The sign that the options give a meaning. -/
  | placeholder
deriving Repr

def Token.text : Token → String
  | .symbol s => "'" ++ String.ofList s.spelling ++ "'"
  | .number v => "number " ++ Double.text .plain v.toFloat
  | .name n => "'" ++ n ++ "'"
  | .call n _ => "'" ++ n ++ "()'"
  | .placeholder => "'#'"

end SignalCalc
