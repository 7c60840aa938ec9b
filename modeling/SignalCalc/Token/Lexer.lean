import SignalCalc.Fault
import SignalCalc.Token.Number

/-! # Reading tokens

`Token.next` reads one token off a text, and `Tokens.ofText` all of them. Reading stops at the end,
at a comma, or at something that is no token; the last becomes a fault only if an equation is read
that far.
-/

namespace SignalCalc

def isNameStart (c : Char) : Bool := c.isAlpha || c == '_'

def isNameChar (c : Char) : Bool :=
  c.isAlphanum || c == '_' || c == '[' || c == ']' || c == '.' || c == ':' || c == '\x7b' ||
    c == '\x7d' || c == '@'

/-- Whether a text is a complete variable name. -/
def isVariableName (cs : List Char) : Bool :=
  match cs with
  | [] => false
  | c :: _ => isNameStart c && cs.all isNameChar && cs.length ≤ maxNameLength

/-- The text up to the parenthesis that closes `depth` others and one more, and the text behind. -/
def splitClose? : Nat → List Char → Option (List Char × List Char)
  | _, [] => none
  | depth, c :: cs =>
    if c == '(' then (splitClose? (depth + 1) cs).map fun (inner, rest) => (c :: inner, rest)
    else if c == ')' then
      match depth with
      | 0 => some ([], cs)
      | depth + 1 => (splitClose? depth cs).map fun (inner, rest) => (c :: inner, rest)
    else (splitClose? depth cs).map fun (inner, rest) => (c :: inner, rest)

/-- How many parentheses are open behind a character, closed ones counting against the open ones. It
changes by one at most, so that a counter of 32 bits is enough for texts of fewer than `2 ^ 31`
characters. -/
def openAfter (depth : Int) (c : Char) : Int :=
  if c == '(' then depth + 1 else if c == ')' then depth - 1 else depth

/-- Splits a text at the commas outside of parentheses; the pieces are trimmed. -/
def splitCommas : Int → List Char → List Char → List (List Char)
  | _, piece, [] => [Text.trim piece.reverse]
  | depth, piece, c :: cs =>
    if c == ',' && depth == 0 then Text.trim piece.reverse :: splitCommas depth [] cs
    else splitCommas (openAfter depth c) (c :: piece) cs

/-- The arguments of a call. A blank text has none. -/
def splitArguments (cs : List Char) : List (List Char) :=
  if (Text.trim cs).isEmpty then [] else splitCommas 0 [] cs

inductive Lexeme where
  | token (t : Token) (rest : List Char)
  /-- The end of the text, or a comma, which stays unread. -/
  | stop (rest : List Char)
  | fault (f : TextFault)

/-- The name at the start of a text, or the call when a parenthesis follows. -/
def readName (cs : List Char) : Lexeme :=
  let name := cs.takeWhile isNameChar
  let rest := (cs.dropWhile isNameChar).dropWhile Text.isGap
  if maxNameLength < name.length then .fault .nameTooLong
  else
    match rest with
    | '(' :: inner =>
      match splitClose? 0 inner with
      | some (args, rest) => .token (.call (String.ofList name) (Text.trim args)) rest
      | none => .fault (.unclosedCall (String.ofList name))
    | _ => .token (.name (String.ofList name)) rest

def Token.next (cs : List Char) : Lexeme :=
  match cs.dropWhile Text.isGap with
  | [] => .stop []
  | c :: rest =>
    if c == ',' then .stop (c :: rest)
    else if c == '#' || c == '$' then .token .placeholder rest
    else if c.isDigit || c == '.' then
      match Numeral.read (c :: rest) with
      | .value v rest => .token (.number v) rest
      | .malformed text => .fault (.malformedNumber text)
    else if isNameStart c then readName (c :: rest)
    else
      match Symbol.read? (c :: rest) with
      | some (s, rest) => .token (.symbol s) rest
      | none => .fault (.illegalCharacter c)

/-- How a text ends after its last token. -/
inductive Ending where
  | done
  | comma
  | fault (f : TextFault)
deriving Repr

/-- The tokens of a text and how it ends. -/
structure Tokens where
  tokens : List Token
  ending : Ending
deriving Repr

namespace Tokens

/-- Reads at most `fuel` tokens. -/
def scan : Nat → List Char → Tokens
  | 0, _ => ⟨[], .done⟩
  | fuel + 1, cs =>
    match Token.next cs with
    | .token t rest =>
      let more := scan fuel rest
      { more with tokens := t :: more.tokens }
    | .stop rest => ⟨[], if rest.isEmpty then .done else .comma⟩
    | .fault f => ⟨[], .fault f⟩

/-- Every token of a text. Each takes a character at least, so that there are no more tokens than
characters. -/
def ofText (cs : List Char) : Tokens := scan (cs.length + 1) cs

end Tokens

end SignalCalc
