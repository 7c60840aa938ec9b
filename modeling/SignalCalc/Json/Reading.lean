import SignalCalc.Json.Number

/-! # Reading JSON

`Json.ofText?` reads one value with blanks around it. The reader follows the grammar strictly; what
is grammatical and has no meaning becomes `Json.meaningless`, so that it does no harm where nobody
looks at it.

* `Json.string?` — a quoted text, as pieces.
* `Json.join?` — the characters that the pieces stand for.
* `Json.value?` — the value at the start of a text.
-/

namespace SignalCalc.Json

def skip (cs : List Char) : List Char :=
  cs.dropWhile fun c => c = ' ' ∨ c = '\n' ∨ c = '\t' ∨ c = '\r'

/-! ## Quoted text -/

/-- A piece of a quoted text: a character, or a 16-bit unit given by its number. -/
inductive Piece where
  | char (c : Char)
  | unit (n : Nat)
deriving DecidableEq, Repr

def escaped? : Char → Option Char
  | '"' => some '"'
  | '\\' => some '\\'
  | '/' => some '/'
  | 'b' => some '\x08'
  | 'f' => some '\x0c'
  | 'n' => some '\n'
  | 'r' => some '\r'
  | 't' => some '\t'
  | _ => none

def unit? (digits : List Char) : Option Nat :=
  if digits.all (Numeral.isDigit 16) then some (Numeral.valueOf 16 digits) else none

/-- The pieces up to the closing quote, and the rest behind it. -/
def string? : List Char → Option (List Piece × List Char)
  | [] => none
  | '"' :: cs => some ([], cs)
  | '\\' :: 'u' :: a :: b :: c :: d :: cs =>
    (unit? [a, b, c, d]).bind fun n => (string? cs).map fun (ps, rest) => (.unit n :: ps, rest)
  | '\\' :: c :: cs =>
    (escaped? c).bind fun e => (string? cs).map fun (ps, rest) => (.char e :: ps, rest)
  | c :: cs =>
    if c.toNat < 32 ∨ c = '\\' then none
    else (string? cs).map fun (ps, rest) => (.char c :: ps, rest)

def isHigh (n : Nat) : Bool := 0xD800 ≤ n && n < 0xDC00

def isLow (n : Nat) : Bool := 0xDC00 ≤ n && n < 0xE000

/-- The characters of pieces. Halves of a pair have a meaning only together. -/
def join? : List Piece → Option (List Char)
  | [] => some []
  | .char c :: ps => (join? ps).map (c :: ·)
  | .unit n :: .unit m :: ps =>
    if isHigh n && isLow m then
      (join? ps).map (Char.ofNat (0x10000 + (n - 0xD800) * 0x400 + (m - 0xDC00)) :: ·)
    else if isHigh n || isLow n then none
    else (join? (.unit m :: ps)).map (Char.ofNat n :: ·)
  | .unit n :: ps =>
    if isHigh n || isLow n then none else (join? ps).map (Char.ofNat n :: ·)

def textOf? (ps : List Piece) : Option String := (join? ps).map String.ofList

/-! ## Values -/

def named? : List (List Piece × Json) → Option (List (String × Json))
  | [] => some []
  | (name, j) :: members =>
    (textOf? name).bind fun name => (named? members).map ((name, j) :: ·)

/-- An object. A name without a meaning takes the meaning from all of it. -/
def objectOf (members : List (List Piece × Json)) : Json :=
  match named? members with
  | some members => .object members
  | none => .meaningless

mutual

/-- The value at the start of a text, and the rest. The fuel is at least the length of the text. -/
def value? : Nat → List Char → Option (Json × List Char)
  | 0, _ => none
  | fuel + 1, cs =>
    match skip cs with
    | 'n' :: 'u' :: 'l' :: 'l' :: cs => some (.null, cs)
    | 't' :: 'r' :: 'u' :: 'e' :: cs => some (.bool true, cs)
    | 'f' :: 'a' :: 'l' :: 's' :: 'e' :: cs => some (.bool false, cs)
    | '"' :: cs =>
      (string? cs).map fun (ps, rest) => (((textOf? ps).map text).getD .meaningless, rest)
    | '[' :: cs =>
      match skip cs with
      | ']' :: cs => some (.array [], cs)
      | cs => (items? fuel cs).map fun (items, rest) => (.array items, rest)
    | '\x7b' :: cs =>
      match skip cs with
      | '\x7d' :: cs => some (objectOf [], cs)
      | cs => (members? fuel cs).map fun (members, rest) => (objectOf members, rest)
    | cs => (Number.read? cs).map fun (n, rest) => (n.meaning, rest)

def items? : Nat → List Char → Option (List Json × List Char)
  | 0, _ => none
  | fuel + 1, cs =>
    match value? fuel cs with
    | none => none
    | some (item, cs) =>
      match skip cs with
      | ']' :: cs => some ([item], cs)
      | ',' :: cs => (items? fuel cs).map fun (items, rest) => (item :: items, rest)
      | _ => none

def members? : Nat → List Char → Option (List (List Piece × Json) × List Char)
  | 0, _ => none
  | fuel + 1, cs =>
    match skip cs with
    | '"' :: cs =>
      match string? cs with
      | none => none
      | some (name, cs) =>
        match skip cs with
        | ':' :: cs =>
          match value? fuel cs with
          | none => none
          | some (j, cs) =>
            match skip cs with
            | '\x7d' :: cs => some ([(name, j)], cs)
            | ',' :: cs =>
              (members? fuel cs).map fun (members, rest) => ((name, j) :: members, rest)
            | _ => none
        | _ => none
    | _ => none

end

def ofText? (s : String) : Option Json :=
  match value? (s.toList.length + 1) s.toList with
  | some (j, rest) => if (skip rest).isEmpty then some j else none
  | none => none

end SignalCalc.Json
