import SignalCalc.Value

namespace SignalCalc

inductive Json where
  | null
  | bool (b : Bool)
  /-- A whole number that fits a signed or an unsigned word. -/
  | integer (i : Int)
  | real (d : Float)
  | text (s : String)
  | array (items : List Json)
  /-- Members in the order of the text; a name may appear more than once. -/
  | object (members : List (String × Json))
  /-- Well-formed text that means nothing: a number out of range, or half of a surrogate pair. -/
  | meaningless
deriving Repr, Inhabited

namespace Json

/-! ## Writing -/

/-- A character inside quotes. Quotes, backslashes and control characters are escaped. -/
def escape (c : Char) : List Char :=
  if c = '"' then ['\\', '"']
  else if c = '\\' then ['\\', '\\']
  else if c = '\n' then ['\\', 'n']
  else if c = '\r' then ['\\', 'r']
  else if c = '\t' then ['\\', 't']
  else if c = '\x08' then ['\\', 'b']
  else if c = '\x0c' then ['\\', 'f']
  else if c.toNat < 32 then
    ['\\', 'u', '0', '0', Nat.digitChar (c.toNat / 16), Nat.digitChar (c.toNat % 16)]
  else [c]

def quoted (s : String) : List Char := '"' :: s.toList.flatMap escape ++ ['"']

/-- Text of a double. There is none for infinities and what is not a number. -/
def realText (d : Float) : List Char :=
  if d.isFinite then (Double.text .exchange d).toList else "null".toList

mutual

def chars : Json → List Char
  | null => "null".toList
  | bool b => if b then "true".toList else "false".toList
  | integer i => (Value.integerText i).toList
  | real d => realText d
  | text s => quoted s
  | array [] => ['[', ']']
  | array (item :: items) => '[' :: chars item ++ itemChars items
  | object [] => ['\x7b', '\x7d']
  | object ((name, j) :: members) => '\x7b' :: quoted name ++ ':' :: chars j ++ memberChars members
  | meaningless => "null".toList

/-- The characters of the items after the first, up to the end of the array. -/
def itemChars : List Json → List Char
  | [] => [']']
  | item :: items => ',' :: chars item ++ itemChars items

/-- The characters of the members after the first, up to the end of the object. -/
def memberChars : List (String × Json) → List Char
  | [] => ['\x7d']
  | (name, j) :: members => ',' :: quoted name ++ ':' :: chars j ++ memberChars members

end

def render (j : Json) : String := String.ofList j.chars

/-! ## Contents -/

def bool? : Json → Option Bool
  | bool b => some b
  | _ => none

def text? : Json → Option String
  | text s => some s
  | _ => none

def integerIn? (lo hi : Int) : Json → Option Int
  | integer i => if lo ≤ i ∧ i ≤ hi then some i else none
  | _ => none

def real? : Json → Option Float
  | integer i => some (if i < 0 then (Int64.ofInt i).toFloat else (UInt64.ofNat i.toNat).toFloat)
  | real d => some d
  | _ => none

/-- Something that `null` leaves out. -/
def optional? {α : Type} (read : Json → Option α) : Json → Option (Option α)
  | null => some none
  | j => (read j).map some

/-- The only member of a name, `some none` if there is no such member. -/
def member? (members : List (String × Json)) (name : String) : Option (Option Json) :=
  match members.filter (·.1 = name) with
  | [] => some none
  | [(_, j)] => some (some j)
  | _ => none

/-- The fields of a record with the given names. A record is an object, in which other names do not
matter and none of these is repeated, or an array of the fields in order. -/
def fields? (names : List String) : Json → Option (List (Option Json))
  | object members => names.mapM (member? members)
  | array items =>
    if items.length ≤ names.length then
      some (items.map some ++ List.replicate (names.length - items.length) none)
    else none
  | _ => none

/-- Tag and contents of a tagged value: an object with one member, or a text without contents. -/
def variant? : Json → Option (String × Json)
  | text tag => some (tag, null)
  | object [(tag, j)] => some (tag, j)
  | _ => none

end Json

end SignalCalc
