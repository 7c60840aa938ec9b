/-! # Blanks

Two notions of a blank: the five ASCII blanks that may stand between the tokens of an equation, and
the wider white space of Unicode that is trimmed from the ends of argument texts.
-/

namespace SignalCalc.Text

/-- Space, tab, line feed, form feed and carriage return. -/
def isGap (c : Char) : Bool :=
  c == ' ' || c == '\t' || c == '\n' || c == '\x0c' || c == '\r'

/-- The ranges of code points that Unicode calls white space. -/
def whiteSpace : List (Nat × Nat) :=
  [(0x09, 0x0D), (0x20, 0x20), (0x85, 0x85), (0xA0, 0xA0), (0x1680, 0x1680), (0x2000, 0x200A),
    (0x2028, 0x2029), (0x202F, 0x202F), (0x205F, 0x205F), (0x3000, 0x3000)]

def isBlank (c : Char) : Bool :=
  whiteSpace.any fun (first, last) => first ≤ c.toNat && c.toNat ≤ last

def trim (cs : List Char) : List Char :=
  ((cs.dropWhile isBlank).reverse.dropWhile isBlank).reverse

/-- The trimmed text without a pair of quotes around it. -/
def unquote (cs : List Char) : List Char :=
  let cs := trim cs
  match cs with
  | '"' :: rest => if rest.getLast? = some '"' then rest.dropLast else cs
  | _ => cs

def hexDigits (n : Nat) : List Char := Nat.toDigits 16 n

/-- A character as messages show it: printable ASCII as it is, quotes and backslash behind a
backslash, and all else by its name or code point. -/
def showChar (c : Char) : String :=
  if c == '\t' then "\\t"
  else if c == '\r' then "\\r"
  else if c == '\n' then "\\n"
  else if c.toNat == 39 || c == '"' || c == '\\' then String.ofList ['\\', c]
  else if 0x20 ≤ c.toNat && c.toNat ≤ 0x7E then String.ofList [c]
  else "\\u\x7b" ++ String.ofList (hexDigits c.toNat) ++ "\x7d"

end SignalCalc.Text
