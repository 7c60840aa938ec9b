import SignalCalc.Token

/-! # Numbers in equations

An integer is written in decimal, in octal after a leading `0`, or in hexadecimal after `0x`, and
may carry its domain and bit count, as in `255u8`. A point or an exponent after the digits makes the
whole text a decimal double.
-/

namespace SignalCalc.Numeral

/-- The value of a digit in a base. -/
def digit? (base : Nat) (c : Char) : Option Nat :=
  let value :=
    if '0' ≤ c && c ≤ '9' then some (c.toNat - '0'.toNat)
    else if 'a' ≤ c && c ≤ 'z' then some (c.toNat - 'a'.toNat + 10)
    else if 'A' ≤ c && c ≤ 'Z' then some (c.toNat - 'A'.toNat + 10)
    else none
  value.filter (· < base)

def isDigit (base : Nat) (c : Char) : Bool := (digit? base c).isSome

/-- The number that digits stand for. -/
def valueOf (base : Nat) (digits : List Char) : Nat :=
  digits.foldl (fun n c => n * base + (digit? base c).getD 0) 0

def wordMax : Nat := 0xFFFFFFFFFFFFFFFF

/-- The base of the integer at the start of a text, and how many characters announce it. -/
def base : List Char → Nat × Nat
  | '0' :: x :: d :: _ =>
    if (x == 'x' || x == 'X') && isDigit 16 d then (16, 2) else (8, 1)
  | '0' :: _ => (8, 1)
  | _ => (10, 0)

/-- The digits of the integer at the start of a text. -/
def integerDigits (cs : List Char) : List Char :=
  (cs.drop (base cs).2).takeWhile (isDigit (base cs).1)

/-- The product of two words, if it is a word. -/
def product? (a b : UInt64) : Option UInt64 :=
  if a.toNat * b.toNat ≤ wordMax then some (a * b) else none

def sum? (a b : UInt64) : Option UInt64 :=
  if a.toNat + b.toNat ≤ wordMax then some (a + b) else none

/-- An integer while its digits are read. -/
structure Accumulator where
  word : UInt64 := 0
  /-- Some digit did not fit, and the word counts no longer. -/
  saturated : Bool := false

/-- Appends a digit. One that does not fit leaves the word as it is. -/
def Accumulator.append (base : Nat) (acc : Accumulator) (c : Char) : Accumulator :=
  let digit := UInt64.ofNat ((digit? base c).getD 0)
  match (product? acc.word (UInt64.ofNat base)).bind fun shifted => sum? shifted digit with
  | some word => { acc with word := word }
  | none => { acc with saturated := true }

/-- The integer that was read, or the largest word if it did not fit. -/
def Accumulator.value (acc : Accumulator) : Nat :=
  if acc.saturated then wordMax else acc.word.toNat

/-- The integer at the start of a text, no larger than the largest word, and its length. -/
def integer (cs : List Char) : Nat × Nat :=
  let digits := integerDigits cs
  ((digits.foldl (Accumulator.append (base cs).1) {}).value, (base cs).2 + digits.length)

def digitCount (cs : List Char) : Nat := (cs.takeWhile (isDigit 10)).length

/-- How many characters of the exponent that follows a mantissa belong to the number: none unless
there are digits in it. -/
def exponentLength : List Char → Nat
  | c :: cs =>
    if c == 'e' || c == 'E' then
      let sign := match cs with
        | '+' :: _ | '-' :: _ => 1
        | _ => 0
      let digits := digitCount (cs.drop sign)
      if digits = 0 then 0 else 1 + sign + digits
    else 0
  | [] => 0

/-- How many characters of a mantissa follow the whole part: the point and the digits behind it. -/
def fractionLength : List Char → Nat
  | '.' :: cs => 1 + digitCount cs
  | _ => 0

/-- How many characters at the start of a text form a decimal double. -/
def doubleLength (cs : List Char) : Nat :=
  let whole := digitCount cs
  let mantissa := whole + fractionLength (cs.drop whole)
  mantissa + exponentLength (cs.drop mantissa)

def exponentOf : List Char → Int
  | _ :: '-' :: digits => -(valueOf 10 digits : Int)
  | _ :: '+' :: digits => valueOf 10 digits
  | _ :: digits => valueOf 10 digits
  | [] => 0

/-- The double that a decimal text stands for. A text without a digit in its mantissa is none. -/
def double? (text : List Char) : Option Float :=
  let whole := text.takeWhile (isDigit 10)
  let afterWhole := text.drop whole.length
  let fraction := (afterWhole.take (fractionLength afterWhole)).drop 1
  let exponent := exponentOf (afterWhole.drop (fractionLength afterWhole))
  if whole.isEmpty && fraction.isEmpty then none
  else some (Double.ofDecimal (valueOf 10 (whole ++ fraction)) (exponent - fraction.length))

/-- Domain and width that stand behind an integer. -/
structure Suffix where
  signed : Bool
  width : UInt8
  /-- How many characters it takes. -/
  length : Nat
deriving DecidableEq, Repr

/-- The width that a bit count announces, and the length of the count. -/
def bitCount? : List Char → Option (UInt8 × Nat)
  | '8' :: _ => some (1, 1)
  | '1' :: '6' :: _ => some (2, 2)
  | '3' :: '2' :: _ => some (4, 2)
  | '6' :: '4' :: _ => some (8, 2)
  | _ => none

/-- The suffix at the start of a text: `i`, `u` or `ui` and a bit count. -/
def suffix? (cs : List Char) : Option Suffix :=
  let marked : Option (Bool × Nat) := match cs with
    | 'u' :: 'i' :: _ => some (false, 2)
    | 'u' :: _ => some (false, 1)
    | 'i' :: _ => some (true, 1)
    | _ => none
  marked.bind fun (signed, mark) =>
    (bitCount? (cs.drop mark)).map fun (width, digits) => ⟨signed, width, mark + digits⟩

/-- The value of an integer without a suffix: signed in four or eight bytes, unsigned beyond. -/
def plainValue (n : Nat) : Value :=
  if n ≤ 0x7FFFFFFF then ⟨.signed (Int64.ofNat n), 4⟩
  else if n ≤ 0x7FFFFFFFFFFFFFFF then .ofInt64 (Int64.ofNat n)
  else .ofUInt64 (UInt64.ofNat n)

/-- What stands at the start of a text that begins like a number. -/
inductive Reading where
  | value (v : Value) (rest : List Char)
  /-- A text that begins like a double and is none. -/
  | malformed (text : List Char)

/-- The number at the start of a text. A point or exponent mark after the integer means that the
text is read again as a double, which must be at least as long. -/
def read (cs : List Char) : Reading :=
  let (n, length) := integer cs
  let rest := cs.drop length
  let isDouble := match rest with
    | c :: _ => c == '.' || c == 'e' || c == 'E'
    | [] => false
  if isDouble then
    let extent := doubleLength cs
    match double? (cs.take extent) with
    | some d =>
      if length ≤ extent then .value (.ofFloat d) (cs.drop extent)
      else .malformed (cs.take (max (max length extent) 1))
    | none => .malformed (cs.take (max (max length extent) 1))
  else
    match suffix? rest with
    | some s =>
      let word := UInt64.ofNat n
      let scalar := if s.signed then .signed word.toInt64 else .unsigned word
      .value ⟨scalar, s.width⟩ (rest.drop s.length)
    | none => .value (plainValue n) rest

end SignalCalc.Numeral
