import SignalCalc.Json
import SignalCalc.Token.Number

namespace SignalCalc.Json

structure Number where
  negative : Bool
  whole : List Char
  fraction : Option (List Char)
  exponent : Option Int
deriving DecidableEq, Repr

namespace Number

def digits (cs : List Char) : List Char × List Char := cs.span (Numeral.isDigit 10)

def someDigits? (cs : List Char) : Option (List Char × List Char) :=
  let (ds, rest) := digits cs
  if ds.isEmpty then none else some (ds, rest)

/-- The whole part: one or more digits, of which only a single one may start with zero. -/
def whole? (cs : List Char) : Option (List Char × List Char) :=
  match someDigits? cs with
  | some ('0' :: _ :: _, _) => none
  | other => other

def fraction? : List Char → Option (Option (List Char) × List Char)
  | '.' :: cs => (someDigits? cs).map fun (ds, rest) => (some ds, rest)
  | cs => some (none, cs)

def exponent? : List Char → Option (Option Int × List Char)
  | c :: cs =>
    if c = 'e' ∨ c = 'E' then
      let (negative, cs) := match cs with
        | '-' :: cs => (true, cs)
        | '+' :: cs => (false, cs)
        | cs => (false, cs)
      (someDigits? cs).map fun (ds, rest) =>
        let n : Int := Numeral.valueOf 10 ds
        (some (if negative then -n else n), rest)
    else some (none, c :: cs)
  | [] => some (none, [])

def read? (cs : List Char) : Option (Number × List Char) := do
  let (negative, cs) := match cs with
    | '-' :: cs => (true, cs)
    | cs => (false, cs)
  let (whole, cs) ← whole? cs
  let (fraction, cs) ← fraction? cs
  let (exponent, cs) ← exponent? cs
  return (⟨negative, whole, fraction, exponent⟩, cs)

/-- Appends digits to a significand as long as it fits a word; says how many were appended. -/
def gather (significand count : Nat) : List Char → Nat × Nat
  | [] => (significand, count)
  | c :: cs =>
    let next := significand * 10 + (Numeral.digit? 10 c).getD 0
    if next ≤ Numeral.wordMax then gather next (count + 1) cs else (significand, count)

def power (n : Nat) : Float := Float.ofScientific 1 false n

def greatestPower : Nat := 308

/-- A double times a power of ten, in steps that are doubles themselves. There is no result beyond
the largest double. -/
def scale? (d : Float) (exponent : Int) : Option Float :=
  if exponent < -greatestPower then
    if d == 0.0 then some d else scale? (d / power greatestPower) (exponent + greatestPower)
  else if exponent < 0 then some (d / power exponent.natAbs)
  else if exponent ≤ greatestPower then
    let scaled := d * power exponent.natAbs
    if scaled.isInf then none else some scaled
  else if d == 0.0 then some d
  else none
termination_by (-exponent).toNat
decreasing_by
  simp only [greatestPower] at *
  omega

/-- The double that a number stands for. Digits that do not fit the significand any more count as
zeros before the point, and not at all behind it. -/
def double? (n : Number) : Option Float :=
  let (significand, wholeCount) := gather 0 0 n.whole
  let (significand, fractionCount) := gather significand 0 (n.fraction.getD [])
  let exponent : Int := n.exponent.getD 0 + (n.whole.length - wholeCount : Nat) - fractionCount
  (scale? (UInt64.ofNat significand).toFloat exponent).map fun d => if n.negative then -d else d

/-- The whole number that a number stands for, if it is written as one and fits a word. A zero with
a sign is none. -/
def integer? (n : Number) : Option Int :=
  let size := Numeral.valueOf 10 n.whole
  if n.fraction.isSome || n.exponent.isSome then none
  else if n.negative then if 0 < size && size ≤ 0x8000000000000000 then some (-size) else none
  else if size ≤ Numeral.wordMax then some size
  else none

def meaning (n : Number) : Json :=
  match n.integer? with
  | some i => .integer i
  | none =>
    match n.double? with
    | some d => .real d
    | none => .meaningless

end Number

end SignalCalc.Json
