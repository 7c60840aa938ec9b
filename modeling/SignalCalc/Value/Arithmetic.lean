import SignalCalc.Value

/-! # Arithmetic on values

Two integers are combined in words of 128 bits and the result is limited to the range that a value
can hold: negative results are signed, all others unsigned. As soon as one operand is a double, the
operation runs on doubles. Divisions by zero have fixed answers.
-/

namespace SignalCalc.Value

/-- The value nearest to an exact integer: signed when negative, else unsigned, eight bytes. -/
def ofInt (i : Int) : Value :=
  if i < 0 then ofInt64 (Int64.ofInt (max i (-0x8000000000000000)))
  else ofUInt64 (UInt64.ofNat (min i 0xFFFFFFFFFFFFFFFF).toNat)

/-- The exact integers of two values, when neither is a double. -/
def exactPair? (a b : Value) : Option (Int × Int) :=
  match a.integer?, b.integer? with
  | some x, some y => some (x, y)
  | _, _ => none

/-- The signed words in which integers are combined. -/
abbrev Wide := BitVec 128

/-- The words of two values, when neither is a double. -/
def widePair? (a b : Value) : Option (Wide × Wide) :=
  (exactPair? a b).map fun (x, y) => (.ofInt 128 x, .ofInt 128 y)

/-- Sum. -/
def add (a b : Value) : Value :=
  match widePair? a b with
  | some (x, y) => ofInt (x + y).toInt
  | none => ofFloat (a.toFloat + b.toFloat)

/-- Difference. -/
def sub (a b : Value) : Value :=
  match widePair? a b with
  | some (x, y) => ofInt (x - y).toInt
  | none => ofFloat (a.toFloat - b.toFloat)

/-- Product. One that is too large even for a word of 128 bits is decided by the signs. -/
def mul (a b : Value) : Value :=
  match widePair? a b with
  | some (x, y) =>
    if x.smulOverflow y then
      if x.msb != y.msb then ofInt64 Int64.minValue else ofUInt64 0xFFFFFFFFFFFFFFFF
    else ofInt (x * y).toInt
  | none => ofFloat (a.toFloat * b.toFloat)

/-- Quotient of doubles. Division by zero gives the largest double with the sign of the dividend,
and 1 when the dividend has no sign. -/
def divideReal (a b : Float) : Float :=
  if b != 0.0 then a / b
  else if a > 0.0 then Double.largest
  else if a < 0.0 then -Double.largest
  else 1.0

/-- Quotient, toward zero for integers. An integer divided by zero is the largest unsigned word. -/
def div (a b : Value) : Value :=
  match widePair? a b with
  | some (x, y) => if y = 0 then ofUInt64 0xFFFFFFFFFFFFFFFF else ofInt (x.sdiv y).toInt
  | none => ofFloat (divideReal a.toFloat b.toFloat)

/-- Remainder with the sign of the dividend. An integer modulo zero is 0; doubles follow the
division by zero. -/
def mod (a b : Value) : Value :=
  match widePair? a b with
  | some (x, y) => if y = 0 then ofUInt64 0 else ofInt (x.srem y).toInt
  | none =>
    let (x, y) := (a.toFloat, b.toFloat)
    ofFloat (if y == 0.0 then divideReal x y else Double.remainder x y)

/-- Negation; an integer is negated as a signed word. -/
def neg (a : Value) : Value :=
  match a.scalar with
  | .signed i => ofInt64 (-i)
  | .unsigned n => ofInt64 (-n.toInt64)
  | .real d => ofFloat (-d)

/-- Two doubles are the same number when their difference is zero. -/
def sameReal (a b : Float) : Bool :=
  let d := a - b
  d <= 0.0 && d >= 0.0

/-- Equality of numbers, whatever their domains. -/
def same (a b : Value) : Bool :=
  match exactPair? a b with
  | some (x, y) => x == y
  | none => sameReal a.toFloat b.toFloat

/-- Order of two numbers, `none` when a not-a-number is among them. -/
def order? (a b : Value) : Option Ordering :=
  match exactPair? a b with
  | some (x, y) => some (compare x y)
  | none =>
    let (x, y) := (a.toFloat, b.toFloat)
    if x < y then some .lt else if x == y then some .eq else if y < x then some .gt else none

/-- Absolute value in the operand's own domain and width. -/
def abs (a : Value) : Value :=
  match a.scalar with
  | .signed i => ⟨.signed (if i < 0 then -i else i), a.width⟩
  | .unsigned n => ⟨.unsigned n, a.width⟩
  | .real d => ⟨.real d.abs, a.width⟩

/-- The smaller of two values. Integers keep their form; of two equal ones the second is taken. -/
def minimum (a b : Value) : Value :=
  if a.isReal || b.isReal then
    let (x, y) := (a.toFloat, b.toFloat)
    ofFloat (if y < x then y else x)
  else if order? a b = some .lt then a else b

/-- The larger of two values. Integers keep their form; of two equal ones the second is taken. -/
def maximum (a b : Value) : Value :=
  if a.isReal || b.isReal then
    let (x, y) := (a.toFloat, b.toFloat)
    ofFloat (if y > x then y else x)
  else if order? a b = some .gt then a else b

/-- `lo` once `x` exceeds `hi`, else `x`. -/
def wrapAbove (lo hi x : Value) : Value :=
  let above :=
    if hi.isReal || x.isReal then decide (x.toFloat > hi.toFloat) else order? x hi == some .gt
  if above then lo else x

/-- `hi` once `x` drops below `lo`, else `x`. Doubles are compared when `x` or `hi` is one. -/
def wrapBelow (lo hi x : Value) : Value :=
  let below :=
    if hi.isReal || x.isReal then decide (x.toFloat < lo.toFloat) else order? x lo == some .lt
  if below then hi else x

/-- Equality up to a tolerance. -/
def near (a b tolerance : Value) : Bool :=
  (a.toFloat - b.toFloat).abs <= tolerance.toFloat.abs

end SignalCalc.Value
