import SignalCalc.Double.Exact

/-! # The shortest decimal of a double

A double is printed with the fewest significant digits that read back as the same double, and among
those with the nearest ones. The reals that round to a double form an interval around it; the digits
are searched on coarser to finer decimal grids until a grid point lies in that interval.
-/

namespace SignalCalc.Double

/-- The number `digits * 10 ^ exponent`. -/
structure Decimal where
  digits : Nat
  exponent : Int
deriving DecidableEq, Repr, Inhabited

structure Ratio where
  num : Nat
  den : Nat
deriving DecidableEq, Repr

namespace Ratio

def ofBinary (n : Nat) (e : Int) : Ratio :=
  if 0 ≤ e then ⟨n * Nat.pow 2 e.toNat, 1⟩ else ⟨n, Nat.pow 2 (-e).toNat⟩

def ofDecimal (n : Nat) (e : Int) : Ratio :=
  if 0 ≤ e then ⟨n * Nat.pow 10 e.toNat, 1⟩ else ⟨n, Nat.pow 10 (-e).toNat⟩

def le (a b : Ratio) : Bool := a.num * b.den ≤ b.num * a.den

def lt (a b : Ratio) : Bool := a.num * b.den < b.num * a.den

def floorDiv (a : Ratio) (e : Int) : Nat :=
  if 0 ≤ e then a.num / (a.den * Nat.pow 10 e.toNat) else a.num * Nat.pow 10 (-e).toNat / a.den

end Ratio

/-- The reals that round to a positive double. -/
structure Interval where
  low : Ratio
  value : Ratio
  high : Ratio
  /-- The ends round to the double themselves, which they do when its mantissa is even. -/
  closed : Bool

namespace Interval

/-- The interval of `m * 2 ^ q`: half a step to either side, and a quarter downwards where the step
below is half as long. -/
def around (m : Nat) (q : Int) : Interval where
  low := Ratio.ofBinary (if m = leadingBit ∧ minExponent < q then 4 * m - 1 else 4 * m - 2) (q - 2)
  value := Ratio.ofBinary m q
  high := Ratio.ofBinary (4 * m + 2) (q - 2)
  closed := m % 2 = 0

def holds (i : Interval) (x : Ratio) : Bool :=
  if i.closed then i.low.le x && x.le i.high else i.low.lt x && x.lt i.high

end Interval

/-- The power of ten of the leading digit of `m * 2 ^ q`. The binary length gives it up to one. -/
def leadingPower (m : Nat) (q : Int) : Int :=
  let guess := ((m.log2 : Int) + q) * 30103 / 100000
  let v := Ratio.ofBinary m q
  let fits (k : Int) : Bool := (Ratio.ofDecimal 1 k).le v
  if fits (guess + 2) then guess + 2
  else if fits (guess + 1) then guess + 1
  else if fits guess then guess
  else guess - 1

/-- Which of two decimals is taken when the value lies halfway between them. -/
inductive Tie where
  | larger
  | even
deriving DecidableEq, Repr

/-- The neighbour of a value among `below` and the next whole number, which enclose it; `middle` is
halfway between them. -/
def Tie.nearer (tie : Tie) (below : Nat) (value middle : Ratio) : Nat :=
  if value.lt middle then below
  else if middle.lt value then below + 1
  else if tie = .even && below % 2 = 0 then below
  else below + 1

/-- The grid point next to the value among the multiples of `10 ^ e`, if one lies in the interval;
of two, the nearer one. -/
def onGrid? (tie : Tie) (i : Interval) (e : Int) : Option Decimal :=
  let below := i.value.floorDiv e
  let above := below + 1
  let lowHit := i.holds (Ratio.ofDecimal below e)
  let highHit := i.holds (Ratio.ofDecimal above e)
  let middle := Ratio.ofDecimal (below * 10 + 5) (e - 1)
  if lowHit && highHit then some ⟨tie.nearer below i.value middle, e⟩
  else if lowHit then some ⟨below, e⟩
  else if highHit then some ⟨above, e⟩
  else none

/-- Removes trailing zeros; the fuel is the number of digits. -/
def trimZeros : Nat → Decimal → Decimal
  | 0, d => d
  | fuel + 1, d =>
    if d.digits ≠ 0 ∧ d.digits % 10 = 0 then trimZeros fuel ⟨d.digits / 10, d.exponent + 1⟩ else d

/-- The shortest decimal that rounds to `m * 2 ^ q`, for a positive `m`. Seventeen digits always
suffice. -/
def shortest (tie : Tie) (m : Nat) (q : Int) : Decimal :=
  let i := Interval.around m q
  let lead := leadingPower m q
  let found := (List.range 17).findSome? fun (n : Nat) => onGrid? tie i (lead - n)
  trimZeros 20 (found.getD ⟨m, 0⟩)

end SignalCalc.Double
