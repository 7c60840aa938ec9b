namespace SignalCalc.Double

/-- A finite double is `± mantissa * 2 ^ exponent`. -/
structure Parts where
  negative : Bool
  mantissa : Nat
  exponent : Int
deriving DecidableEq, Repr

def minExponent : Int := -1074

/-- The mantissa bit that normal doubles do not store. -/
def leadingBit : Nat := 0x10000000000000

def signBit : Nat := 0x8000000000000000

def parts (d : Float) : Option Parts :=
  let bits : Nat := d.toBits.toNat
  let field : Nat := bits / leadingBit % 2048
  let fraction : Nat := bits % leadingBit
  let negative : Bool := signBit ≤ bits
  if field = 2047 then none
  else if field = 0 then some ⟨negative, fraction, minExponent⟩
  else some ⟨negative, fraction + leadingBit, (field : Int) - 1075⟩

/-- Moves a mantissa of at most 53 significant bits to the place where the format keeps it: 53 bits
long, or as long as the smallest exponent allows. -/
def align (mantissa : Nat) (exponent : Int) : Nat × Int :=
  let top := mantissa.log2
  if 52 < top then (mantissa >>> (top - 52), exponent + (top - 52 : Nat))
  else
    let room := min (52 - top) (exponent - minExponent).toNat
    (mantissa <<< room, exponent - room)

/-- The double `± mantissa * 2 ^ exponent`, for a mantissa of at most 53 significant bits and an
exponent in range. -/
def compose (negative : Bool) (mantissa : Nat) (exponent : Int) : Float :=
  let sign := if negative then signBit else 0
  if mantissa = 0 then Float.ofBits (UInt64.ofNat sign)
  else
    let (m, e) := align mantissa exponent
    Float.ofBits (UInt64.ofNat (sign + (e - minExponent).toNat * leadingBit + m))

def notANumber : Float := Float.ofBits 0x7FF8000000000000

def largest : Float := Float.ofBits 0x7FEFFFFFFFFFFFFF

/-- The remainder of `a` by `b`, exact and with the sign of `a`. There is none for an infinite
dividend, a zero divisor or a not-a-number; an infinite divisor leaves the dividend as it is. -/
def remainder (a b : Float) : Float :=
  match parts a, parts b with
  | some x, some y =>
    if y.mantissa = 0 then notANumber
    else
      let e := min x.exponent y.exponent
      let dividend := x.mantissa <<< (x.exponent - e).toNat
      let divisor := y.mantissa <<< (y.exponent - e).toNat
      compose x.negative (dividend % divisor) e
  | some _, none => if b.isNaN then notANumber else a
  | none, _ => notANumber

/-- Rounds to a whole number, halves away from zero. -/
def roundHalfAway (d : Float) : Float :=
  if d >= 0.0 then (d + 0.5).floor else (d - 0.5).ceil

/-- Brings a double into `[lo, hi]`; a not-a-number stays one. -/
def clamp (lo hi d : Float) : Float :=
  if d < lo then lo else if hi < d then hi else d

def toSingle (d : Float) : Float := d.toFloat32.toFloat

end SignalCalc.Double
