import SignalCalc.Double.Text

/-! # Values

Every number that flows through an equation is a `Value`: a signed, unsigned or double `Scalar`
together with the byte width it was declared or computed with. Conversions between the three
domains go through the views of this module and never reinterpret the bits of a double.
-/

namespace SignalCalc

inductive Scalar where
  | signed (v : Int64)
  | unsigned (v : UInt64)
  | real (v : Float)
deriving Repr, Inhabited

/-- The domain of a value. -/
inductive Domain where
  | signed
  | unsigned
  | real
deriving DecidableEq, Repr

def Domain.code : Domain → Nat
  | .signed => 0
  | .unsigned => 1
  | .real => 2

structure Value where
  scalar : Scalar
  width : UInt8
deriving Repr

/-- Mask of the low `width` bytes. From eight bytes on it is all ones. -/
def widthMask (width : UInt8) : UInt64 :=
  if 8 ≤ width.toNat then 0xFFFFFFFFFFFFFFFF else UInt64.ofNat (Nat.pow 2 (8 * width.toNat) - 1)

namespace Value

/-- A signed value of eight bytes. -/
def ofInt64 (v : Int64) : Value := ⟨.signed v, 8⟩

def ofUInt64 (v : UInt64) : Value := ⟨.unsigned v, 8⟩

/-- A double. -/
def ofFloat (v : Float) : Value := ⟨.real v, 8⟩

/-- The truth values are the unsigned 0 and 1. -/
def ofBool (b : Bool) : Value := ofUInt64 (if b then 1 else 0)

/-- The value of what was never written. -/
instance : Inhabited Value := ⟨ofFloat 0.0⟩

def domain (v : Value) : Domain :=
  match v.scalar with
  | .signed _ => .signed
  | .unsigned _ => .unsigned
  | .real _ => .real

/-- Whether the value is a double. -/
def isReal (v : Value) : Bool :=
  match v.scalar with
  | .real _ => true
  | _ => false

def integer? (v : Value) : Option Int :=
  match v.scalar with
  | .signed i => some i.toInt
  | .unsigned n => some n.toNat
  | .real _ => none

/-- The nearest double. -/
def toFloat (v : Value) : Float :=
  match v.scalar with
  | .signed i => i.toFloat
  | .unsigned n => n.toFloat
  | .real d => d

/-- Signed view: unsigned values keep their bits, doubles are rounded with halves away from zero and
limited to the range. -/
def toInt64 (v : Value) : Int64 :=
  match v.scalar with
  | .signed i => i
  | .unsigned n => n.toInt64
  | .real d => (Double.roundHalfAway d).toInt64

/-- Unsigned view: signed values keep their bits, doubles are rounded by adding one half, negative
ones become 0. -/
def toUInt64 (v : Value) : UInt64 :=
  match v.scalar with
  | .signed i => i.toUInt64
  | .unsigned n => n
  | .real d => (d + 0.5).toUInt64

/-- Truth: a number counts once it rounds to something other than zero. -/
def isTrue (v : Value) : Bool :=
  match v.scalar with
  | .signed i => i != 0
  | .unsigned n => n != 0
  | .real d => d + 0.5 >= 1.0 || d - 0.5 <= -1.0

/-- A signed number brought into `[lo, hi]`. -/
def clampInt64 (lo hi i : Int64) : Int64 :=
  if i < lo then lo else if hi < i then hi else i

/-- Signed view limited to `[lo, hi]`. An unsigned number is held against the upper limit as an
unsigned word. -/
def clampSigned (v : Value) (lo hi : Int64) : Int64 :=
  match v.scalar with
  | .signed i => clampInt64 lo hi i
  | .unsigned n => if hi.toUInt64 < n then hi else max n.toInt64 lo
  | .real d =>
    let limited := Double.clamp lo.toFloat hi.toFloat d
    clampInt64 lo hi (Double.roundHalfAway limited).toInt64

/-- Unsigned view limited to `[0, hi]`. -/
def clampUnsigned (v : Value) (hi : UInt64) : UInt64 :=
  match v.scalar with
  | .signed i => if i < 0 then 0 else min i.toUInt64 hi
  | .unsigned n => min n hi
  | .real d => min (Double.clamp 0.0 hi.toFloat d + 0.5).toUInt64 hi

def mask (v : Value) : UInt64 := widthMask v.width

/-- Decimal text of an integer. -/
def integerText (i : Int) : String :=
  match i with
  | .ofNat n => String.ofList (Double.digitsOf n)
  | .negSucc n => String.ofList ('-' :: Double.digitsOf (n + 1))

/-- Text of a value: an integer with its domain and bit count, or the digits of a double. -/
def text (v : Value) : String :=
  let bits := integerText (v.width.toNat * 8)
  match v.scalar with
  | .signed i => integerText i.toInt ++ "i" ++ bits
  | .unsigned n => integerText n.toNat ++ "u" ++ bits
  | .real d => Double.text .plain d

end Value

end SignalCalc
