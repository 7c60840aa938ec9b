import SignalCalc.Double.Shortest

namespace SignalCalc.Double

structure DecimalStyle where
  wholeSuffix : String
  /-- Whether a number whose point stands this many places after its first digit's left is written
  out; other numbers get an exponent. -/
  positional : Int → Bool
  exponentPlus : String
  tie : Tie

/-- Every number is written out, whole ones without a point. -/
def DecimalStyle.plain : DecimalStyle := ⟨"", fun _ => true, "", .larger⟩

/-- Numbers from `1e-5` to below `1e16` are written out, whole ones with `.0`; exponents have a
sign. -/
def DecimalStyle.exchange : DecimalStyle :=
  ⟨".0", fun point => -5 < point && point ≤ 16, "+", .even⟩

def digitsOf (n : Nat) : List Char := Nat.toDigits 10 n

def Decimal.text (style : DecimalStyle) (d : Decimal) : String :=
  let ds := digitsOf d.digits
  let point := (ds.length : Int) + d.exponent
  let zeros (n : Int) : List Char := List.replicate n.toNat '0'
  if style.positional point then
    if 0 ≤ d.exponent then String.ofList (ds ++ zeros d.exponent) ++ style.wholeSuffix
    else if 0 < point then
      String.ofList (ds.take point.toNat ++ '.' :: ds.drop point.toNat)
    else String.ofList ('0' :: '.' :: zeros (-point) ++ ds)
  else
    let mark := String.ofList (ds.take 1 ++ (if ds.length = 1 then [] else '.' :: ds.drop 1))
    let power := point - 1
    let sign := if power < 0 then "-" else style.exponentPlus
    mark ++ "e" ++ sign ++ String.ofList (digitsOf power.natAbs)

def text (style : DecimalStyle) (d : Float) : String :=
  match parts d with
  | none => if d.isNaN then "NaN" else if d < 0.0 then "-inf" else "inf"
  | some p =>
    let sign := if p.negative then "-" else ""
    let body :=
      if p.mantissa = 0 then "0" ++ style.wholeSuffix
      else (shortest style.tie p.mantissa p.exponent).text style
    sign ++ body

/-- The double nearest to `digits * 10 ^ exponent`. Far outside the range of doubles the answer is
infinity or zero without computing the power. -/
def ofDecimal (digits : Nat) (exponent : Int) : Float :=
  let lead := (digitsOf digits).length + exponent
  if digits = 0 then 0.0
  else if 400 < lead then Float.ofBits 0x7FF0000000000000
  else if lead < -400 then 0.0
  else Float.ofScientific digits (exponent < 0) exponent.natAbs

end SignalCalc.Double
