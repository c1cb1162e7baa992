import Chip8.Decimal.Shortest

/-!
# Decimal notation

A float is written with its shortest digits and a point only where digits follow it, never with
an exponent: `400`, `200.5`.
-/

namespace Chip8.Decimal

/-- A decimal with all its digits in place. -/
def Shortest.text (d : Shortest) : String :=
  let digits := (toString d.digits).toList
  if 0 ≤ d.exponent then String.ofList (digits ++ List.replicate d.exponent.toNat '0')
  else
    let places := (-d.exponent).toNat
    let padded := List.replicate (places + 1 - digits.length) '0' ++ digits
    let whole := padded.length - places
    String.ofList (padded.take whole ++ '.' :: padded.drop whole)

/-- A float without its sign. -/
def magnitude (x : Float) : String :=
  if x.isInf then "inf"
  else
    let b := Binary.ofBits x.toBits
    if b.mantissa = 0 then "0" else b.shortest.text

/-- A float. Zero keeps its sign. -/
def text (x : Float) : String :=
  if x.isNaN then "NaN" else if x.toBits >>> 63 = 0 then magnitude x else "-" ++ magnitude x

end Chip8.Decimal
