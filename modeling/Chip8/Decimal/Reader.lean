import Chip8.Text.Numeral

/-!
# Reading decimal numbers

A number is written with an optional sign and either one of the words `inf`, `infinity` and
`nan`, in any case, or decimal digits with an optional point among or beside them and an optional
exponent after `e` or `E`. At least one digit stands before the exponent, and at least one in it.
The value is the float nearest to what is written.
-/

namespace Chip8.Decimal

open Text

/-- A decimal as it is written: its digits as one number, and the power of ten to multiply by. -/
structure Literal where
  digits : Nat
  exponent : Int
  deriving DecidableEq, Repr

/-- The leading digits of a text, and the rest. -/
def spanDigits (cs : List Char) : List Char × List Char := cs.span fun c => (digit? c).isSome

/-- What follows the digits: nothing, or an exponent behind its mark. -/
def scale? : List Char → Option Int
  | [] => some 0
  | c :: cs => if c = 'e' ∨ c = 'E' then signed? cs else none

/-- Digits, an optional point, more digits, an optional exponent. -/
def literal? (cs : List Char) : Option Literal :=
  let (whole, rest) := spanDigits cs
  let (part, rest) :=
    match rest with
    | '.' :: rest => spanDigits rest
    | rest => ([], rest)
  match digits? (whole ++ part), scale? rest with
  | some digits, some e => some ⟨digits, e - part.length⟩
  | _, _ => none

/-- The number of decimal digits of a number. -/
def digitCount (n : Nat) : Nat := (toString n).length

/-- The float nearest to a decimal. Beyond 310 digits before the point it is infinite, and
with its first digit more than 330 places behind the point it is zero. -/
def Literal.toFloat (l : Literal) : Float :=
  let top := l.exponent + digitCount l.digits
  if l.digits = 0 ∨ top < -330 then 0.0
  else if 310 < top then 1.0 / 0.0
  else Float.ofScientific l.digits (l.exponent < 0) l.exponent.natAbs

/-- A number without a sign. -/
def unsigned? (cs : List Char) : Option Float :=
  let lower := String.ofList (cs.map Char.toLower)
  if lower = "inf" ∨ lower = "infinity" then some (1.0 / 0.0)
  else if lower = "nan" then some (0.0 / 0.0)
  else (literal? cs).map Literal.toFloat

/-- The number that a text stands for. -/
def read? (s : String) : Option Float :=
  match s.toList with
  | '+' :: cs => unsigned? cs
  | '-' :: cs => (unsigned? cs).map fun x => -x
  | cs => unsigned? cs

end Chip8.Decimal
