/-!
# Reading whole numbers

A number is written with decimal digits, at least one, after an optional sign. `natural?` takes
a plus sign only, `integer?` takes either sign, so that a zero behind a minus sign is zero to it
and nothing to `natural?`.
-/

namespace Chip8.Text

def digit? (c : Char) : Option Nat :=
  if '0' ≤ c ∧ c ≤ '9' then some (c.toNat - 48) else none

/-- The value of a list of digits behind those read so far. -/
def digitsFrom? (acc : Nat) : List Char → Option Nat
  | [] => some acc
  | c :: cs =>
    match digit? c with
    | some d => digitsFrom? (10 * acc + d) cs
    | none => none

/-- The value of a non-empty list of digits. -/
def digits? : List Char → Option Nat
  | [] => none
  | cs => digitsFrom? 0 cs

/-- A list of characters without one leading plus sign. -/
def dropPlus : List Char → List Char
  | '+' :: cs => cs
  | cs => cs

/-- The natural number that a text stands for. -/
def natural? (s : String) : Option Nat := digits? (dropPlus s.toList)

/-- The value of digits behind an optional sign. -/
def signed? : List Char → Option Int
  | '+' :: cs => (digits? cs).map Int.ofNat
  | '-' :: cs => (digits? cs).map fun n => -Int.ofNat n
  | cs => (digits? cs).map Int.ofNat

def integer? (s : String) : Option Int := signed? s.toList

/-- A number as an element of the range below `bound`. -/
def below? (bound n : Nat) : Option (Fin bound) :=
  if h : n < bound then some ⟨n, h⟩ else none

end Chip8.Text
