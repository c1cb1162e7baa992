/-!
# Shortest decimals

A finite float stands for every real that rounds to it, an interval around its own value. Of the
decimals in that interval the shortest is the one on the coarsest grid of powers of ten, and of
two such the nearer to the value; where both are equally near, the greater one. `Binary.shortest`
finds it with exact arithmetic on natural numbers.
-/

namespace Chip8.Decimal

/-- A finite positive float: `mantissa` times two to the power `exponent`. -/
structure Binary where
  mantissa : Nat
  exponent : Int
  /-- The next float below is only half as far away as the next one above. -/
  narrowBelow : Bool

/-- The leading bit of a mantissa of full length, which a float does not store. -/
def hiddenBit : Nat := 0x10000000000000

/-- The value of the bits of a finite float, without its sign. -/
def Binary.ofBits (bits : UInt64) : Binary :=
  let biased := bits.toNat / hiddenBit % 2048
  let fraction := bits.toNat % hiddenBit
  if biased = 0 then ⟨fraction, -1074, false⟩
  else ⟨hiddenBit + fraction, (biased : Int) - 1075, fraction = 0 ∧ 1 < biased⟩

/-- A decimal: `digits` times ten to the power `exponent`. -/
structure Shortest where
  digits : Nat
  exponent : Int
  deriving DecidableEq, Repr

/-- A value between the ends of its interval, as multiples of `1 / unit` of the step of a grid. -/
structure Scaled where
  low : Nat
  value : Nat
  high : Nat
  unit : Nat
  /-- Both ends belong to the interval. -/
  closed : Bool

/-- The interval of a float on the grid of the multiples of ten to the power `g`. -/
def Binary.scaled (b : Binary) (g : Int) : Scaled :=
  let weight := Nat.pow 2 (b.exponent - 2).toNat * Nat.pow 10 (-g).toNat
  { low := (4 * b.mantissa - (if b.narrowBelow then 1 else 2)) * weight
    value := 4 * b.mantissa * weight
    high := (4 * b.mantissa + 2) * weight
    unit := Nat.pow 2 (2 - b.exponent).toNat * Nat.pow 10 g.toNat
    closed := b.mantissa % 2 = 0 }

namespace Scaled

/-- Whether a multiple of the step lies in the interval. -/
def holds (s : Scaled) (digits : Nat) : Bool :=
  let p := digits * s.unit
  if s.closed then s.low ≤ p ∧ p ≤ s.high else s.low < p ∧ p < s.high

/-- The neighbour of the value on the grid that lies in the interval; of two the nearer, and the
greater one if both are equally near. -/
def pick? (s : Scaled) : Option Nat :=
  let below := s.value / s.unit
  let above := below + 1
  match s.holds below, s.holds above with
  | true, true =>
    if s.value - below * s.unit < above * s.unit - s.value then some below else some above
  | true, false => some below
  | false, true => some above
  | false, false => none

end Scaled

/-- Ten to this power is above every finite float. -/
def topExponent : Int := 309

/-- The number of grids to try: down to seventeen digits of the least float. -/
def gridCount : Nat := 309 + 324 + 17

/-- The first hit on the grids from the coarsest on. -/
def Binary.shortest? (b : Binary) : Option Shortest :=
  (List.range gridCount).findSome? fun (k : Nat) =>
    let g := topExponent - k
    (b.scaled g).pick?.map fun digits => ⟨digits, g⟩

/-- The decimal that equals a float. -/
def Binary.exact (b : Binary) : Shortest :=
  if 0 ≤ b.exponent then ⟨b.mantissa * Nat.pow 2 b.exponent.toNat, 0⟩
  else ⟨b.mantissa * Nat.pow 5 (-b.exponent).toNat, b.exponent⟩

/-- The shortest decimal that stands for a float; the exact one, should no grid have a hit. -/
def Binary.shortest (b : Binary) : Shortest := b.shortest?.getD b.exact

end Chip8.Decimal
