import Chip8.Decimal.Notation

/-!
# Clock numbers

The runner measures time in seconds and speed in instructions per second. It needs only sums,
differences, quotients and comparisons of such numbers, so it is defined over any type that has
them; `Float` is the one that programs run with. `Speed.clamp` brings a speed into the range in
which a machine can be paced.
-/

namespace Chip8

/-- Numbers that a runner can count time with, beside their arithmetic and their order. -/
class ClockNumber (τ : Type) where
  ofNat : Nat → τ
  /-- Whether a number is no number, and so neither below nor above any other. -/
  isNaN : τ → Bool
  /-- The number as a log shows it. -/
  text : τ → String

instance : ClockNumber Float where
  ofNat := Float.ofNat
  isNaN := Float.isNaN
  text := Decimal.text

namespace Speed

variable (τ : Type) [ClockNumber τ]

/-- The speed of a runner that is given none. -/
def default : τ := ClockNumber.ofNat 400

def least : τ := ClockNumber.ofNat 200

def greatest : τ := ClockNumber.ofNat 5000

variable {τ} [LT τ] [DecidableLT τ]

/-- The speed in range that is nearest to the one asked for. What is no number counts as no
wish. -/
def clamp (s : τ) : τ :=
  if ClockNumber.isNaN s then default τ
  else if s < least τ then least τ
  else if greatest τ < s then greatest τ
  else s

end Speed

end Chip8
