/-!
# Hexadecimal text

Instruction words and addresses are written with four upper case digits.
-/

namespace Chip8.Text

/-- One digit, in upper case from ten on. -/
def hexDigit (d : Nat) : Char :=
  if d < 10 then Char.ofNat (48 + d) else Char.ofNat (55 + d)

/-- A word as four digits, most significant first. -/
def word (w : UInt16) : String :=
  String.ofList ([4096, 256, 16, 1].map fun weight => hexDigit (w.toNat / weight % 16))

/-- An address: the four digits after `0x`. -/
def address (a : UInt16) : String := "0x" ++ word a

end Chip8.Text
