import Chip8.Text.Hex

/-!
# Faults

The ways in which a machine refuses a request or an instruction. Each fault carries what a
reader of its message needs: the size, the key, or the address and word of the instruction.
-/

namespace Chip8

/-- Why a request or an instruction was refused. -/
inductive Fault where
  /-- A program longer than the memory above its start. -/
  | programTooLarge (size maxSize : Nat)
  /-- A key number above 15. -/
  | invalidKey (key : UInt8)
  /-- A return with nothing to return to. -/
  | stackUnderflow (address opcode : UInt16)
  /-- A call with the stack full. -/
  | stackOverflow (address opcode : UInt16)
  /-- An access past the end of memory, at the first missing address. -/
  | memoryOutOfBounds (address : UInt16)
  deriving DecidableEq, Repr

namespace Fault

def message : Fault → String
  | .programTooLarge size maxSize => s!"Program is too large ({size} bytes), max size is {maxSize} bytes"
  | .invalidKey key => s!"Invalid key index {key.toNat}, expected 0x0-0xF"
  | .stackUnderflow a w =>
    s!"Stack underflow: return with empty call stack at {Text.address a} (opcode {Text.address w})"
  | .stackOverflow a w =>
    s!"Stack overflow: call depth exceeded at {Text.address a} (opcode {Text.address w})"
  | .memoryOutOfBounds a => s!"Memory access out of bounds at address {Text.address a}"

end Fault

end Chip8
