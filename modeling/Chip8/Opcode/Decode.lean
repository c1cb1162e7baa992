import Chip8.Opcode.Basic

/-!
# Decoding instruction words

The first hex digit of a word selects the family of its instruction. Families 0, E and F look at
the low byte and family 8 at the last digit; every other family holds one instruction. A word
that is none of them decodes to `Opcode.unknown`, so decoding never fails.
-/

namespace Chip8

namespace Word

/-- The first hex digit: the family. -/
def family (w : UInt16) : Nibble := ⟨w.toNat / 4096, by have := w.toNat_lt; omega⟩

/-- The second hex digit. -/
def x (w : UInt16) : Nibble := ⟨w.toNat / 256 % 16, by omega⟩

/-- The third hex digit. -/
def y (w : UInt16) : Nibble := ⟨w.toNat / 16 % 16, by omega⟩

/-- The last hex digit. -/
def n (w : UInt16) : Nibble := ⟨w.toNat % 16, by omega⟩

/-- The low byte. -/
def kk (w : UInt16) : UInt8 := w.toUInt8

/-- The low twelve bits. -/
def nnn (w : UInt16) : Address := ⟨w.toNat % 4096, by omega⟩

/-- A word from its high and its low byte. -/
def ofBytes (high low : UInt8) : UInt16 := UInt16.ofNat (256 * high.toNat + low.toNat)

theorem toNat_eq_digits (w : UInt16) :
    w.toNat = 4096 * (family w).val + 256 * (x w).val + 16 * (y w).val + (n w).val := by
  simp only [family, x, y, n]
  omega

theorem toNat_kk (w : UInt16) : (kk w).toNat = w.toNat % 256 := by
  simp [kk]

end Word

/-- The register operation of a last digit. -/
def AluOp.ofNibble? : Nibble → Option AluOp
  | 0x0 => some .set
  | 0x1 => some .or
  | 0x2 => some .and
  | 0x3 => some .xor
  | 0x4 => some .add
  | 0x5 => some .sub
  | 0x6 => some .shiftRight
  | 0x7 => some .subReverse
  | 0xE => some .shiftLeft
  | _ => none

namespace Opcode

open Word

/-- Family 0, by the low byte. -/
def decodeSystem (w : UInt16) : Opcode :=
  match (kk w).toNat with
  | 0xE0 => .clearDisplay
  | 0xEE => .ret
  | _ => .unknown w

/-- Family 8, by the last digit. -/
def decodeAlu (w : UInt16) : Opcode :=
  match AluOp.ofNibble? (n w) with
  | some op => .alu (x w) (y w) op
  | none => .unknown w

/-- Family E, by the low byte. -/
def decodeKey (w : UInt16) : Opcode :=
  match (kk w).toNat with
  | 0x9E => .skipIfPressed (x w)
  | 0xA1 => .skipIfNotPressed (x w)
  | _ => .unknown w

/-- Family F, by the low byte. -/
def decodeMisc (w : UInt16) : Opcode :=
  match (kk w).toNat with
  | 0x07 => .readDelayTimer (x w)
  | 0x0A => .waitForKey (x w)
  | 0x15 => .setDelayTimer (x w)
  | 0x18 => .setSoundTimer (x w)
  | 0x1E => .addIndexReg (x w)
  | 0x29 => .fontChar (x w)
  | 0x33 => .bcd (x w)
  | 0x55 => .storeRegs (x w)
  | 0x65 => .loadRegs (x w)
  | _ => .unknown w

/-- The instruction that a word stands for. -/
def decode (w : UInt16) : Opcode :=
  match family w with
  | 0x0 => decodeSystem w
  | 0x1 => .jump (nnn w)
  | 0x2 => .call (nnn w)
  | 0x3 => .skipRegEqualImm (x w) (kk w)
  | 0x4 => .skipRegNotEqualImm (x w) (kk w)
  | 0x5 => .skipRegEqualReg (x w) (y w)
  | 0x6 => .setRegImm (x w) (kk w)
  | 0x7 => .addRegImm (x w) (kk w)
  | 0x8 => decodeAlu w
  | 0x9 => .skipRegNotEqualReg (x w) (y w)
  | 0xA => .setIndexImm (nnn w)
  | 0xB => .jumpWithOffset (nnn w)
  | 0xC => .random (x w) (kk w)
  | 0xD => .draw (x w) (y w) (n w)
  | 0xE => decodeKey w
  | _ => decodeMisc w

end Opcode

end Chip8
