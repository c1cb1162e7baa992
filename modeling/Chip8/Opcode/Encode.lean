import Chip8.Opcode.Decode

/-!
# Encoding instructions

`Opcode.encode` writes an instruction as the word of its pattern, with zeros in the digits that
the pattern leaves open. An unknown word stands for itself.
-/

namespace Chip8

/-- The last digit that selects a register operation. -/
def AluOp.toNibble : AluOp → Nibble
  | .set => 0x0
  | .or => 0x1
  | .and => 0x2
  | .xor => 0x3
  | .add => 0x4
  | .sub => 0x5
  | .shiftRight => 0x6
  | .subReverse => 0x7
  | .shiftLeft => 0xE

theorem AluOp.ofNibble?_toNibble (op : AluOp) : AluOp.ofNibble? op.toNibble = some op := by
  cases op <;> rfl

namespace Word

/-- The word with four given digits. -/
def ofDigits (f x y n : Nibble) : UInt16 :=
  UInt16.ofNat (4096 * f.val + 256 * x.val + 16 * y.val + n.val)

/-- The word of a family with a register and a byte. -/
def ofByte (f x : Nibble) (kk : UInt8) : UInt16 :=
  UInt16.ofNat (4096 * f.val + 256 * x.val + kk.toNat)

/-- The word of a family with an address. -/
def ofAddress (f : Nibble) (nnn : Address) : UInt16 := UInt16.ofNat (4096 * f.val + nnn.val)

theorem toNat_ofDigits (f x y n : Nibble) :
    (ofDigits f x y n).toNat = 4096 * f.val + 256 * x.val + 16 * y.val + n.val := by
  rw [ofDigits, UInt16.toNat_ofNat']
  omega

theorem toNat_ofByte (f x : Nibble) (kk : UInt8) :
    (ofByte f x kk).toNat = 4096 * f.val + 256 * x.val + kk.toNat := by
  have := kk.toNat_lt
  rw [ofByte, UInt16.toNat_ofNat']
  omega

theorem toNat_ofAddress (f : Nibble) (nnn : Address) :
    (ofAddress f nnn).toNat = 4096 * f.val + nnn.val := by
  rw [ofAddress, UInt16.toNat_ofNat']
  omega

end Word

namespace Opcode

open Word

/-- The word of an instruction's pattern. -/
def encode : Opcode → UInt16
  | .clearDisplay => 0x00E0
  | .ret => 0x00EE
  | .jump nnn => ofAddress 0x1 nnn
  | .jumpWithOffset nnn => ofAddress 0xB nnn
  | .call nnn => ofAddress 0x2 nnn
  | .skipRegEqualImm x kk => ofByte 0x3 x kk
  | .skipRegNotEqualImm x kk => ofByte 0x4 x kk
  | .skipRegEqualReg x y => ofDigits 0x5 x y 0
  | .skipRegNotEqualReg x y => ofDigits 0x9 x y 0
  | .setRegImm x kk => ofByte 0x6 x kk
  | .addRegImm x kk => ofByte 0x7 x kk
  | .alu x y op => ofDigits 0x8 x y op.toNibble
  | .setIndexImm nnn => ofAddress 0xA nnn
  | .addIndexReg x => ofByte 0xF x 0x1E
  | .random x kk => ofByte 0xC x kk
  | .draw x y n => ofDigits 0xD x y n
  | .skipIfPressed x => ofByte 0xE x 0x9E
  | .skipIfNotPressed x => ofByte 0xE x 0xA1
  | .waitForKey x => ofByte 0xF x 0x0A
  | .readDelayTimer x => ofByte 0xF x 0x07
  | .setDelayTimer x => ofByte 0xF x 0x15
  | .setSoundTimer x => ofByte 0xF x 0x18
  | .fontChar x => ofByte 0xF x 0x29
  | .bcd x => ofByte 0xF x 0x33
  | .storeRegs x => ofByte 0xF x 0x55
  | .loadRegs x => ofByte 0xF x 0x65
  | .unknown w => w

end Opcode

end Chip8
