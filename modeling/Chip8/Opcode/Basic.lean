import Chip8.Nibble

/-!
# The instruction set

An `Opcode` is one decoded instruction with its operands: `x` and `y` select registers, `n` is a
row count, `kk` is a byte and `nnn` an address. Each constructor is documented by the pattern of
its word. `Opcode.name` and `Opcode.operands` list the parts of an instruction, and
`Opcode.text` joins them into the line that a trace shows.
-/

namespace Chip8

/-- An address that an instruction can hold: twelve bits. -/
abbrev Address := Fin 4096

/-- The operations of `8xyN` on two registers. -/
inductive AluOp where
  /-- `8xy0`: Vx becomes Vy. -/
  | set
  /-- `8xy1`: bitwise or. -/
  | or
  /-- `8xy2`: bitwise and. -/
  | and
  /-- `8xy3`: bitwise exclusive or. -/
  | xor
  /-- `8xy4`: sum, with the carry in VF. -/
  | add
  /-- `8xy5`: Vx less Vy, with VF set where Vx is the greater. -/
  | sub
  /-- `8xy6`: half of Vx, with the bit shifted out in VF. -/
  | shiftRight
  /-- `8xy7`: Vy less Vx, with VF set where Vy is the greater. -/
  | subReverse
  /-- `8xyE`: twice Vx, with the bit shifted out in VF. -/
  | shiftLeft
  deriving DecidableEq, Repr

inductive Opcode where
  /-- `00E0`: darken the display. -/
  | clearDisplay
  /-- `00EE`: return from a subroutine. -/
  | ret
  /-- `1nnn`: go to `nnn`. -/
  | jump (nnn : Address)
  /-- `Bnnn`: go to `nnn` plus V0. -/
  | jumpWithOffset (nnn : Address)
  /-- `2nnn`: call the subroutine at `nnn`. -/
  | call (nnn : Address)
  /-- `3xkk`: skip the next instruction if Vx is `kk`. -/
  | skipRegEqualImm (x : Nibble) (kk : UInt8)
  /-- `4xkk`: skip the next instruction if Vx is not `kk`. -/
  | skipRegNotEqualImm (x : Nibble) (kk : UInt8)
  /-- `5xy_`: skip the next instruction if Vx is Vy. -/
  | skipRegEqualReg (x y : Nibble)
  /-- `9xy_`: skip the next instruction if Vx is not Vy. -/
  | skipRegNotEqualReg (x y : Nibble)
  /-- `6xkk`: set Vx to `kk`. -/
  | setRegImm (x : Nibble) (kk : UInt8)
  /-- `7xkk`: add `kk` to Vx. -/
  | addRegImm (x : Nibble) (kk : UInt8)
  /-- `8xyN`: an operation on two registers. -/
  | alu (x y : Nibble) (op : AluOp)
  /-- `Annn`: set I to `nnn`. -/
  | setIndexImm (nnn : Address)
  /-- `Fx1E`: add Vx to I. -/
  | addIndexReg (x : Nibble)
  /-- `Cxkk`: set Vx to a random byte masked with `kk`. -/
  | random (x : Nibble) (kk : UInt8)
  /-- `Dxyn`: draw a sprite of `n` rows at (Vx, Vy). -/
  | draw (x y n : Nibble)
  /-- `Ex9E`: skip the next instruction if key Vx is down. -/
  | skipIfPressed (x : Nibble)
  /-- `ExA1`: skip the next instruction if key Vx is up. -/
  | skipIfNotPressed (x : Nibble)
  /-- `Fx0A`: store the number of a pressed key in Vx, or poll again. -/
  | waitForKey (x : Nibble)
  /-- `Fx07`: set Vx to the delay timer. -/
  | readDelayTimer (x : Nibble)
  /-- `Fx15`: set the delay timer to Vx. -/
  | setDelayTimer (x : Nibble)
  /-- `Fx18`: set the sound timer to Vx. -/
  | setSoundTimer (x : Nibble)
  /-- `Fx29`: point I at the glyph of digit Vx. -/
  | fontChar (x : Nibble)
  /-- `Fx33`: store the three decimal digits of Vx from I on. -/
  | bcd (x : Nibble)
  /-- `Fx55`: store V0 to Vx from I on. -/
  | storeRegs (x : Nibble)
  /-- `Fx65`: load V0 to Vx from I on. -/
  | loadRegs (x : Nibble)
  /-- A word that matches no pattern. -/
  | unknown (word : UInt16)
  deriving DecidableEq, Repr

def AluOp.name : AluOp → String
  | .set => "Set"
  | .or => "Or"
  | .and => "And"
  | .xor => "Xor"
  | .add => "Add"
  | .sub => "Sub"
  | .shiftRight => "ShiftRight"
  | .subReverse => "SubReverse"
  | .shiftLeft => "ShiftLeft"

/-- What an instruction can hold beside its operation. -/
inductive Operand where
  | nibble (x : Nibble)
  | byte (kk : UInt8)
  | address (nnn : Address)
  | operation (op : AluOp)
  | word (w : UInt16)
  deriving DecidableEq, Repr

/-- An operand as a trace shows it. -/
def Operand.text : Operand → String
  | .nibble x => x.text
  | .byte kk => toString kk.toNat
  | .address nnn => toString nnn.val
  | .operation op => op.name
  | .word w => toString w.toNat

namespace Opcode

def name : Opcode → String
  | .clearDisplay => "ClearDisplay"
  | .ret => "Return"
  | .jump _ => "Jump"
  | .jumpWithOffset _ => "JumpWithOffset"
  | .call _ => "Call"
  | .skipRegEqualImm .. => "SkipRegEqualImm"
  | .skipRegNotEqualImm .. => "SkipRegNotEqualImm"
  | .skipRegEqualReg .. => "SkipRegEqualReg"
  | .skipRegNotEqualReg .. => "SkipRegNotEqualReg"
  | .setRegImm .. => "SetRegImm"
  | .addRegImm .. => "AddRegImm"
  | .alu .. => "Alu"
  | .setIndexImm _ => "SetIndexImm"
  | .addIndexReg _ => "AddIndexReg"
  | .random .. => "Random"
  | .draw .. => "Draw"
  | .skipIfPressed _ => "SkipIfPressed"
  | .skipIfNotPressed _ => "SkipIfNotPressed"
  | .waitForKey _ => "WaitForKey"
  | .readDelayTimer _ => "ReadDelayTimer"
  | .setDelayTimer _ => "SetDelayTimer"
  | .setSoundTimer _ => "SetSoundTimer"
  | .fontChar _ => "FontChar"
  | .bcd _ => "Bcd"
  | .storeRegs _ => "StoreRegs"
  | .loadRegs _ => "LoadRegs"
  | .unknown _ => "Unknown"

/-- The operands of an instruction with the letters that stand for them in its pattern. -/
def operands : Opcode → List (String × Operand)
  | .clearDisplay | .ret => []
  | .jump nnn | .jumpWithOffset nnn | .call nnn | .setIndexImm nnn => [("nnn", .address nnn)]
  | .skipRegEqualImm x kk | .skipRegNotEqualImm x kk | .setRegImm x kk | .addRegImm x kk
  | .random x kk => [("x", .nibble x), ("kk", .byte kk)]
  | .skipRegEqualReg x y | .skipRegNotEqualReg x y => [("x", .nibble x), ("y", .nibble y)]
  | .alu x y op => [("x", .nibble x), ("y", .nibble y), ("op", .operation op)]
  | .draw x y n => [("x", .nibble x), ("y", .nibble y), ("n", .nibble n)]
  | .addIndexReg x | .skipIfPressed x | .skipIfNotPressed x | .waitForKey x
  | .readDelayTimer x | .setDelayTimer x | .setSoundTimer x | .fontChar x | .bcd x
  | .storeRegs x | .loadRegs x => [("x", .nibble x)]
  | .unknown w => [("word", .word w)]

/-- An instruction as a trace shows it: its name, then the operands in braces, or the bare word
in parentheses where nothing matched. -/
def text (op : Opcode) : String :=
  match op, op.operands with
  | .unknown _, fields => op.name ++ "(" ++ ", ".intercalate (fields.map fun f => f.2.text) ++ ")"
  | _, [] => op.name
  | _, fields =>
    op.name ++ " \x7b " ++ ", ".intercalate (fields.map fun f => f.1 ++ ": " ++ f.2.text) ++ " \x7d"

end Opcode

end Chip8
