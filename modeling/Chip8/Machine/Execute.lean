import Chip8.Machine.Basic

/-!
# Carrying out an instruction

`Machine.execute` applies one decoded instruction to a machine whose program counter has already
moved past it. Instructions that set VF take all their operands before they write; where the
destination is VF itself, the order of the two writes is the one stated at `Machine.alu`. An
instruction that faults leaves the machine as it found it.
-/

namespace Chip8

/-- What a cycle that did not fault tells its caller. -/
inductive Outcome where
  /-- Nothing visible changed. -/
  | proceed
  /-- The display was cleared or drawn on. -/
  | displayUpdated
  /-- No key was down, and the instruction will poll again. -/
  | waitingForKey
  deriving DecidableEq, Repr

namespace Step

/-- An instruction that took effect and changed nothing visible. -/
def proceed (m : Machine) : Step Outcome := ⟨.ok .proceed, m, []⟩

def fault (f : Fault) (m : Machine) : Step Outcome := ⟨.error f, m, []⟩

end Step

namespace Machine

def flag : Nibble := 0xF

/-- A flag as a register value. -/
def flagByte (b : Bool) : UInt8 := if b then 1 else 0

/-- The address of the instruction that is being carried out. -/
def instructionAddress (m : Machine) : UInt16 := m.pc - 2

/-- Passes over the next instruction if `b` holds. -/
def skipIf (m : Machine) (b : Bool) : Machine := if b then { m with pc := m.pc + 2 } else m

/-- An operation on two registers. Sums and differences write Vx and then the flag; shifts write
the flag and then shift what Vx holds at that point. -/
def alu (m : Machine) (x y : Nibble) : AluOp → Machine
  | .set => m.setReg x (m.reg y)
  | .or => m.setReg x (m.reg x ||| m.reg y)
  | .and => m.setReg x (m.reg x &&& m.reg y)
  | .xor => m.setReg x (m.reg x ^^^ m.reg y)
  | .add =>
    let carry := flagByte (255 < (m.reg x).toNat + (m.reg y).toNat)
    (m.setReg x (m.reg x + m.reg y)).setReg flag carry
  | .sub =>
    let greater := flagByte (m.reg y < m.reg x)
    (m.setReg x (m.reg x - m.reg y)).setReg flag greater
  | .subReverse =>
    let greater := flagByte (m.reg x < m.reg y)
    (m.setReg x (m.reg y - m.reg x)).setReg flag greater
  | .shiftRight =>
    let m := m.setReg flag (m.reg x &&& 1)
    m.setReg x (m.reg x >>> 1)
  | .shiftLeft =>
    let m := m.setReg flag (m.reg x >>> 7)
    m.setReg x (m.reg x <<< 1)

/-- The sprite of a draw instruction, without its rows below the bottom edge; the fault if a row
does not lie in memory. Its corner wraps around, its cells do not. -/
def sprite (m : Machine) (x y n : Nibble) : Except Fault Sprite :=
  let column : Fin displayWidth := ⟨(m.reg x).toNat % displayWidth, Nat.mod_lt _ (by decide)⟩
  let row : Fin displayHeight := ⟨(m.reg y).toNat % displayHeight, Nat.mod_lt _ (by decide)⟩
  match m.memory.read? m.index (min n.val (displayHeight - row.val)) with
  | .ok rows => .ok ⟨column, row, rows⟩
  | .error f => .error f

/-- Draws a sprite and sets VF to whether it fell on a lit cell. -/
def draw (m : Machine) (x y n : Nibble) : Step Outcome :=
  match m.sprite x y n with
  | .error f => .fault f m
  | .ok s =>
    let hit := flagByte (m.display.collides s)
    ⟨.ok .displayUpdated, { m with display := m.display.draw s }.setReg flag hit, []⟩

/-- Stores the lowest key that is down, or steps back so that the next cycle polls again. -/
def waitForKey (m : Machine) (x : Nibble) : Step Outcome :=
  match m.firstKeyDown? with
  | some k => .proceed (m.setReg x k.toByte)
  | none => ⟨.ok .waitingForKey, { m with pc := m.pc - 2 }, []⟩

def store (m : Machine) (bs : List UInt8) : Step Outcome :=
  match m.memory.write? m.index bs with
  | .ok memory => .proceed { m with memory := memory }
  | .error f => .fault f m

/-- The decimal digits of a byte: hundreds, tens and ones. -/
def decimalDigits (b : UInt8) : List UInt8 := [b / 100, b / 10 % 10, b % 10]

def lowRegisters (m : Machine) (x : Nibble) : List UInt8 := m.registers.toList.take (x.val + 1)

/-- The registers with the leading ones replaced. -/
def replaceRegisters (v : Nibble.Table UInt8) (bs : List UInt8) : Nibble.Table UInt8 :=
  Vector.ofFn fun k => bs[k.val]?.getD (v.get k)

def loadRegisters (m : Machine) (x : Nibble) : Step Outcome :=
  match m.memory.read? m.index (x.val + 1) with
  | .ok bs => .proceed { m with registers := replaceRegisters m.registers bs }
  | .error f => .fault f m

/-- Returns to the latest address on the stack. -/
def ret (m : Machine) : Step Outcome :=
  match m.stack with
  | [] => .fault (.stackUnderflow m.instructionAddress m.word) m
  | a :: rest => .proceed { m with pc := a, stack := rest }

/-- Calls a subroutine, if the stack has room for the way back. -/
def call (m : Machine) (target : Address) : Step Outcome :=
  if m.stack.length < stackDepth then
    .proceed { m with pc := UInt16.ofNat target.val, stack := m.pc :: m.stack }
  else .fault (.stackOverflow m.instructionAddress m.word) m

/-- Carries out one instruction. The program counter already points past it. -/
def execute (m : Machine) : Opcode → Step Outcome
  | .clearDisplay => ⟨.ok .displayUpdated, { m with display := Display.blank }, []⟩
  | .ret => m.ret
  | .jump nnn => .proceed { m with pc := UInt16.ofNat nnn.val }
  | .jumpWithOffset nnn => .proceed { m with pc := UInt16.ofNat nnn.val + (m.reg 0).toUInt16 }
  | .call nnn => m.call nnn
  | .skipRegEqualImm x kk => .proceed (m.skipIf (m.reg x == kk))
  | .skipRegNotEqualImm x kk => .proceed (m.skipIf (m.reg x != kk))
  | .skipRegEqualReg x y => .proceed (m.skipIf (m.reg x == m.reg y))
  | .skipRegNotEqualReg x y => .proceed (m.skipIf (m.reg x != m.reg y))
  | .setRegImm x kk => .proceed (m.setReg x kk)
  | .addRegImm x kk => .proceed (m.setReg x (m.reg x + kk))
  | .alu x y op => .proceed (m.alu x y op)
  | .setIndexImm nnn => .proceed { m with index := UInt16.ofNat nnn.val }
  | .addIndexReg x => .proceed { m with index := m.index + (m.reg x).toUInt16 }
  | .random x kk => .proceed ({ m with random := m.random.advance }.setReg x (m.random.peek &&& kk))
  | .draw x y n => m.draw x y n
  | .skipIfPressed x => .proceed (m.skipIf (m.keyDown (m.reg x)))
  | .skipIfNotPressed x => .proceed (m.skipIf (!m.keyDown (m.reg x)))
  | .waitForKey x => m.waitForKey x
  | .readDelayTimer x => .proceed (m.setReg x m.delayTimer)
  | .setDelayTimer x => .proceed { m with delayTimer := m.reg x }
  | .setSoundTimer x => .proceed { m with soundTimer := m.reg x }
  | .fontChar x => .proceed { m with index := UInt16.ofNat (Font.start + Font.glyphSize * (m.reg x).toNat) }
  | .bcd x => m.store (decimalDigits (m.reg x))
  | .storeRegs x => m.store (m.lowRegisters x)
  | .loadRegs x => m.loadRegisters x
  | .unknown w => ⟨.ok .proceed, m, [.unknownOpcode w m.instructionAddress]⟩

end Machine

end Chip8
