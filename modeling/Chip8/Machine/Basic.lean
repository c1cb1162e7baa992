import Chip8.Display
import Chip8.Font
import Chip8.Memory
import Chip8.Opcode.Decode
import Chip8.Random.Source
import Chip8.Report

/-!
# The machine

The whole state of the interpreter as one value, and the requests that change it apart from a
cycle: `reset`, `load`, and the two on the keypad. Every request answers with a `Step`: its
result, the machine after it, and what it reports.
-/

namespace Chip8

/-- Where programs are loaded and start. -/
def programStart : Nat := 0x200

def maxProgramSize : Nat := memorySize - programStart

/-- The number of return addresses that the stack holds. -/
def stackDepth : Nat := 16

structure Machine where
  memory : Memory
  display : Display
  pc : UInt16
  /-- The register I, a base address. -/
  index : UInt16
  registers : Nibble.Table UInt8
  /-- The return addresses, the latest first. -/
  stack : List UInt16
  delayTimer : UInt8
  soundTimer : UInt8
  keypad : Nibble.Table Bool
  /-- The word fetched last. -/
  word : UInt16
  random : RandomSource
  deriving DecidableEq

/-- The outcome of a request: its result, the machine it leaves, and what it reports, in order. -/
structure Step (α : Type) where
  result : Except Fault α
  machine : Machine
  reports : List Report

namespace Machine

/-- The power-on state: the font in memory, all else dark, empty or zero. -/
def powerOn (random : RandomSource) : Machine where
  memory := Memory.blank.write Font.start Font.bytes
  display := Display.blank
  pc := UInt16.ofNat programStart
  index := 0
  registers := Vector.replicate 16 0
  stack := []
  delayTimer := 0
  soundTimer := 0
  keypad := Vector.replicate 16 false
  word := 0
  random := random

/-- The power-on state with the random source of a seed. -/
def withSeed (seed : UInt64) : Machine := powerOn (RandomSource.ofSeed seed)

/-- Writes each field but the random source anew, as it is at power-on. The random source goes on
where it is, and a program has to be loaded again. -/
def reset (m : Machine) : Step Unit :=
  let cleared : Machine :=
    { m with
      memory := Memory.blank.write Font.start Font.bytes
      display := Display.blank
      pc := UInt16.ofNat programStart
      index := 0
      registers := Vector.replicate 16 0
      stack := []
      delayTimer := 0
      soundTimer := 0
      keypad := Vector.replicate 16 false
      word := 0 }
  ⟨.ok (), cleared, [.machineReset]⟩

/-- Copies a program into memory and touches nothing else. -/
def load (m : Machine) (rom : List UInt8) : Step Unit :=
  if rom.length ≤ maxProgramSize then
    ⟨.ok (), { m with memory := m.memory.write programStart rom },
      [.programLoaded rom.length (UInt16.ofNat programStart)]⟩
  else ⟨.error (.programTooLarge rom.length maxProgramSize), m, []⟩

def putKey (m : Machine) (key : UInt8) (down : Bool) : Step Unit :=
  match Nibble.ofByte? key with
  | some k => ⟨.ok (), { m with keypad := m.keypad.put k down }, []⟩
  | none => ⟨.error (.invalidKey key), m, []⟩

def setKey (m : Machine) (key : UInt8) : Step Unit := m.putKey key true

def clearKey (m : Machine) (key : UInt8) : Step Unit := m.putKey key false

/-- Whether the cell in column `x` of row `y` is lit. -/
def pixel (m : Machine) (x y : Nat) : Bool := m.display.pixel x y

/-- Whether a sound is due. -/
def shouldBeep (m : Machine) : Bool := 0 < m.soundTimer

def reg (m : Machine) (x : Nibble) : UInt8 := m.registers.get x

def setReg (m : Machine) (x : Nibble) (b : UInt8) : Machine :=
  { m with registers := m.registers.put x b }

/-- Whether the key of a number is down. A number above 15 names no key. -/
def keyDown (m : Machine) (key : UInt8) : Bool :=
  match Nibble.ofByte? key with
  | some k => m.keypad.get k
  | none => false

/-- The lowest key that is down. -/
def firstKeyDown? (m : Machine) : Option Nibble := (List.finRange 16).find? fun k => m.keypad.get k

end Machine

end Chip8
