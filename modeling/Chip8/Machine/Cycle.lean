import Chip8.Machine.Execute

/-!
# Cycles

A cycle fetches the word at the program counter, moves the counter past it, carries the
instruction out and lets both timers tick. A word that does not lie in memory ends the cycle
before anything changes. An instruction that faults ends it before the timers tick: the counter
has moved and the word is recorded, and nothing else is different.
-/

namespace Chip8.Machine

def fetch (m : Machine) : Except Fault UInt16 :=
  match m.memory.read? m.pc 2 with
  | .ok bs => .ok (Word.ofBytes (bs[0]?.getD 0) (bs[1]?.getD 0))
  | .error f => .error f

/-- The machine about to carry out a word: the word is recorded and the counter has moved. -/
def fetched (m : Machine) (w : UInt16) : Machine := { m with word := w, pc := m.pc + 2 }

/-- Lets both timers count down; they stop at zero. -/
def tick (m : Machine) : Machine :=
  { m with
    delayTimer := UInt8.ofNat (m.delayTimer.toNat - 1)
    soundTimer := UInt8.ofNat (m.soundTimer.toNat - 1) }

def cycle (m : Machine) : Step Outcome :=
  match m.fetch with
  | .error f => ⟨.error f, m, []⟩
  | .ok w =>
    let op := Opcode.decode w
    let start := Report.executing m.pc w op
    match (m.fetched w).execute op with
    | ⟨.ok o, after, reports⟩ => ⟨.ok o, after.tick, start :: reports⟩
    | ⟨.error f, after, reports⟩ => ⟨.error f, after, start :: reports ++ [.cycleAborted f]⟩

end Chip8.Machine
