import Chip8.Machine.Cycle
import Chip8.Runner.Clock

/-!
# The runner

A runner drives a machine at a fixed number of cycles per second. Elapsed time goes into an
account, and `Runner.update` takes the time of one cycle out of it for each cycle it runs, until
less than that is left. A fault ends an update at once, with the rest of the time still in the
account. An update counts its cycles in 32 bits, and one that would count further overflows:
`Stop.overrun` stands for the panic, of which no caller hears.
-/

namespace Chip8

/-- A machine with its pace. -/
structure Runner (τ : Type) where
  machine : Machine
  /-- Instructions per second. -/
  speed : τ
  paused : Bool
  /-- Elapsed time, in seconds, that no cycle has used up. -/
  pending : τ
  deriving DecidableEq

/-- What an update did. -/
structure Status where
  cycles : Nat
  /-- Whether one of them changed the display. -/
  displayUpdated : Bool
  deriving DecidableEq, Repr

/-- Why an update ended without a status. -/
inductive Stop where
  /-- A cycle faulted, and the caller is told. -/
  | fault (f : Fault)
  /-- There was time for more cycles than an update can count: the addition to the count overflowed, and the
  program panicked. -/
  | overrun
  deriving DecidableEq, Repr

/-- The outcome of a request to a runner: its result, the runner it leaves, and the reports. -/
structure Progress (τ ε α : Type) where
  result : Except ε α
  runner : Runner τ
  reports : Array Report

/-- The greatest number of cycles that an update can count. -/
def maxCycles : Nat := UInt32.size - 1

namespace Runner

variable {τ : Type} [ClockNumber τ]

section Pacing

variable [LT τ] [DecidableLT τ]

/-- A runner for a machine, with its speed brought into range. -/
def new (machine : Machine) (speed : τ) : Runner τ :=
  ⟨machine, Speed.clamp speed, false, ClockNumber.ofNat 0⟩

/-- Changes the speed, brought into range, and says so. Time in the account stays there. -/
def setSpeed (r : Runner τ) (speed : τ) : Runner τ × Report :=
  let s := Speed.clamp speed
  ({ r with speed := s }, .speedSet (ClockNumber.text s))

end Pacing

section Time

variable [Add τ] [Sub τ] [Div τ] [LE τ] [DecidableLE τ]

/-- Runs cycles as long as the account holds the time of one, `room` more of them at most before
the count is full. `status` and `reports` are those of the cycles run so far. -/
def drain (step : τ) (room : Nat) (status : Status) (reports : Array Report) :
    Runner τ → Progress τ Stop Status
  | ⟨machine, speed, paused, pending⟩ =>
    if step ≤ pending then
      let left := pending - step
      match machine.cycle, room with
      | ⟨.error f, m, new⟩, _ => ⟨.error (.fault f), ⟨m, speed, paused, left⟩, reports ++ new⟩
      | ⟨.ok _, m, new⟩, 0 => ⟨.error .overrun, ⟨m, speed, paused, left⟩, reports ++ new⟩
      | ⟨.ok o, m, new⟩, room + 1 =>
        let status := ⟨status.cycles + 1, status.displayUpdated || o = .displayUpdated⟩
        drain step room status (reports ++ new) ⟨m, speed, paused, left⟩
    else ⟨.ok status, ⟨machine, speed, paused, pending⟩, reports⟩

/-- Puts `dt` seconds into the account and runs the cycles that it pays for, `room` at most.
While paused, time passes without effect. -/
def updateWithin (room : Nat) (r : Runner τ) (dt : τ) : Progress τ Stop Status :=
  match r with
  | ⟨machine, speed, true, pending⟩ => ⟨.ok ⟨0, false⟩, ⟨machine, speed, true, pending⟩, #[]⟩
  | ⟨machine, speed, false, pending⟩ =>
    drain (ClockNumber.ofNat 1 / speed) room ⟨0, false⟩ #[] ⟨machine, speed, false, pending + dt⟩

/-- Lets `dt` seconds pass, with as many cycles as an update can count. -/
def update (r : Runner τ) (dt : τ) : Progress τ Stop Status := r.updateWithin maxCycles dt

end Time

/-- Returns the machine to its power-on state, empties the account and loads a program. -/
def loadRom (r : Runner τ) (rom : List UInt8) : Progress τ Fault Unit :=
  let blank := r.machine.reset
  let loaded := blank.machine.load rom
  ⟨loaded.result, { r with machine := loaded.machine, pending := ClockNumber.ofNat 0 },
    (blank.reports ++ loaded.reports).toArray⟩

/-- Stops the clock and empties the account. -/
def pause (r : Runner τ) : Runner τ := { r with paused := true, pending := ClockNumber.ofNat 0 }

def resume (r : Runner τ) : Runner τ := { r with paused := false }

def setKey (r : Runner τ) (key : UInt8) (down : Bool) : Progress τ Fault Unit :=
  let s := r.machine.putKey key down
  ⟨s.result, { r with machine := s.machine }, s.reports.toArray⟩

end Runner

end Chip8
