import Chip8.Fault
import Chip8.Opcode.Basic

/-!
# Reports

What the machine and its host tell a log. A report says what happened, with its data; its level
and its text are functions of it, so a log is a list of reports until someone reads it.
-/

namespace Chip8

inductive Level where
  | error
  | warn
  | info
  | debug
  | trace
  deriving DecidableEq, Repr

namespace Level

/-- The rank of a level: the more urgent, the smaller. -/
def rank : Level → Nat
  | .error => 1
  | .warn => 2
  | .info => 3
  | .debug => 4
  | .trace => 5

def name : Level → String
  | .error => "ERROR"
  | .warn => "WARN"
  | .info => "INFO"
  | .debug => "DEBUG"
  | .trace => "TRACE"

/-- The level that a lower case name stands for. -/
def ofName? : String → Option Level
  | "error" => some .error
  | "warn" => some .warn
  | "info" => some .info
  | "debug" => some .debug
  | "trace" => some .trace
  | _ => none

end Level

inductive Report where
  /-- An instruction was fetched and is about to be carried out. -/
  | executing (address word : UInt16) (op : Opcode)
  /-- The instruction is none that the machine knows and has no effect. -/
  | unknownOpcode (word address : UInt16)
  | cycleAborted (fault : Fault)
  | machineReset
  /-- A program of `size` bytes lies in memory from `start` on. -/
  | programLoaded (size : Nat) (start : UInt16)
  /-- The runner has a new speed, given as it is written. -/
  | speedSet (speed : String)
  | paused
  | resumed
  | stopping (reason : String)
  deriving DecidableEq, Repr

namespace Report

def level : Report → Level
  | .executing .. => .trace
  | .unknownOpcode .. => .debug
  | .cycleAborted _ | .stopping _ => .warn
  | .machineReset | .programLoaded .. | .speedSet _ | .paused | .resumed => .info

def text : Report → String
  | .executing a w op => s!"{Text.address a}: {Text.word w} {op.text}"
  | .unknownOpcode w a => s!"Ignoring unknown opcode {Text.address w} at {Text.address a}"
  | .cycleAborted f => s!"Cycle aborted: {f.message}"
  | .machineReset => "Machine reset"
  | .programLoaded size start => s!"Loaded {size} byte program at {Text.address start}"
  | .speedSet speed => s!"Speed set to {speed} Hz"
  | .paused => "Paused"
  | .resumed => "Resumed"
  | .stopping reason => s!"Stopping: {reason}"

/-- Whether a log that keeps everything up to `limit` keeps this report. -/
def visible (limit : Level) (r : Report) : Bool := r.level.rank ≤ limit.rank

end Report

end Chip8
