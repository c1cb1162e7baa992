import Chip8.Runner.Basic

/-!
# Failures of the host

A failure has a cause, and one context for each activity that it interrupted. Its text names the
contexts from the outermost inwards and then the cause. A panic is no failure: nobody is handed it,
and the program is gone.
-/

namespace Chip8

inductive Activity where
  | readingRom (path : String)
  | creatingEventLoop
  | initialising
  | runningEventLoop
  | loadingRom
  | reloadingRom
  | creatingWindow
  | creatingSurface
  | resizingSurface
  | rendering
  | executing
  | updatingKeypad
  deriving DecidableEq, Repr

/-- What is said of an activity that failed. -/
def Activity.message : Activity → String
  | .readingRom path => "Failed to read ROM file " ++ path
  | .creatingEventLoop => "Failed to create event loop"
  | .initialising => "Failed to initialize application"
  | .runningEventLoop => "Error occurred during event loop execution"
  | .loadingRom => "Failed to load ROM into CHIP-8 memory"
  | .reloadingRom => "Failed to reload ROM"
  | .creatingWindow => "Failed to create window"
  | .creatingSurface => "Failed to create pixels surface"
  | .resizingSurface => "Failed to resize pixels surface"
  | .rendering => "Pixels render error"
  | .executing => "CHIP-8 execution error"
  | .updatingKeypad => "Keypad update failed"

/-- Why the host could not go on. -/
inductive Failure where
  /-- A call to the outside failed, with its own words. -/
  | outside (text : String)
  /-- The machine refused a request or an instruction. -/
  | fault (f : Fault)
  /-- There is no picture to paint on. -/
  | noSurface
  /-- The failure of an activity. -/
  | during (activity : Activity) (cause : Failure)
  deriving DecidableEq, Repr

namespace Failure

/-- A fault of the machine in the course of an activity. -/
def ofFault (activity : Activity) (f : Fault) : Failure := .during activity (.fault f)

def message : Failure → String
  | .outside text => text
  | .fault f => f.message
  | .noSurface => "Pixels surface not created"
  | .during activity cause => activity.message ++ ": " ++ cause.message

end Failure

/-- An operation on numbers of 32 bits whose result does not fit. -/
inductive Panic where
  | addition
  | multiplication
  deriving DecidableEq, Repr

/-- What is said of the program when it panics. -/
def Panic.message : Panic → String
  | .addition => "attempt to add with overflow"
  | .multiplication => "attempt to multiply with overflow"

end Chip8
