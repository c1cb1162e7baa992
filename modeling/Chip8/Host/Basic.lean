import Chip8.CommandLine.Reading
import Chip8.Host.Failure
import Chip8.Host.Frame
import Chip8.Host.KeyCode

/-!
# The host

The program around a runner: the picture it paints, the window it shows it in, and the clock it
measures frames with. Everything outside is reached through calls. What a call answers is data
(`Outside`), and which calls are made is part of a `Reaction`, next to the host after it, the
reports, and what cut it short, a failure or a panic.
-/

namespace Chip8

structure Size where
  width : UInt32
  height : UInt32
  deriving DecidableEq, Repr

namespace Size

/-- The size of the display in cells. -/
def display : Size := ⟨UInt32.ofNat displayWidth, UInt32.ofNat displayHeight⟩

/-- A size with both its sides multiplied, if they still fit. -/
def scaled? (s : Size) (scale : UInt32) : Option Size :=
  if s.width.toNat * scale.toNat < UInt32.size ∧ s.height.toNat * scale.toNat < UInt32.size then
    some ⟨s.width * scale, s.height * scale⟩
  else none

end Size

/-- A call to the outside. -/
inductive Call where
  | createEventLoop
  /-- Let the event loop run without waiting for events. -/
  | pollEvents
  /-- Create a window of a size that can shrink to another. -/
  | createWindow (title : String) (size least : Size)
  /-- Create a surface of the window's inner size. -/
  | createSurface (size : Size)
  | createPicture (size : Size)
  | requestRedraw
  /-- Give the surface another size. -/
  | resizeSurface (size : Size)
  | render
  | exit
  deriving DecidableEq, Repr

/-- What the outside answers while an event is handled. -/
structure Outside where
  /-- The inner size of a window for which a size was asked, or why there is none. -/
  window : Size → Except String Size
  /-- Why no picture can be created, if so. -/
  pictureError : Option String
  /-- Why the surface cannot be given another size, if so. -/
  resizeError : Option String
  /-- Why the picture cannot be shown, if so. -/
  renderError : Option String

structure Host where
  runner : Runner Float
  /-- The picture, from the creation of the window on. -/
  frame : Option Frame
  hasWindow : Bool
  /-- The size of a display cell in the window. -/
  scale : UInt32
  /-- The picture has to be painted even if the machine draws nothing. -/
  needsRepaint : Bool
  /-- The program, kept for a restart. -/
  rom : List UInt8
  /-- The clock at the last frame, in nanoseconds. -/
  lastFrame : Nat
  /-- Why the host is leaving, if something failed. -/
  failure : Option Failure

/-- Why the host did not get to the end of something. -/
inductive Cut where
  | failed (f : Failure)
  | panicked (p : Panic)
  deriving DecidableEq, Repr

/-- How the host took something: the host after it, the calls made, the reports, and what cut it
short. -/
structure Reaction where
  host : Host
  calls : List Call
  reports : Array Report
  cut : Option Cut

namespace Reaction

/-- A reaction that went through. -/
def done (host : Host) (calls : List Call) (reports : Array Report) : Reaction :=
  ⟨host, calls, reports, none⟩

/-- A reaction that was cut short by a failure. -/
def failed (host : Host) (calls : List Call) (reports : Array Report) (failure : Failure) : Reaction :=
  ⟨host, calls, reports, some (.failed failure)⟩

/-- A reaction in the midst of which the program panicked. -/
def panicked (host : Host) (calls : List Call) (reports : Array Report) (panic : Panic) : Reaction :=
  ⟨host, calls, reports, some (.panicked panic)⟩

/-- The panic that a reaction ended in, if it did. -/
def panic? (r : Reaction) : Option Panic :=
  match r.cut with
  | some (.panicked p) => some p
  | _ => none

end Reaction

/-- A time in nanoseconds as seconds: the whole ones and the rest are converted on their own. -/
def seconds (nanoseconds : Nat) : Float :=
  Float.ofNat (nanoseconds / 1000000000) + Float.ofNat (nanoseconds % 1000000000) / 1000000000.0

namespace Host

def title : String := "chip8-machine"

/-- What one key press adds to the speed or takes from it. -/
def speedStep : Float := 100.0

/-- A host for a program at clock `now`, before it has a window. `source` is the random source of
a host that is given no seed. Reports are those of the machine's start. -/
def start (options : Options) (source : RandomSource) (rom : List UInt8) (now : Nat) :
    Except Failure Host × Array Report :=
  let source :=
    match options.seed with
    | some seed => RandomSource.ofSeed seed
    | none => source
  let loaded := (Runner.new (Machine.powerOn source) options.speed).loadRom rom
  match loaded.result with
  | .error f => (.error (.ofFault .loadingRom f), loaded.reports)
  | .ok () =>
    (.ok {
      runner := loaded.runner
      frame := none
      hasWindow := false
      scale := max options.scale 1
      needsRepaint := true
      rom := rom
      lastFrame := now
      failure := none }, loaded.reports)

def elapsed (h : Host) (now : Nat) : Nat := now - h.lastFrame

/-- Paints the display on the picture. -/
def paint (h : Host) : Except Failure Host :=
  match h.frame with
  | some _ => .ok { h with frame := some (Frame.ofDisplay h.runner.machine.display) }
  | none => .error .noSurface

/-- Does what a key that is no pad key stands for: pause and go on, change the speed, or start the
program again. -/
def hotkey (h : Host) : KeyCode → Reaction
  | .space =>
    if h.runner.paused then .done { h with runner := h.runner.resume } [] #[.resumed]
    else .done { h with runner := h.runner.pause } [] #[.paused]
  | .equal =>
    let (runner, report) := h.runner.setSpeed (h.runner.speed + speedStep)
    .done { h with runner := runner } [] #[report]
  | .minus =>
    let (runner, report) := h.runner.setSpeed (h.runner.speed - speedStep)
    .done { h with runner := runner } [] #[report]
  | .backspace =>
    let loaded := h.runner.loadRom h.rom
    match loaded.result with
    | .ok () => .done { h with runner := loaded.runner, needsRepaint := true } [] loaded.reports
    | .error f => .failed { h with runner := loaded.runner } [] loaded.reports (.ofFault .reloadingRom f)
  | _ => .done h [] #[]

end Host

end Chip8
