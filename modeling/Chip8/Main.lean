import Chip8.Host.Script

/-!
# The program

Runs a program file with the events of a script on standard input, and writes each picture that
is shown to standard output. Reports go to standard error, up to the level that `CHIP8_LOG`
names.
-/

namespace Chip8.Program

/-- Everything on standard input, line by line. -/
def readLines (input : IO.FS.Stream) : IO (List String) := do
  let mut lines := #[]
  let mut line ← input.getLine
  while !line.isEmpty do
    lines := lines.push line
    line ← input.getLine
  return lines.toList

/-- The bytes of a file, or what the system says of it. -/
def readRom (path : String) : IO (Except String (List UInt8)) := do
  try return .ok (← IO.FS.readBinFile path).toList
  catch e => return .error (toString e)

/-- A random source that no seed determines. -/
def freshSource : IO RandomSource := do
  let bytes ← IO.getRandomBytes 32
  return .ofKey (Vector.ofFn fun k =>
    UInt32.ofNat ((List.range 4).foldl (fun n j => 256 * n + (bytes.toList[4 * k.val + j]?.getD 0).toNat) 0))

def showReports (limit : Option Level) (reports : Array Report) : IO Unit := do
  if let some level := limit then
    for report in reports do
      if report.visible level then IO.eprintln s!"{report.level.name} {report.text}"

/-- Shows what became of one event. -/
def showEntry (limit : Option Level) (e : Entry) : IO Unit := do
  showReports limit e.reports
  if Call.render ∈ e.calls then
    if let some frame := e.host.frame then
      for line in frame.lines do IO.println line

end Chip8.Program

open Chip8 Chip8.Program in
/-- Runs the program with the arguments after its name. The exit code is 0 after a session that
ended well, 1 after one that failed, 2 after a command line that was refused, and 101 after a panic. -/
def main (args : List String) : IO UInt32 := do
  match Options.ofArguments args with
  | .error .help =>
    IO.println Refusal.help.message
    return 0
  | .error refusal =>
    IO.eprintln s!"error: {refusal.message}"
    return 2
  | .ok options =>
    let surroundings : Surroundings := {
      romFile := ← readRom options.romPath
      eventLoopError := none
      random := ← freshSource
      opening := Script.screenless
      deliveries := Script.deliveries 0 (← readLines (← IO.getStdin))
      loopError := none }
    let limit := (← IO.getEnv "CHIP8_LOG").bind Level.ofName?
    let session := surroundings.runWith options
    for e in session.entries do showEntry limit e
    showReports limit session.reports
    match session.ending with
    | .failed f =>
      IO.eprintln s!"Error: {f.message}"
      return 1
    | .panicked p =>
      IO.eprintln s!"panicked: {p.message}"
      return 101
    | _ => return 0
