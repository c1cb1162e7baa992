import Chip8.Host.Event

/-!
# Sessions

A session is the whole of one run of the program: it reads its arguments and the program file,
creates the event loop, starts the host, and handles events until the host leaves, the program
panics, or no more of them come. The first event always is the one that lets the host create its
window. What the session had from outside is in its `Surroundings`, and what became of it in its
`Record`.
-/

namespace Chip8

/-- An event with the clock at which it comes and the answers of the outside to it. -/
structure Delivery where
  event : Event
  /-- Nanoseconds since the session began. -/
  now : Nat
  outside : Outside

/-- What a session finds outside. -/
structure Surroundings where
  /-- The bytes of the program file, or why they cannot be read. -/
  romFile : Except String (List UInt8)
  /-- Why there is no event loop, if so. -/
  eventLoopError : Option String
  /-- The random source of a session without a seed. -/
  random : RandomSource
  /-- The answers to the first event. -/
  opening : Outside
  /-- The events after the first. -/
  deliveries : List Delivery
  /-- Why the event loop ended in failure, if so. -/
  loopError : Option String

/-- One event and the host that came back from it, with the calls made since the entry before and the
reports since then. -/
structure Entry where
  event : Event
  host : Host
  calls : List Call
  reports : Array Report

/-- How a session ended. -/
inductive Ending where
  | finished
  /-- The command line was refused. -/
  | refused (r : Refusal)
  | failed (f : Failure)
  /-- The program was cut off and did not come back with anything. -/
  | panicked (p : Panic)
  deriving DecidableEq, Repr

/-- What became of a session. -/
structure Record where
  entries : List Entry
  /-- The calls after the last entry. -/
  calls : List Call
  /-- The reports after the last entry. -/
  reports : Array Report
  ending : Ending

namespace Record

/-- A session that ended before its first event. -/
def early (calls : List Call) (reports : Array Report) (ending : Ending) : Record :=
  ⟨[], calls, reports, ending⟩

end Record

/-- How the event loop ended. -/
inductive LoopEnd where
  /-- The host left, or ran out of events. -/
  | left (h : Host)
  /-- The program panicked, with these calls and reports since the last entry. -/
  | panicked (p : Panic) (calls : List Call) (reports : Array Report)

namespace Host

/-- Handles events up to the one in which the host leaves or the program panics. `calls` and `reports`
go into the next entry. -/
def handleAll (h : Host) (calls : List Call) (reports : Array Report) :
    List Delivery → List Entry × LoopEnd
  | [] => ([], .left h)
  | d :: ds =>
    let r := h.handle d.event d.now d.outside
    let calls := calls ++ r.calls
    let reports := reports ++ r.reports
    match r.panic? with
    | some p => ([], .panicked p calls reports)
    | none =>
      let entry : Entry := ⟨d.event, r.host, calls, reports⟩
      if Call.exit ∈ r.calls then ([entry], .left r.host)
      else
        let (entries, last) := r.host.handleAll [] #[] ds
        (entry :: entries, last)

end Host

namespace Surroundings

/-- All events, the first included. -/
def events (s : Surroundings) : List Delivery := ⟨.resumed, 0, s.opening⟩ :: s.deliveries

/-- How a session ends whose host has left: a failure of the event loop comes before a failure
of the host. -/
def ending (s : Surroundings) (h : Host) : Ending :=
  match s.loopError, h.failure with
  | some text, _ => .failed (.during .runningEventLoop (.outside text))
  | none, some f => .failed f
  | none, none => .finished

/-- What becomes of a session whose event loop has ended. -/
def conclude (s : Surroundings) : List Entry × LoopEnd → Record
  | (entries, .left last) => ⟨entries, [], #[], s.ending last⟩
  | (entries, .panicked p calls reports) => ⟨entries, calls, reports, .panicked p⟩

/-- A session with the options of its command line. -/
def runWith (s : Surroundings) (options : Options) : Record :=
  match s.romFile, s.eventLoopError with
  | .error text, _ => .early [] #[] (.failed (.during (.readingRom options.romPath) (.outside text)))
  | .ok _, some text =>
    .early [.createEventLoop] #[] (.failed (.during .creatingEventLoop (.outside text)))
  | .ok rom, none =>
    let calls := [Call.createEventLoop, .pollEvents]
    match Host.start options s.random rom 0 with
    | (.error f, reports) => .early calls reports (.failed (.during .initialising f))
    | (.ok h, reports) => s.conclude (h.handleAll calls reports s.events)

/-- A session with the arguments after the program's name. -/
def run (s : Surroundings) (args : List String) : Record :=
  match Options.ofArguments args with
  | .error r => .early [] #[] (.refused r)
  | .ok options => s.runWith options

end Surroundings

end Chip8
