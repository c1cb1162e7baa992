import Chip8.Machine.Run
import Chip8.Runner.Basic

/-!
# Histories of a runner

Whatever its user does with a runner is a list of requests, requests to its machine included.
`Runner.Reachable` holds of the runners that some history leads to, from any machine and any
speed asked for.
-/

namespace Chip8.Runner

/-- What a runner can be asked to do. -/
inductive Request (τ : Type) where
  | update (dt : τ)
  | loadRom (rom : List UInt8)
  | pause
  | resume
  | setSpeed (speed : τ)
  /-- A request to the machine, past the runner. -/
  | machine (r : Chip8.Request)

variable {τ : Type} [ClockNumber τ] [Add τ] [Sub τ] [Div τ] [LT τ] [DecidableLT τ] [LE τ] [DecidableLE τ]

/-- The runner after a request, granted or refused. -/
def after (r : Runner τ) : Request τ → Runner τ
  | .update dt => (r.update dt).runner
  | .loadRom rom => (r.loadRom rom).runner
  | .pause => r.pause
  | .resume => r.resume
  | .setSpeed speed => (r.setSpeed speed).1
  | .machine q => { r with machine := r.machine.after q }

def afterAll (r : Runner τ) (qs : List (Request τ)) : Runner τ := qs.foldl after r

/-- The runners that some history leads to. -/
inductive Reachable : Runner τ → Prop where
  | new (machine : Machine) (speed : τ) : Reachable (Runner.new machine speed)
  | after {r : Runner τ} (h : Reachable r) (q : Request τ) : Reachable (r.after q)

theorem Reachable.afterAll {r : Runner τ} (h : r.Reachable) (qs : List (Request τ)) : (r.afterAll qs).Reachable := by
  induction qs generalizing r with
  | nil => exact h
  | cons q qs ih => exact ih (h.after q)

end Chip8.Runner
