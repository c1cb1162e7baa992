import Chip8.Proofs.Host.Turn
import Chip8.Proofs.Runner.Batch
import Chip8.Runner.Run

/-!
# What an event asks of the runner

The host changes its runner only by requests to it, and which ones an event makes is plain from the event, the
clock and the host before it (`Host.requests`). `react_runner` says so of every event, failed ones included, so
that whatever the requests to a runner do is what the events do.
-/

namespace Chip8

namespace Host

/-- What the key of a code asks for when it goes down. -/
def hotkeyRequests (h : Host) : KeyCode → List (Runner.Request Float)
  | .space => [if h.runner.paused then .resume else .pause]
  | .equal => [.setSpeed (h.runner.speed + speedStep)]
  | .minus => [.setSpeed (h.runner.speed - speedStep)]
  | .backspace => [.loadRom h.rom]
  | _ => []

/-- What a key that does not mean Escape asks for. -/
def keyRequests (h : Host) (key : KeyEvent) : List (Runner.Request Float) :=
  match key.code with
  | none => []
  | some code =>
    match code.padKey? with
    | some pad => [.machine (.putKey pad.toByte key.pressed)]
    | none => if key.pressed && !key.repeated then h.hotkeyRequests code else []

/-- What an event asks of the runner: a frame lets time pass, and a key acts on the keypad or as a hotkey. -/
def requests (h : Host) (event : Event) (now : Nat) : List (Runner.Request Float) :=
  match event with
  | .redrawRequested => [.update (seconds (h.elapsed now))]
  | .keyboard key => if key.escape then [] else h.keyRequests key
  | _ => []

theorem update_not_mem_keyRequests (h : Host) (key : KeyEvent) (dt : Float) :
    .update dt ∉ h.keyRequests key := by
  unfold keyRequests
  cases key.code with
  | none => exact List.not_mem_nil
  | some code =>
    simp only
    cases code.padKey? with
    | some pad => simp
    | none =>
      simp only
      split
      · cases code with
        | space =>
          simp only [hotkeyRequests, List.mem_singleton]
          split <;> nofun
        | _ => simp [hotkeyRequests]
      · exact List.not_mem_nil

/-- Frames are the only events that let time pass. -/
theorem update_mem_requests_iff {h : Host} {event : Event} {now : Nat} {dt : Float} :
    .update dt ∈ h.requests event now ↔ event = .redrawRequested ∧ dt = seconds (h.elapsed now) := by
  cases event with
  | redrawRequested => simp [requests]
  | keyboard key =>
    simp only [requests, reduceCtorEq, false_and, iff_false]
    split
    · exact List.not_mem_nil
    · exact h.update_not_mem_keyRequests key dt
  | _ => simp [requests]

theorem onResumed_runner (h : Host) (now : Nat) (outside : Outside) :
    (h.onResumed now outside).host.runner = h.runner := by
  rw [(h.onResumed_writes now outside).1]

/-- A frame lets the time since the last one pass, and neither painting nor showing touches the runner. -/
theorem onRedraw_runner (h : Host) (now : Nat) (outside : Outside) :
    (h.onRedraw now outside).host.runner = (h.runner.update (seconds (h.elapsed now))).runner := by
  unfold onRedraw
  simp only
  split
  · rfl
  · rfl
  · split
    · cases hf : h.frame with
      | none => simp only [paint, Reaction.failed]
      | some f => simp only [paint, present_host]
    · rw [present_host]

theorem hotkey_runner (h : Host) (code : KeyCode) :
    (h.hotkey code).host.runner = h.runner.afterAll (h.hotkeyRequests code) := by
  cases code with
  | space =>
    cases hp : h.runner.paused with
    | true => simp [hotkey, hotkeyRequests, hp, Reaction.done, Runner.afterAll, Runner.after]
    | false => simp [hotkey, hotkeyRequests, hp, Reaction.done, Runner.afterAll, Runner.after]
  | backspace =>
    unfold hotkey
    simp only
    split <;> rfl
  | _ => rfl

theorem onKey_runner (h : Host) (key : KeyEvent) :
    (h.onKey key).host.runner = h.runner.afterAll (h.keyRequests key) := by
  cases hcode : key.code with
  | none => simp only [onKey, keyRequests, hcode]; rfl
  | some code =>
    cases hpad : code.padKey? with
    | some pad =>
      simp only [onKey, keyRequests, hcode, hpad]
      split <;> rfl
    | none =>
      simp only [onKey, keyRequests, hcode, hpad]
      split
      · exact h.hotkey_runner code
      · rfl

/-- An event changes the runner by its requests and in no other way. -/
theorem react_runner (h : Host) (event : Event) (now : Nat) (outside : Outside) :
    (h.react event now outside).host.runner = h.runner.afterAll (h.requests event now) := by
  cases event with
  | resumed => exact h.onResumed_runner now outside
  | closeRequested => rfl
  | redrawRequested => exact h.onRedraw_runner now outside
  | resized size => exact congrArg Host.runner (h.onResized_host size outside)
  | keyboard key =>
    rw [react, requests]
    split
    · rfl
    · exact h.onKey_runner key
  | other => rfl

end Host

/-- Handling an event, cut short or not, changes the runner by the requests of the event. -/
theorem Turn.after_runner (t : Turn) :
    t.after.runner = t.host.runner.afterAll (t.host.requests t.event t.now) := by
  rw [t.after_writes]
  exact t.host.react_runner t.event t.now t.outside

end Chip8
