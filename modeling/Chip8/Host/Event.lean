import Chip8.Host.Basic

/-!
# Events

What reaches the host from outside, and how it reacts. `Host.react` is the work that an event
asks for; `Host.handle` adds what follows a failure: the host keeps it and leaves. Nothing follows
a panic.
-/

namespace Chip8

/-- A key going down or up. -/
structure KeyEvent where
  /-- The physical key, if it is one that has a code. -/
  code : Option KeyCode
  /-- Whether the key means Escape in the current layout. -/
  escape : Bool
  pressed : Bool
  /-- The key has been down for a while and the keyboard repeats it. -/
  repeated : Bool
  deriving DecidableEq, Repr

/-- Something that reaches the host. -/
inductive Event where
  /-- The host may create its window. -/
  | resumed
  | closeRequested
  | redrawRequested
  | resized (size : Size)
  | keyboard (key : KeyEvent)
  /-- An event that means nothing to the host. -/
  | other
  deriving DecidableEq, Repr

namespace Host

/-- Creates a window of a size, and the picture. The clock of frames starts anew. -/
def createWindow (h : Host) (asked : Size) (now : Nat) (outside : Outside) : Reaction :=
  let create := Call.createWindow title asked Size.display
  match outside.window asked with
  | .error text => .failed h [create] #[] (.during .creatingWindow (.outside text))
  | .ok inner =>
    let h := { h with hasWindow := true }
    let calls := [create, .createSurface inner, .createPicture Size.display]
    match outside.pictureError with
    | some text => .failed h calls #[] (.during .creatingSurface (.outside text))
    | none =>
      .done { h with frame := some Frame.blank, lastFrame := now, needsRepaint := true }
        (calls ++ [.requestRedraw]) #[]

/-- Creates the window with cells of the host's scale, as long as its size fits. -/
def onResumed (h : Host) (now : Nat) (outside : Outside) : Reaction :=
  match Size.display.scaled? h.scale with
  | none => .panicked h [] #[] .multiplication
  | some asked => h.createWindow asked now outside

/-- Gives the surface the size of the window, if there is one. -/
def onResized (h : Host) (size : Size) (outside : Outside) : Reaction :=
  match h.frame with
  | none => .done h [] #[]
  | some _ =>
    match outside.resizeError with
    | some text => .failed h [.resizeSurface size] #[] (.during .resizingSurface (.outside text))
    | none => .done h [.resizeSurface size] #[]

/-- Shows the picture and asks for the next frame. -/
def present (h : Host) (outside : Outside) (reports : Array Report) : Reaction :=
  let next := if h.hasWindow then [Call.requestRedraw] else []
  match h.frame with
  | none => .done h next reports
  | some _ =>
    match outside.renderError with
    | some text => .failed h [.render] reports (.during .rendering (.outside text))
    | none => .done h (.render :: next) reports

/-- Runs the machine for the time since the last frame, paints if something changed, and shows
the picture. -/
def onRedraw (h : Host) (now : Nat) (outside : Outside) : Reaction :=
  let update := h.runner.update (seconds (h.elapsed now))
  let h := { h with runner := update.runner, lastFrame := now }
  match update.result with
  | .error (.fault f) => .failed h [] update.reports (.ofFault .executing f)
  | .error .overrun => .panicked h [] update.reports .addition
  | .ok status =>
    if status.displayUpdated || h.needsRepaint then
      match h.paint with
      | .error f => .failed h [] update.reports f
      | .ok h => { h with needsRepaint := false }.present outside update.reports
    else h.present outside update.reports

/-- Passes a pad key on to the keypad and acts on a hotkey when it goes down. -/
def onKey (h : Host) (key : KeyEvent) : Reaction :=
  match key.code with
  | none => .done h [] #[]
  | some code =>
    match code.padKey? with
    | some pad =>
      let put := h.runner.setKey pad.toByte key.pressed
      let h := { h with runner := put.runner }
      match put.result with
      | .ok () => .done h [] put.reports
      | .error f => .failed h [] put.reports (.ofFault .updatingKeypad f)
    | none => if key.pressed && !key.repeated then h.hotkey code else .done h [] #[]

/-- The work that an event asks for. Escape leaves, whether it goes down or up. -/
def react (h : Host) (event : Event) (now : Nat) (outside : Outside) : Reaction :=
  match event with
  | .resumed => h.onResumed now outside
  | .closeRequested => .done h [.exit] #[]
  | .redrawRequested => h.onRedraw now outside
  | .resized size => h.onResized size outside
  | .keyboard key => if key.escape then .done h [.exit] #[] else h.onKey key
  | .other => .done h [] #[]

/-- The warning that goes with a failure: none for one that keeps the window from appearing. -/
def farewell (event : Event) (failure : Failure) : Array Report :=
  match event with
  | .resumed => #[]
  | _ => #[.stopping failure.message]

/-- Handles an event. After a failure the host keeps it and leaves. -/
def handle (h : Host) (event : Event) (now : Nat) (outside : Outside) : Reaction :=
  let r := h.react event now outside
  match r.cut with
  | some (.failed f) =>
    .failed { r.host with failure := some f } (r.calls ++ [.exit]) (r.reports ++ farewell event f) f
  | _ => r

end Host

end Chip8
