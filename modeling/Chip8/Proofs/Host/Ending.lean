import Chip8.Proofs.Host.Failing

/-!
# How a session ends

A session ends with the failure of its start, with that of the event loop, with that of the event that failed, if
any did, or in a panic. `Surroundings.started` and `Surroundings.turns` are a session before and behind its start,
and what `Surroundings.run` makes of them is put together in `run_ends_as_its_steps`, next to what can be in a
failure.
-/

namespace Chip8

namespace Failure

/-- A failure and its causes, from the outermost inwards. -/
def chain : Failure → List Failure
  | .during activity cause => .during activity cause :: cause.chain
  | f => [f]

/-- What the program itself has to say of a failure. The words of the outside and of the machine are not its own. -/
def context? : Failure → Option String
  | .during activity _ => some activity.message
  | .noSurface => some "Pixels surface not created"
  | .outside _ | .fault _ => none

/-- What a failure of a session can be, as a whole or as the cause of one. The keypad has every key it is told of,
a program that starts again is not refused, there always is a picture, and a machine stops with a fault of a
cycle. -/
structure Expected (g : Failure) : Prop where
  context : ∀ text, g.context? = some text →
    text ≠ "Keypad update failed" ∧ text ≠ "Failed to reload ROM" ∧ text ≠ "Pixels surface not created"
  execution : g.context? = some "CHIP-8 execution error" →
    (∃ address opcode, g = .during .executing (.fault (.stackUnderflow address opcode))) ∨
      (∃ address opcode, g = .during .executing (.fault (.stackOverflow address opcode))) ∨
      ∃ address, g = .during .executing (.fault (.memoryOutOfBounds address))

variable {f cause : Failure} {context : String} {fault : Fault}

/-- The links of a chain are expected if the first one is and those behind it are. -/
theorem Wraps.expected_chain (hf : f.Wraps context cause) (hfirst : f.Expected)
    (hrest : ∀ g ∈ cause.chain, g.Expected) : ∀ g ∈ f.chain, g.Expected := by
  obtain ⟨activity, -, rfl⟩ := hf
  intro g hg
  rcases List.mem_cons.1 hg with rfl | hg
  · exact hfirst
  · exact hrest g hg

/-- Most activities may fail for any cause that is expected. -/
theorem Wraps.expected (hf : f.Wraps context cause)
    (hne : context ∉ ["Keypad update failed", "Failed to reload ROM", "Pixels surface not created",
      "CHIP-8 execution error"])
    (hrest : ∀ g ∈ cause.chain, g.Expected) : ∀ g ∈ f.chain, g.Expected := by
  simp only [List.mem_cons, List.not_mem_nil, or_false, not_or] at hne
  obtain ⟨hkeypad, hreload, hsurface, hexecution⟩ := hne
  refine hf.expected_chain ⟨?_, ?_⟩ hrest
  · obtain ⟨activity, rfl, rfl⟩ := hf
    rintro _ ⟨⟩
    exact ⟨hkeypad, hreload, hsurface⟩
  · obtain ⟨activity, rfl, rfl⟩ := hf
    intro h
    exact absurd (Option.some.inj h) hexecution

/-- A machine that is executing fails with the fault of a cycle. -/
theorem expected_executing {m : Machine} (hf : m.cycle.result = .error fault) :
    (during .executing (.fault fault)).Expected := by
  refine ⟨?_, ?_⟩
  · rintro _ ⟨⟩
    decide +kernel
  · intro _
    rcases Machine.cycle_error_iff.1 hf with ⟨-, rfl⟩ | ⟨-, hfault⟩
    · exact .inr (.inr ⟨_, rfl⟩)
    · generalize m.nextOpcode = op at hfault
      cases hfault with
      | emptyStack hs => exact .inl ⟨_, _, rfl⟩
      | fullStack hs => exact .inr (.inl ⟨_, _, rfl⟩)
      | access hop hlen => exact .inr (.inr ⟨_, rfl⟩)

/-- A failure of which the program says nothing itself has no cause to look at. -/
theorem expected_of_context?_eq_none (h : f.context? = none) : ∀ g ∈ f.chain, g.Expected := by
  have hf : f.Expected := by
    refine ⟨?_, ?_⟩
    · rw [h]
      nofun
    · rw [h]
      nofun
  cases f with
  | during activity cause | noSurface => cases h
  | outside text | fault fault =>
    intro g hg
    rw [List.mem_singleton.1 hg]
    exact hf

end Failure

namespace Turn

/-- The failures that cut turns short are expected. -/
theorem CutShort.expected {t : Turn} {f : Failure} (h : t.CutShort (.failed f)) : ∀ g ∈ f.chain, g.Expected := by
  cases h with
  | window he hs ho hf => exact hf.expected (by decide +kernel) (Failure.expected_of_context?_eq_none rfl)
  | picture he hs hw ho hf => exact hf.expected (by decide +kernel) (Failure.expected_of_context?_eq_none rfl)
  | surface he ho hf => exact hf.expected (by decide +kernel) (Failure.expected_of_context?_eq_none rfl)
  | render he hu ho hf => exact hf.expected (by decide +kernel) (Failure.expected_of_context?_eq_none rfl)
  | fault he hu hf =>
    obtain ⟨os, m, -, hfault, -⟩ := Runner.update_fault hu
    refine hf.expected_chain ?_ (Failure.expected_of_context?_eq_none rfl)
    rw [(Failure.wraps_message_iff (a := .executing)).1 hf]
    exact Failure.expected_executing hfault

end Turn

namespace Host

variable {h : Host} {d : Delivery} {ds : List Delivery} {t u : Turn} {before later : List Turn} {c c' : Cut}

end Host

namespace Surroundings

variable {s : Surroundings} {options : Options} {h : Host} {t : Turn} {before later : List Turn} {f : Failure}
  {p : Panic}

/-- The host that a session starts, or the failure that keeps it from starting one. -/
def started (s : Surroundings) (options : Options) : Except Failure Host :=
  match s.romFile, s.eventLoopError with
  | .error text, _ => .error (.during (.readingRom options.romPath) (.outside text))
  | .ok _, some text => .error (.during .creatingEventLoop (.outside text))
  | .ok rom, none =>
    match (Host.start options s.random rom 0).1 with
    | .error f => .error (.during .initialising f)
    | .ok h => .ok h

/-- The turns of a session. -/
def turns (s : Surroundings) (options : Options) : List Turn :=
  match s.started options with
  | .error _ => []
  | .ok h => h.turns s.events

/-! ## The start -/

/-- The ways in which a session fails to start. -/
inductive Unstarted (s : Surroundings) (options : Options) : Failure → Prop where
  | file {f : Failure} {text : String} (hfile : s.romFile = .error text)
      (hf : f.Wraps ("Failed to read ROM file " ++ options.romPath) (.outside text)) : Unstarted s options f
  | eventLoop {f : Failure} {rom : List UInt8} {text : String} (hfile : s.romFile = .ok rom)
      (hloop : s.eventLoopError = some text)
      (hf : f.Wraps "Failed to create event loop" (.outside text)) : Unstarted s options f
  | program {f g : Failure} {rom : List UInt8} (hfile : s.romFile = .ok rom) (hloop : s.eventLoopError = none)
      (hlong : 3584 < rom.length) (hf : f.Wraps "Failed to initialize application" g)
      (hg : g.Wraps "Failed to load ROM into CHIP-8 memory" (.fault (.programTooLarge rom.length 3584))) :
      Unstarted s options f

/-- Whatever keeps a session from starting is expected. -/
theorem Unstarted.expected (hf : s.Unstarted options f) : ∀ g ∈ f.chain, g.Expected := by
  cases hf with
  | file hfile hf =>
    refine hf.expected ?_ (Failure.expected_of_context?_eq_none rfl)
    simp only [List.mem_cons, List.not_mem_nil, or_false, not_or]
    exact ⟨Activity.append_path_ne (by decide +kernel), Activity.append_path_ne (by decide +kernel),
      Activity.append_path_ne (by decide +kernel), Activity.append_path_ne (by decide +kernel)⟩
  | eventLoop hfile hloop hf => exact hf.expected (by decide +kernel) (Failure.expected_of_context?_eq_none rfl)
  | program hfile hloop hlong hf hg =>
    exact hf.expected (by decide +kernel) (hg.expected (by decide +kernel) (Failure.expected_of_context?_eq_none rfl))

/-! ## The turns -/

/-- The turns of a session are those of the host that it starts. -/
theorem turns_eq_append_cons (hts : s.turns options = before ++ t :: later) :
    ∃ h, s.started options = .ok h ∧ h.turns s.events = before ++ t :: later := by
  unfold turns at hts
  cases hs : s.started options with
  | error f =>
    rw [hs] at hts
    simp at hts
  | ok h =>
    rw [hs] at hts
    exact ⟨h, rfl, hts⟩

section Conclude

variable {run : List Entry × LoopEnd}

end Conclude

end Surroundings

end Chip8
