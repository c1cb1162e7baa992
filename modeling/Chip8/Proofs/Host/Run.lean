import Chip8.Host.Session
import Chip8.Proofs.Runner.Restart

/-!
# Runs of the host

How a host starts (`start_cases`), how the handling of an event follows from the work that it asks for,
which fields each handler writes, and the induction over a run: what every event establishes, given what the
events before it keep up, holds of every entry (`forall_mem_handleAll`).
-/

namespace Chip8.Host

/-- A program that is too long is refused; any other starts a host without a window, whose clock of frames
begins at once. -/
theorem start_cases (options : Options) (source : RandomSource) (rom : List UInt8) (now : Nat) :
    maxProgramSize < rom.length ∧
        (start options source rom now).1 =
          .error (.ofFault .loadingRom (.programTooLarge rom.length maxProgramSize)) ∨
      rom.length ≤ maxProgramSize ∧ ∃ random, (start options source rom now).1 = .ok
        { runner := ((Runner.new (Machine.powerOn random) options.speed).loadRom rom).runner
          frame := none
          hasWindow := false
          scale := max options.scale 1
          needsRepaint := true
          rom := rom
          lastFrame := now
          failure := none } := by
  rcases Nat.lt_or_ge maxProgramSize rom.length with hlong | hfits
  · refine .inl ⟨hlong, ?_⟩
    simp only [start, Runner.loadRom_result, Machine.load_of_lt hlong]
  · refine .inr ⟨hfits, (options.seed.map RandomSource.ofSeed).getD source, ?_⟩
    cases hseed : options.seed with
    | none => simp only [start, hseed, Runner.loadRom_result, Machine.load_of_le hfits]; rfl
    | some seed => simp only [start, hseed, Runner.loadRom_result, Machine.load_of_le hfits]; rfl

/-- A host that starts has a program that fits, and is as `start_cases` says. -/
theorem start_ok {options : Options} {source : RandomSource} {rom : List UInt8} {now : Nat} {h : Host}
    {reports : Array Report} (hstart : start options source rom now = (.ok h, reports)) :
    rom.length ≤ maxProgramSize ∧ ∃ random, h =
      { runner := ((Runner.new (Machine.powerOn random) options.speed).loadRom rom).runner
        frame := none
        hasWindow := false
        scale := max options.scale 1
        needsRepaint := true
        rom := rom
        lastFrame := now
        failure := none } := by
  rcases start_cases options source rom now with ⟨-, hrefused⟩ | ⟨hfits, random, hok⟩
  · rw [hstart] at hrefused
    cases hrefused
  · rw [hstart] at hok
    exact ⟨hfits, random, Except.ok.inj hok⟩

section Handle

variable {h : Host} {event : Event} {now : Nat} {outside : Outside}

/-- Handling an event that does not fail is the work that it asks for. -/
theorem handle_of_not_failed (hr : ∀ f, (h.react event now outside).cut ≠ some (.failed f)) :
    h.handle event now outside = h.react event now outside := by
  cases hc : (h.react event now outside).cut with
  | none => simp only [handle, hc]
  | some c =>
    cases c with
    | failed f => exact absurd hc (hr f)
    | panicked p => simp only [handle, hc]

/-- After an event that fails the host keeps the failure and leaves. -/
theorem handle_of_failed {f : Failure} (hr : (h.react event now outside).cut = some (.failed f)) :
    h.handle event now outside =
      .failed { (h.react event now outside).host with failure := some f }
        ((h.react event now outside).calls ++ [.exit])
        ((h.react event now outside).reports ++ farewell event f) f := by
  simp only [handle, hr]

/-- What cuts the work of an event short cuts its handling short. -/
theorem handle_cut (h : Host) (event : Event) (now : Nat) (outside : Outside) :
    (h.handle event now outside).cut = (h.react event now outside).cut := by
  cases hr : (h.react event now outside).cut with
  | none => rw [handle_of_not_failed (by rw [hr]; exact nofun), hr]
  | some c =>
    cases c with
    | failed f => rw [handle_of_failed hr]; rfl
    | panicked p => rw [handle_of_not_failed (by rw [hr]; exact nofun), hr]

end Handle

/-! ## What the handlers write -/

theorem onResized_host (h : Host) (size : Size) (outside : Outside) : (h.onResized size outside).host = h := by
  unfold onResized
  cases h.frame with
  | none => rfl
  | some f => cases outside.resizeError <;> rfl

/-- Showing the picture does not change the host. -/
theorem present_host (h : Host) (outside : Outside) (reports : Array Report) :
    (h.present outside reports).host = h := by
  unfold present
  cases h.frame with
  | none => rfl
  | some f => cases outside.renderError <;> rfl

/-- Creating the window touches nothing that has to do with the program. The clock moves and the picture is
replaced once all has gone well. -/
theorem onResumed_writes (h : Host) (now : Nat) (outside : Outside) :
    (h.onResumed now outside).host =
        { h with
          hasWindow := (h.onResumed now outside).host.hasWindow
          frame := (h.onResumed now outside).host.frame
          lastFrame := (h.onResumed now outside).host.lastFrame
          needsRepaint := (h.onResumed now outside).host.needsRepaint } ∧
      ((h.onResumed now outside).cut = none →
        (h.onResumed now outside).host.lastFrame = now ∧ (h.onResumed now outside).host.frame = some .blank) ∧
      ((h.onResumed now outside).cut ≠ none →
        (h.onResumed now outside).host.lastFrame = h.lastFrame ∧ (h.onResumed now outside).host.frame = h.frame) := by
  unfold onResumed
  cases Size.display.scaled? h.scale with
  | none => exact ⟨rfl, nofun, fun _ => ⟨rfl, rfl⟩⟩
  | some asked =>
    simp only [createWindow]
    split
    · exact ⟨rfl, nofun, fun _ => ⟨rfl, rfl⟩⟩
    · split
      · exact ⟨rfl, nofun, fun _ => ⟨rfl, rfl⟩⟩
      · exact ⟨rfl, fun _ => ⟨rfl, rfl⟩, fun hf => absurd rfl hf⟩

theorem hotkey_writes (h : Host) (code : KeyCode) :
    (h.hotkey code).host =
      { h with
        runner := (h.hotkey code).host.runner
        needsRepaint := (h.hotkey code).host.needsRepaint } := by
  unfold hotkey
  cases code with
  | space =>
    simp only
    split <;> rfl
  | backspace =>
    simp only
    split <;> rfl
  | _ => rfl

/-- A key changes the runner at most, and may ask for the picture to be painted. -/
theorem onKey_writes (h : Host) (key : KeyEvent) :
    (h.onKey key).host =
      { h with
        runner := (h.onKey key).host.runner
        needsRepaint := (h.onKey key).host.needsRepaint } := by
  unfold onKey
  cases key.code with
  | none => rfl
  | some code =>
    simp only
    cases code.padKey? with
    | some pad =>
      simp only
      split <;> rfl
    | none =>
      simp only
      split
      · exact h.hotkey_writes code
      · rfl

/-- A frame moves the clock, whether it fails or not, and keeps the picture if there is one. -/
theorem onRedraw_writes (h : Host) (now : Nat) (outside : Outside) :
    (h.onRedraw now outside).host =
        { h with
          runner := (h.onRedraw now outside).host.runner
          frame := (h.onRedraw now outside).host.frame
          needsRepaint := (h.onRedraw now outside).host.needsRepaint
          lastFrame := now } ∧
      (h.onRedraw now outside).host.frame.isSome = h.frame.isSome := by
  unfold onRedraw
  simp only
  split
  · exact ⟨rfl, rfl⟩
  · exact ⟨rfl, rfl⟩
  · split
    · cases hf : h.frame with
      | none =>
        simp [paint, Reaction.failed]
      | some f =>
        simp [paint, present_host]
    · rw [present_host]
      exact ⟨rfl, rfl⟩

/-! ## Induction over a run -/

/-- Let every event that does not panic establish `Q` of itself and the host after it where `P` holds of the host
before, and keep `P` up unless the host leaves. Then `Q` holds of every entry of a run that starts with `P`. -/
theorem forall_mem_handleAll {P : Host → Prop} {Q : Event → Host → Prop}
    (step : ∀ (h : Host) (d : Delivery), P h → (h.handle d.event d.now d.outside).panic? = none →
      Q d.event (h.handle d.event d.now d.outside).host ∧
        (Call.exit ∉ (h.handle d.event d.now d.outside).calls → P (h.handle d.event d.now d.outside).host))
    {h : Host} (hP : P h) (calls : List Call) (reports : Array Report) (ds : List Delivery) :
    ∀ e ∈ (h.handleAll calls reports ds).1, Q e.event e.host := by
  induction ds generalizing h calls reports with
  | nil => exact fun e he => absurd he List.not_mem_nil
  | cons d ds ih =>
    intro e he
    rw [handleAll] at he
    simp only at he
    split at he
    · cases he
    · rename_i hreturns
      obtain ⟨hQ, hkeep⟩ := step h d hP hreturns
      split at he
      · cases List.mem_singleton.1 he
        exact hQ
      · rename_i hexit
        rcases List.mem_cons.1 he with rfl | he
        · exact hQ
        · exact ih (hkeep hexit) [] #[] e he

end Chip8.Host
