import Mathlib.Control.Monad.Basic
import Chip8.Proofs.Runner.Batch

/-!
# Slices of time

To a machine it makes no difference how elapsed time is cut into updates. `Runner.Updates` lists updates
that all come to their end. Together they are one list of cycles (`Updates.cycles`), so that only the
number of these decides what becomes of the machine. `Runner.update_runs_cycles` says so next to what a
single update does.
-/

namespace Chip8.Runner

variable {τ : Type} [ClockNumber τ] [Add τ] [Sub τ] [Div τ] [LE τ] [DecidableLE τ]

/-- Updates that come to their end one after the other, with the status of each. -/
inductive Updates : Runner τ → List τ → List Status → Runner τ → Prop where
  | none (r : Runner τ) : Updates r [] [] r
  | more {r last : Runner τ} {dt : τ} {dts : List τ} {status : Status} {statuses : List Status}
      (h : (r.update dt).result = .ok status) (rest : Updates (r.update dt).runner dts statuses last) :
      Updates r (dt :: dts) (status :: statuses) last

/-- The cycles that updates with these statuses ran. -/
def totalCycles : List Status → Nat
  | [] => 0
  | status :: statuses => status.cycles + totalCycles statuses

/-- Updates that all come to their end run one list of cycles. -/
theorem Updates.cycles {r last : Runner τ} {dts : List τ} {statuses : List Status}
    (h : r.Updates dts statuses last) :
    ∃ os, r.machine.Cycles os last.machine ∧ os.length = totalCycles statuses := by
  induction h with
  | none r => exact ⟨[], .none _, rfl⟩
  | more h _ ih =>
    obtain ⟨os, hcycles, hcount, -⟩ := update_ok h
    obtain ⟨os', hcycles', hcount'⟩ := ih
    refine ⟨os ++ os', hcycles.append hcycles', ?_⟩
    rw [List.length_append, hcount', ← hcount, totalCycles]

/-- However the same number of cycles is spread over updates, it leads to the same machine. -/
theorem Updates.machine_eq {r r' last last' : Runner τ} {dts dts' : List τ} {statuses statuses' : List Status}
    (h : r.Updates dts statuses last) (h' : r'.Updates dts' statuses' last')
    (hm : r.machine = r'.machine) (hn : totalCycles statuses = totalCycles statuses') :
    last.machine = last'.machine := by
  obtain ⟨os, hcycles, hlen⟩ := h.cycles
  obtain ⟨os', hcycles', hlen'⟩ := h'.cycles
  rw [hm] at hcycles
  exact hcycles.unique hcycles' (by rw [hlen, hlen', hn])

/-- Whatever the arithmetic of its clock, an update is nothing but cycles: those that its status counts, or
those before a fault and the one that faults, or more than it can count. It changes neither speed nor
pause, and updates in which the same number of cycles succeeds leave equal machines equal. -/
theorem update_runs_cycles (r : Runner τ) (dt : τ) :
    (r.paused = true → r.update dt = ⟨.ok ⟨0, false⟩, r, #[]⟩) ∧
      (∀ status, (r.update dt).result = .ok status →
        ∃ os, r.machine.Cycles os (r.update dt).runner.machine ∧ status.cycles = os.length ∧
          (status.displayUpdated = true ↔ .displayUpdated ∈ os) ∧
          (status.displayUpdated = false → (r.update dt).runner.machine.display = r.machine.display)) ∧
      (∀ f, (r.update dt).result = .error (.fault f) →
        ∃ os m, r.machine.Cycles os m ∧ m.cycle.result = .error f ∧
          (r.update dt).runner.machine = m.cycle.machine) ∧
      ((r.update dt).result = .error .overrun →
        ∃ os, r.machine.Cycles os (r.update dt).runner.machine ∧ os.length = UInt32.size) ∧
      (r.update dt).runner.speed = r.speed ∧ (r.update dt).runner.paused = r.paused ∧
      (∀ (r' last last' : Runner τ) (dts dts' : List τ) (statuses statuses' : List Status),
        r.machine = r'.machine → r.Updates dts statuses last → r'.Updates dts' statuses' last' →
          totalCycles statuses = totalCycles statuses' → last.machine = last'.machine) := by
  refine ⟨update_of_paused, ?_, fun f => update_fault, update_overrun, ?_, ?_, ?_⟩
  · intro status h
    obtain ⟨os, hcycles, hcount, hdrawn⟩ := update_ok h
    refine ⟨os, hcycles, hcount, ?_, update_display h⟩
    rw [hdrawn, List.contains_iff_mem]
  · rw [update_writes]
  · rw [update_writes]
  · intro r' last last' dts dts' statuses statuses' hm h h' hn
    exact h.machine_eq h' hm hn

/-- A runner whose program clears the display and then returns from nowhere. -/
def clearThenReturn (speed : Float) : Runner Float :=
  ((Runner.new (Machine.withSeed 1) speed).loadRom [0x00, 0xE0, 0x00, 0xEE]).runner

/-- The first cycle runs in one update or, at a greater speed, in the second of two; a longer update ends
with the fault of the second cycle. -/
theorem update_runs_cycles_clear :
    ((clearThenReturn 400).update 0.003).result = .ok ⟨1, true⟩ ∧
      ((clearThenReturn 1000).update 0.0007).result = .ok ⟨0, false⟩ ∧
      (((clearThenReturn 1000).update 0.0007).runner.update 0.0007).result = .ok ⟨1, true⟩ ∧
      ((clearThenReturn 400).update 1).result = .error (.fault (.stackUnderflow 0x202 0x00EE)) ∧
      (∃ os, (clearThenReturn 400).machine.Cycles os ((clearThenReturn 400).update 0.003).runner.machine ∧
        1 = os.length ∧ .displayUpdated ∈ os) ∧
      (∃ os m, (clearThenReturn 400).machine.Cycles os m ∧
        m.cycle.result = .error (.stackUnderflow 0x202 0x00EE) ∧
        ((clearThenReturn 400).update 1).runner.machine = m.cycle.machine) ∧
      ((clearThenReturn 400).update 0.003).runner.machine =
        (((clearThenReturn 1000).update 0.0007).runner.update 0.0007).runner.machine ∧
      (clearThenReturn 400).pause.update 1 = ⟨.ok ⟨0, false⟩, (clearThenReturn 400).pause, #[]⟩ := by
  have hresults : ((clearThenReturn 400).update 0.003).result = .ok ⟨1, true⟩ ∧
      ((clearThenReturn 1000).update 0.0007).result = .ok ⟨0, false⟩ ∧
      (((clearThenReturn 1000).update 0.0007).runner.update 0.0007).result = .ok ⟨1, true⟩ ∧
      ((clearThenReturn 400).update 1).result = .error (.fault (.stackUnderflow 0x202 0x00EE)) := by
    decide +kernel
  obtain ⟨hslow, hidle, hfast, hfault⟩ := hresults
  -- the speed is no part of the machine
  have hmachine (speed : Float) : (clearThenReturn speed).machine =
      ((Machine.withSeed 1).reset.machine.load [0x00, 0xE0, 0x00, 0xEE]).machine := rfl
  obtain ⟨-, hok, -, -, -, -, hslices⟩ := update_runs_cycles (clearThenReturn 400) 0.003
  obtain ⟨os, hcycles, hlen, hdrawn, -⟩ := hok _ hslow
  refine ⟨hslow, hidle, hfast, hfault, ⟨os, hcycles, hlen, hdrawn.1 rfl⟩, ?_, ?_, ?_⟩
  · exact (update_runs_cycles (clearThenReturn 400) 1).2.2.1 _ hfault
  · exact hslices (clearThenReturn 1000) _ _ [0.003] [0.0007, 0.0007] [⟨1, true⟩] [⟨0, false⟩, ⟨1, true⟩]
      ((hmachine 400).trans (hmachine 1000).symm) (.more hslow (.none _))
      (.more hidle (.more hfast (.none _))) rfl
  · exact (update_runs_cycles (clearThenReturn 400).pause 1).1 rfl

end Chip8.Runner
