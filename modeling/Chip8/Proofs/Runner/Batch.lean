import Chip8.Proofs.Machine.Effect
import Chip8.Runner.Basic

/-!
# Batches of cycles

An update of a runner is a batch of cycles, however its clock counts. `Machine.Cycles` lists the
outcomes of cycles that succeed one after the other, and `Runner.update_ok` says that an update that
comes to its end is such a list and that its status counts it. Nothing here depends on the arithmetic of
clock numbers.
-/

namespace Chip8

/-- Cycles that succeed one after the other, with what each of them told its caller. -/
inductive Machine.Cycles : Machine → List Outcome → Machine → Prop where
  | none (m : Machine) : Cycles m [] m
  | more {m m' : Machine} {o : Outcome} {os : List Outcome} (h : m.cycle.result = .ok o)
      (rest : Cycles m.cycle.machine os m') : Cycles m (o :: os) m'

namespace Machine.Cycles

/-- As long as no cycle reports a change of the display, there is none. -/
theorem display {m m' : Machine} {os : List Outcome} (h : m.Cycles os m')
    (hos : .displayUpdated ∉ os) : m'.display = m.display := by
  induction h with
  | none m => rfl
  | more hc _ ih =>
    obtain ⟨ho, hos⟩ := List.ne_and_not_mem_of_not_mem_cons hos
    exact (ih hos).trans (cycle_display_of_ok hc (Ne.symm ho))

theorem append {m m₁ m₂ : Machine} {os₁ os₂ : List Outcome} (h₁ : m.Cycles os₁ m₁)
    (h₂ : m₁.Cycles os₂ m₂) : m.Cycles (os₁ ++ os₂) m₂ := by
  induction h₁ with
  | none m => exact h₂
  | more hc _ ih => exact .more hc (ih h₂)

/-- From one machine, the same number of cycles leads to the same machine. -/
theorem unique {m m₁ m₂ : Machine} {os₁ os₂ : List Outcome} (h₁ : m.Cycles os₁ m₁)
    (h₂ : m.Cycles os₂ m₂) (hlen : os₁.length = os₂.length) : m₁ = m₂ := by
  induction h₁ generalizing os₂ with
  | none m =>
    cases List.length_eq_zero_iff.1 hlen.symm
    cases h₂
    rfl
  | more _ _ ih =>
    cases h₂ with
    | none => cases hlen
    | more _ rest => exact ih rest (Nat.succ.inj hlen)

/-- The first of some cycles, and those that are left. -/
theorem split {m m' : Machine} {os : List Outcome} (h : m.Cycles os m') {n : Nat} (hn : n ≤ os.length) :
    ∃ os₁ os₂ m₁, m.Cycles os₁ m₁ ∧ m₁.Cycles os₂ m' ∧ os₁.length = n ∧ os₁.length + os₂.length = os.length := by
  induction h generalizing n with
  | none m =>
    obtain rfl : n = 0 := Nat.le_zero.1 hn
    exact ⟨[], [], m, .none m, .none m, rfl, rfl⟩
  | @more m m' o os hc rest ih =>
    cases n with
    | zero => exact ⟨[], o :: os, m, .none m, .more hc rest, rfl, Nat.zero_add _⟩
    | succ n =>
      obtain ⟨os₁, os₂, m₁, h₁, h₂, hlen, hsum⟩ := ih (Nat.le_of_succ_le_succ hn)
      refine ⟨o :: os₁, os₂, m₁, .more hc h₁, h₂, congrArg Nat.succ hlen, ?_⟩
      rw [List.length_cons, List.length_cons, ← hsum]
      omega

end Machine.Cycles

namespace Runner

variable {τ : Type} [Sub τ] [LE τ] [DecidableLE τ]

/-! ## The loop

In the order of its turns: a cycle faults, a cycle cannot be counted, a cycle is counted and the loop goes
on, the account does not hold the time of a cycle. -/

section Drain

variable {step : τ} {room : Nat} {status : Status} {reports : Array Report} {r : Runner τ}

/-- A drain changes the machine and the account of a runner and nothing else. -/
theorem drain_writes :
    (drain step room status reports r).runner =
      { r with
        machine := (drain step room status reports r).runner.machine
        pending := (drain step room status reports r).runner.pending } := by
  fun_induction drain step room status reports r with
  | case1 => rfl
  | case2 => rfl
  | case3 _ _ _ _ _ _ _ _ _ _ _ _ _ _ ih => rw [ih]
  | case4 => rfl

/-- A drain that comes to its end ran cycles that succeeded, and its status counts them on top of those
that it started from. -/
theorem drain_ok {status' : Status} (h : (drain step room status reports r).result = .ok status') :
    ∃ os, r.machine.Cycles os (drain step room status reports r).runner.machine ∧
      status'.cycles = status.cycles + os.length ∧
      status'.displayUpdated = (status.displayUpdated || os.contains .displayUpdated) := by
  fun_induction drain step room status reports r with
  | case1 => cases h
  | case2 => cases h
  | case3 status reports machine speed paused pending hle left o m new room hc status₁ ih =>
    -- `status₁` has counted this cycle already, so the rest counts on top of it
    obtain ⟨os, hcycles, hcount, hdrawn⟩ := ih h
    refine ⟨o :: os, .more (by rw [hc]) (by rw [hc]; exact hcycles), ?_, ?_⟩
    · rw [hcount, List.length_cons, Nat.add_assoc, Nat.add_comm 1]
    · rw [hdrawn, List.contains_cons, Bool.or_assoc]
      cases o <;> rfl
  | case4 =>
    cases h
    exact ⟨[], .none _, rfl, (Bool.or_false _).symm⟩

/-- A drain that faults ran cycles that succeeded and, last of all, the one that faulted. -/
theorem drain_fault {f : Fault} (h : (drain step room status reports r).result = .error (.fault f)) :
    ∃ os m, r.machine.Cycles os m ∧ m.cycle.result = .error f ∧
      (drain step room status reports r).runner.machine = m.cycle.machine := by
  fun_induction drain step room status reports r with
  | case1 room status reports machine speed paused pending hle left f' m new hc =>
    cases h
    exact ⟨[], machine, .none _, by rw [hc], by rw [hc]⟩
  | case2 => cases h
  | case3 status reports machine speed paused pending hle left o m new room hc status₁ ih =>
    obtain ⟨os, m', hcycles, hfault, hmachine⟩ := ih h
    exact ⟨o :: os, m', .more (by rw [hc]) (by rw [hc]; exact hcycles), hfault, hmachine⟩
  | case4 => cases h

/-- A drain that cannot count any further ran one cycle more than it had room for. -/
theorem drain_overrun (h : (drain step room status reports r).result = .error .overrun) :
    ∃ os, r.machine.Cycles os (drain step room status reports r).runner.machine ∧
      os.length = room + 1 := by
  fun_induction drain step room status reports r with
  | case1 => cases h
  | case2 status reports machine speed paused pending hle left o m new hc =>
    -- this cycle succeeded, only its count does not fit
    exact ⟨[o], .more (by rw [hc]) (by rw [hc]; exact .none _), rfl⟩
  | case3 status reports machine speed paused pending hle left o m new room hc status₁ ih =>
    obtain ⟨os, hcycles, hlen⟩ := ih h
    exact ⟨o :: os, .more (by rw [hc]) (by rw [hc]; exact hcycles), congrArg Nat.succ hlen⟩
  | case4 => cases h

/-- Whatever every cycle preserves, faults included, a drain preserves. -/
theorem drain_machine {P : Machine → Prop} (hcycle : ∀ m, P m → P m.cycle.machine) (h : P r.machine) :
    P (drain step room status reports r).runner.machine := by
  fun_induction drain step room status reports r with
  | case1 room status reports machine speed paused pending hle left f m new hc =>
    have hm := hcycle machine h
    rwa [hc] at hm
  | case2 status reports machine speed paused pending hle left o m new hc =>
    have hm := hcycle machine h
    rwa [hc] at hm
  | case3 status reports machine speed paused pending hle left o m new room hc status₁ ih =>
    apply ih
    have hm := hcycle machine h
    rwa [hc] at hm
  | case4 => exact h

end Drain

/-! ## Whole updates -/

section Update

variable [ClockNumber τ] [Add τ] [Div τ] {r : Runner τ} {dt : τ}

/-- While paused, time passes without effect. -/
theorem update_of_paused (h : r.paused = true) : r.update dt = ⟨.ok ⟨0, false⟩, r, #[]⟩ := by
  obtain ⟨machine, speed, paused, pending⟩ := r
  cases h
  rfl

theorem update_of_running (h : r.paused = false) :
    r.update dt =
      drain (ClockNumber.ofNat 1 / r.speed) maxCycles ⟨0, false⟩ #[] { r with pending := r.pending + dt } := by
  obtain ⟨machine, speed, paused, pending⟩ := r
  cases h
  rfl

/-- An update changes the machine and the account of a runner and nothing else. -/
theorem update_writes :
    (r.update dt).runner =
      { r with machine := (r.update dt).runner.machine, pending := (r.update dt).runner.pending } := by
  rcases Bool.eq_false_or_eq_true r.paused with hp | hp
  · rw [update_of_paused hp]
  · rw [update_of_running hp]
    exact drain_writes

/-- Whatever every cycle preserves, faults included, an update preserves. -/
theorem update_machine {P : Machine → Prop} (hcycle : ∀ m, P m → P m.cycle.machine) (h : P r.machine) :
    P (r.update dt).runner.machine := by
  cases hp : r.paused with
  | true =>
    rw [update_of_paused hp]
    exact h
  | false =>
    rw [update_of_running hp]
    exact drain_machine hcycle h

/-- An update that comes to its end ran cycles that succeeded, and its status counts them. -/
theorem update_ok {status : Status} (h : (r.update dt).result = .ok status) :
    ∃ os, r.machine.Cycles os (r.update dt).runner.machine ∧ status.cycles = os.length ∧
      status.displayUpdated = os.contains .displayUpdated := by
  cases hp : r.paused with
  | true =>
    rw [update_of_paused hp] at h ⊢
    cases h
    exact ⟨[], .none _, rfl, rfl⟩
  | false =>
    rw [update_of_running hp] at h ⊢
    obtain ⟨os, hcycles, hcount, hdrawn⟩ := drain_ok h
    exact ⟨os, hcycles, by rw [hcount, Nat.zero_add], hdrawn⟩

/-- An update that faults ran cycles that succeeded and, last of all, the one that faulted. -/
theorem update_fault {f : Fault} (h : (r.update dt).result = .error (.fault f)) :
    ∃ os m, r.machine.Cycles os m ∧ m.cycle.result = .error f ∧
      (r.update dt).runner.machine = m.cycle.machine := by
  cases hp : r.paused with
  | true =>
    rw [update_of_paused hp] at h
    cases h
  | false =>
    rw [update_of_running hp] at h ⊢
    exact drain_fault h

/-- An update overruns only where more cycles succeed than it can count. -/
theorem update_overrun (h : (r.update dt).result = .error .overrun) :
    ∃ os, r.machine.Cycles os (r.update dt).runner.machine ∧ os.length = maxCycles + 1 := by
  cases hp : r.paused with
  | true =>
    rw [update_of_paused hp] at h
    cases h
  | false =>
    rw [update_of_running hp] at h ⊢
    exact drain_overrun h

/-- An update that reports no change of the display leaves it as it is. -/
theorem update_display {status : Status} (h : (r.update dt).result = .ok status)
    (hstatus : status.displayUpdated = false) : (r.update dt).runner.machine.display = r.machine.display := by
  obtain ⟨os, hcycles, -, hdrawn⟩ := update_ok h
  rw [hdrawn] at hstatus
  refine hcycles.display ?_
  intro hmem
  rw [List.contains_iff_mem.2 hmem] at hstatus
  cases hstatus

end Update

end Runner

end Chip8
