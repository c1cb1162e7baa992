import Chip8.Proofs.Machine.Execution

/-!
# Timers over a run

Both timers count the instructions that are carried out and nothing else. `Timer.value_cycle` is what one cycle
does to a timer, `Timer.value_after_of_not_executes` that no other request touches it, and by induction a run
that does not set a timer takes the number of its instructions from it (`Timer.value_afterAll`).
`Machine.timers_count_executed` puts the run behind the last setting together with that setting, which counts
as well.
-/

namespace Chip8

inductive Timer where
  | delay
  | sound
  deriving DecidableEq, Repr

namespace Timer

/-- What a timer stands at. -/
def value : Timer → Machine → Nat
  | .delay, m => m.delayTimer.toNat
  | .sound, m => m.soundTimer.toNat

/-- The register that an instruction sets a timer from. -/
def source? : Timer → Opcode → Option Nibble
  | .delay, .setDelayTimer x => some x
  | .sound, .setSoundTimer x => some x
  | _, _ => none

variable {m : Machine} {r : Request} {rs : List Request}

theorem toNat_pred (b : UInt8) : (UInt8.ofNat (b.toNat - 1)).toNat = b.toNat - 1 := by
  have := b.toNat_lt
  rw [UInt8.toNat_ofNat']
  omega

/-- A cycle that succeeds takes one from a timer, or from the register that its instruction sets the timer
from. -/
theorem value_cycle (t : Timer) {o : Outcome} (h : m.cycle.result = .ok o) :
    t.value m.cycle.machine = (((t.source? m.nextOpcode).map fun x => (m.reg x).toNat).getD (t.value m)) - 1 := by
  rw [Machine.cycle_machine_of_ok h]
  generalize m.nextOpcode = op
  cases t with
  | delay => cases op <;> exact toNat_pred _
  | sound => cases op <;> exact toNat_pred _

theorem value_cycle_of_set {t : Timer} {o : Outcome} (h : m.cycle.result = .ok o) {x : Nibble}
    (hx : t.source? m.nextOpcode = some x) : t.value m.cycle.machine = (m.reg x).toNat - 1 := by
  rw [t.value_cycle h, hx]
  rfl

theorem value_cycle_of_not_set {t : Timer} {o : Outcome} (h : m.cycle.result = .ok o)
    (hx : t.source? m.nextOpcode = none) : t.value m.cycle.machine = t.value m - 1 := by
  rw [t.value_cycle h, hx]
  rfl

/-- Only instructions and resets touch a timer. -/
theorem value_after_of_not_executes (t : Timer) (hr : r ≠ .reset) (h : ¬m.executes r = true) :
    t.value (m.after r) = t.value m := by
  rw [Machine.after_of_not_executes hr h]
  cases t <;> rfl

/-- A run that does not set a timer takes the number of its instructions from it. -/
theorem value_afterAll (t : Timer) (hrs : Request.reset ∉ rs)
    (hset : ∀ s ∈ m.executed rs, t.source? s.nextOpcode = none) :
    t.value (m.afterAll rs) = t.value m - (m.executed rs).length := by
  induction rs generalizing m with
  | nil => rfl
  | cons r rs ih =>
    obtain ⟨hr, hrest⟩ := List.ne_and_not_mem_of_not_mem_cons hrs
    by_cases he : m.executes r = true
    · obtain ⟨rfl, o, ho⟩ := Machine.executes_iff.1 he
      rw [Machine.executed_cons_of_executes he] at hset ⊢
      obtain ⟨hfirst, hlater⟩ := List.forall_mem_cons.1 hset
      have hstep : t.value m.cycle.machine = t.value m - 1 := value_cycle_of_not_set ho hfirst
      show t.value (m.cycle.machine.afterAll rs) = _
      rw [ih hrest hlater, hstep, List.length_cons]
      omega
    · rw [Machine.executed_cons_of_not_executes he] at hset ⊢
      show t.value ((m.after r).afterAll rs) = _
      rw [ih hrest hset, t.value_after_of_not_executes (Ne.symm hr) he]

theorem selfContained_of_source? {t : Timer} {op : Opcode} {x : Nibble} (h : t.source? op = some x) :
    op.selfContained = true := by
  cases t with
  | delay =>
    cases op with
    | setDelayTimer => rfl
    | _ => cases h
  | sound =>
    cases op with
    | setSoundTimer => rfl
    | _ => cases h

end Timer

namespace Machine

variable {m : Machine} {rs : List Request}

theorem shouldBeep_iff : m.shouldBeep = true ↔ 0 < Timer.sound.value m := by
  rw [shouldBeep, decide_eq_true_iff, UInt8.lt_iff_toNat_lt]
  rfl

/-- A timer that an instruction reads is read before it ticks. -/
theorem reg_cycle_of_readDelayTimer {o : Outcome} (h : m.cycle.result = .ok o) {x : Nibble}
    (hop : m.nextOpcode = .readDelayTimer x) : (m.cycle.machine.reg x).toNat = Timer.delay.value m := by
  rw [cycle_machine_of_ok h, hop]
  show (((m.setReg x m.delayTimer).reg x).toNat) = _
  rw [reg_setReg, if_pos rfl]
  rfl

/-- A cycle that waits for a key sets no timer. -/
theorem source?_of_waitingForKey (t : Timer) (h : m.cycle.result = .ok .waitingForKey) :
    t.source? m.nextOpcode = none := by
  obtain ⟨-, hr, -⟩ := cycle_ok h
  obtain ⟨⟨x, hop⟩, -⟩ := outcome_eq_waitingForKey_iff.1 (execute_ok hr).symm
  rw [hop]
  cases t <;> rfl

/-- Without a reset, a timer stands at the value last set less the instructions carried out from that one on
or, if none set it, at the value that it started from less all of them, and at zero where this is below zero.
Cycles that fault do not count, cycles that wait for a key do. -/
theorem timers_count_executed (hrs : Request.reset ∉ rs) (t : Timer) :
    ((∀ s ∈ m.executed rs, t.source? s.nextOpcode = none) →
        t.value (m.afterAll rs) = t.value m - (m.executed rs).length) ∧
      (∀ before s later x, m.executed rs = before ++ s :: later → t.source? s.nextOpcode = some x →
        (∀ s' ∈ later, t.source? s'.nextOpcode = none) →
          t.value (m.afterAll rs) = (s.reg x).toNat - (s :: later).length) ∧
      ((m.afterAll rs).shouldBeep = true ↔ 0 < Timer.sound.value (m.afterAll rs)) ∧
      ∀ s : Machine,
        (∀ f, s.cycle.result = .error f → s.executed [.cycle] = [] ∧ t.value s.cycle.machine = t.value s) ∧
        (s.cycle.result = .ok .waitingForKey →
          s.executed [.cycle] = [s] ∧ t.value s.cycle.machine = t.value s - 1) ∧
        (∀ x, s.pc.toNat + 2 ≤ memorySize → t.source? s.nextOpcode = some x → s.executed [.cycle] = [s]) ∧
        ∀ o x, s.cycle.result = .ok o → s.nextOpcode = .readDelayTimer x →
          (s.cycle.machine.reg x).toNat = Timer.delay.value s := by
  refine ⟨t.value_afterAll hrs, ?_, shouldBeep_iff, fun s => ⟨?_, ?_, ?_, ?_⟩⟩
  · intro before s later x hsplit hx hlater
    obtain ⟨rs₁, rs₂, rfl, rfl, -, ⟨o, ho⟩, rfl⟩ := executed_eq_append_cons hsplit
    have hrs₂ : Request.reset ∉ rs₂ := fun h => hrs (List.mem_append_right _ (List.mem_cons_of_mem _ h))
    have hrun : m.afterAll (rs₁ ++ .cycle :: rs₂) = (m.afterAll rs₁).cycle.machine.afterAll rs₂ :=
      List.foldl_append
    rw [hrun, t.value_afterAll hrs₂ hlater, Timer.value_cycle_of_set ho hx, List.length_cons]
    omega
  · intro f hf
    have hidle := not_executes_of_error hf
    have hkeep : t.value (s.after .cycle) = t.value s := t.value_after_of_not_executes nofun hidle
    exact ⟨executed_cons_of_not_executes hidle, hkeep⟩
  · intro hwait
    exact ⟨executed_cycle_of_ok hwait, Timer.value_cycle_of_not_set hwait (source?_of_waitingForKey t hwait)⟩
  · intro x hle hx
    exact executed_cycle_of_ok (cycle_ok_of_selfContained hle (Timer.selfContained_of_source? hx))
  · intro o x ho hop
    exact reg_cycle_of_readDelayTimer ho hop

/-- A program that sets the delay timer to five, faults, waits for a key and reads the timer. -/
theorem timers_count_executed_wait :
    let program := [0x60, 0x05, 0xF0, 0x15, 0x00, 0xEE, 0xF1, 0x0A, 0xF2, 0x07]
    let m := ((Machine.withSeed 7).load program).machine
    let rs : List Request := [.cycle, .cycle, .putKey 3 true, .load [0x12, 0x00], .cycle, .cycle]
    m.Reachable ∧ m.cycle.machine.nextOpcode = .setDelayTimer 0 ∧ m.cycle.machine.reg 0 = 5 ∧
      (m.cycle.machine.cycle.machine.executed rs).length = 3 ∧
      Timer.delay.value (m.afterAll (.cycle :: .cycle :: rs)) = 1 ∧
      Timer.sound.value (m.afterAll (.cycle :: .cycle :: rs)) = 0 := by
  intro program m rs
  have hm : m.Reachable := (Reachable.powerOn _).after (.load program)
  have hruns : (m.executes .cycle = true ∧ m.cycle.machine.executes .cycle = true) ∧
      (m.cycle.machine.nextOpcode = .setDelayTimer 0 ∧ m.cycle.machine.reg 0 = 5) ∧
      (m.cycle.machine.cycle.machine.executed rs).length = 3 ∧
      (∀ s ∈ m.cycle.machine.cycle.machine.executed rs, Timer.delay.source? s.nextOpcode = none) ∧
      ∀ s ∈ m.executed (.cycle :: .cycle :: rs), Timer.sound.source? s.nextOpcode = none := by
    decide +kernel
  obtain ⟨⟨hload, hset⟩, ⟨hop, hreg⟩, hlen, hdelay, hsound⟩ := hruns
  have hsplit : m.executed (.cycle :: .cycle :: rs) =
      [m] ++ m.cycle.machine :: m.cycle.machine.cycle.machine.executed rs := by
    rw [executed_cons_of_executes hload, executed_cons_of_executes hset, List.singleton_append]
  have hreset : Request.reset ∉ Request.cycle :: .cycle :: rs := by decide
  have hvalue := (timers_count_executed hreset .delay).2.1 _ _ _ _ hsplit (by rw [hop]; rfl) hdelay
  have hsilent := (timers_count_executed hreset .sound).1 hsound
  rw [List.length_cons, hlen, hreg] at hvalue
  have hstart : Timer.sound.value m = 0 := rfl
  rw [hstart, Nat.zero_sub] at hsilent
  exact ⟨hm, hop, hreg, hlen, hvalue, hsilent⟩

end Machine

end Chip8
