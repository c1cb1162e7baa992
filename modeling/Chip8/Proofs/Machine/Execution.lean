import Chip8.Machine.Run
import Chip8.Proofs.Machine.WriteSet

/-!
# Instructions carried out

Of all requests only a cycle that succeeds carries an instruction out. `Machine.executed` lists the machines
of a history that are about to do so, which gives its instructions a number and an order whatever faults,
programs, keys and resets lie between them. `executed_eq_append_cons` goes back from one of these machines to
its place in the history, and `after_of_not_executes` says what the other requests can touch.
-/

namespace Chip8

/-- Whether an instruction needs neither the stack nor memory. -/
def Opcode.selfContained : Opcode → Bool
  | .ret | .call _ | .draw .. | .bcd _ | .storeRegs _ | .loadRegs _ => false
  | _ => true

namespace Machine

/-- Whether a request carries an instruction out. -/
def executes (m : Machine) : Request → Bool
  | .cycle => m.cycle.result.isOk
  | _ => false

/-- The machines of a history whose next request carries an instruction out, in their order. -/
def executed (m : Machine) : List Request → List Machine
  | [] => []
  | r :: rs => if m.executes r then m :: (m.after r).executed rs else (m.after r).executed rs

variable {m s : Machine} {r : Request} {rs : List Request}

theorem executes_iff : m.executes r = true ↔ r = .cycle ∧ ∃ o, m.cycle.result = .ok o := by
  cases r with
  | cycle => cases hr : m.cycle.result <;> simp [executes, hr, Except.isOk, Except.toBool]
  | _ => simp [executes]

theorem executed_cons_of_executes (h : m.executes .cycle = true) :
    m.executed (.cycle :: rs) = m :: m.cycle.machine.executed rs :=
  if_pos h

theorem executed_cons_of_not_executes (h : ¬m.executes r = true) :
    m.executed (r :: rs) = (m.after r).executed rs :=
  if_neg h

theorem mem_executed_cons (h : s ∈ (m.after r).executed rs) : s ∈ m.executed (r :: rs) := by
  by_cases he : m.executes r = true
  · obtain ⟨rfl, -⟩ := executes_iff.1 he
    rw [executed_cons_of_executes he]
    exact List.mem_cons_of_mem m h
  · rwa [executed_cons_of_not_executes he]

/-- Of a single cycle that succeeds, the list is the machine before it. -/
theorem executed_cycle_of_ok {o : Outcome} (h : m.cycle.result = .ok o) : m.executed [.cycle] = [m] :=
  executed_cons_of_executes (executes_iff.2 ⟨rfl, o, h⟩)

theorem not_executes_of_error {f : Fault} (h : m.cycle.result = .error f) : ¬m.executes .cycle = true := by
  intro he
  obtain ⟨-, o, ho⟩ := executes_iff.1 he
  cases h.symm.trans ho

/-- Each machine on the list is one that the history leads to and whose cycle succeeds; what stands before it
on the list was carried out before, and what stands behind it afterwards. -/
theorem executed_eq_append_cons {before later : List Machine} (h : m.executed rs = before ++ s :: later) :
    ∃ rs₁ rs₂, rs = rs₁ ++ .cycle :: rs₂ ∧ m.afterAll rs₁ = s ∧ m.executed rs₁ = before ∧
      (∃ o, s.cycle.result = .ok o) ∧ s.cycle.machine.executed rs₂ = later := by
  induction rs generalizing m before with
  | nil => exact absurd h.symm (by simp [executed])
  | cons r rs ih =>
    by_cases hr : m.executes r = true
    · obtain ⟨rfl, hok⟩ := executes_iff.1 hr
      rw [executed_cons_of_executes hr] at h
      cases before with
      | nil =>
        obtain ⟨rfl, hlater⟩ := List.cons.inj h
        exact ⟨[], rs, rfl, rfl, rfl, hok, hlater⟩
      | cons first before =>
        obtain ⟨rfl, hrest⟩ := List.cons.inj h
        obtain ⟨rs₁, rs₂, rfl, hs, hbefore, hok', hlater⟩ := ih hrest
        exact ⟨.cycle :: rs₁, rs₂, rfl, hs, by rw [executed_cons_of_executes hr, hbefore], hok', hlater⟩
    · rw [executed_cons_of_not_executes hr] at h
      obtain ⟨rs₁, rs₂, rfl, hs, hbefore, hok, hlater⟩ := ih h
      exact ⟨r :: rs₁, rs₂, rfl, hs, by rw [executed_cons_of_not_executes hr, hbefore], hok, hlater⟩

theorem cycle_ok_of_mem_executed (h : s ∈ m.executed rs) : ∃ o, s.cycle.result = .ok o := by
  obtain ⟨before, later, h⟩ := List.append_of_mem h
  obtain ⟨-, -, -, -, -, hok, -⟩ := executed_eq_append_cons h
  exact hok

theorem not_faults_of_selfContained {op : Opcode} (h : op.selfContained = true) (f : Fault) : ¬m.Faults op f := by
  intro hf
  cases hf with
  | emptyStack => cases h
  | fullStack => cases h
  | access hop =>
    cases op with
    | draw | bcd | storeRegs | loadRegs => cases h
    | _ => cases hop

/-- An instruction that needs neither the stack nor memory is carried out wherever it is fetched. -/
theorem cycle_ok_of_selfContained (hle : m.pc.toNat + 2 ≤ memorySize) (h : m.nextOpcode.selfContained = true) :
    m.cycle.result = .ok (m.poised.outcome m.nextOpcode) := by
  rw [cycle_of_not_faults hle (not_faults_of_selfContained h)]

/-- A cycle that carries nothing out touches the counter and the recorded word at most. -/
theorem cycle_of_not_executes (h : ¬m.executes .cycle = true) :
    m.cycle.machine = { m with pc := m.cycle.machine.pc, word := m.cycle.machine.word } := by
  rcases m.cycle_cases with hlt | ⟨hle, ⟨f, hf⟩ | hf⟩
  · rw [cycle_of_lt hlt]
  · rw [cycle_of_faults hle hf]
    rfl
  · exact absurd (executes_iff.2 ⟨rfl, _, by rw [cycle_of_not_faults hle hf]⟩) h

/-- A request that carries nothing out and does not reset touches the memory, the keypad, the counter and the
recorded word at most. -/
theorem after_of_not_executes (hr : r ≠ .reset) (h : ¬m.executes r = true) :
    m.after r =
      { m with
        memory := (m.after r).memory
        pc := (m.after r).pc
        keypad := (m.after r).keypad
        word := (m.after r).word } := by
  cases r with
  | cycle =>
    rw [after, cycle_of_not_executes h]
  | load rom => rw [after, load_writes]
  | reset => exact absurd rfl hr
  | putKey key down => rw [after, putKey_writes]

end Machine

end Chip8
