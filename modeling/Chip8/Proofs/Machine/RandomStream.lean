import Chip8.Proofs.Machine.Execution

/-!
# Random numbers over a history

A machine draws its random bytes from one stream, in order, and nothing but the instruction that draws moves
the stream on. `Machine.draws` lists the machines of a history that are about to draw, and the k-th of them
stands at place k of the stream (`random_of_getElem?_draws`), so that histories from the same seed agree on
every draw that both of them reach, whatever else they differ in (`Machine.draws_follow_seed`).
-/

namespace Chip8

/-- Whether an instruction draws a random byte. -/
def Opcode.drawsByte : Opcode → Bool
  | .random .. => true
  | _ => false

theorem Opcode.drawsByte_iff {op : Opcode} : op.drawsByte = true ↔ ∃ x kk, op = .random x kk := by
  cases op <;> simp [drawsByte]

namespace Machine

/-- A request draws a random byte if it is a cycle that carries out an instruction of this kind. -/
def Draws (m : Machine) (r : Request) : Prop :=
  r = .cycle ∧ (∃ o, m.cycle.result = .ok o) ∧ ∃ x kk, m.nextOpcode = .random x kk

/-- The machines of a history whose next request draws a random byte, in their order. -/
def draws (m : Machine) (rs : List Request) : List Machine :=
  (m.executed rs).filter fun s => s.nextOpcode.drawsByte

variable {m s : Machine} {r : Request} {rs : List Request}

theorem draws_iff : m.Draws r ↔ m.executes r = true ∧ m.nextOpcode.drawsByte = true := by
  rw [Draws, executes_iff, Opcode.drawsByte_iff, and_assoc]

theorem draws_cons_of_draws (h : m.Draws .cycle) : m.draws (.cycle :: rs) = m :: m.cycle.machine.draws rs := by
  obtain ⟨he, hop⟩ := draws_iff.1 h
  rw [draws, executed_cons_of_executes he]
  exact List.filter_cons_of_pos hop

theorem draws_cons_of_not_draws (h : ¬m.Draws r) : m.draws (r :: rs) = (m.after r).draws rs := by
  rw [draws]
  by_cases he : m.executes r = true
  · obtain ⟨rfl, -⟩ := executes_iff.1 he
    rw [executed_cons_of_executes he]
    exact List.filter_cons_of_neg fun hop => h (draws_iff.2 ⟨he, hop⟩)
  · rw [executed_cons_of_not_executes he]
    rfl

/-! ## One request -/

/-- A draw takes the byte at the place that the source has reached. -/
theorem reg_cycle_of_random {o : Outcome} (h : m.cycle.result = .ok o) {x : Nibble} {kk : UInt8}
    (hop : m.nextOpcode = .random x kk) : m.cycle.machine.reg x = m.random.peek &&& kk := by
  rw [cycle_machine_of_ok h, hop]
  show (m.setReg x (m.random.peek &&& kk)).reg x = _
  rw [reg_setReg, if_pos rfl]

theorem random_after_of_draws (h : m.Draws r) : (m.after r).random = m.random.advance := by
  obtain ⟨rfl, ⟨o, ho⟩, x, kk, hop⟩ := h
  show m.cycle.machine.random = _
  rw [cycle_machine_of_ok ho, hop]
  rfl

/-- Nothing but a draw touches the random source, not even a reset. -/
theorem random_after_of_not_draws (h : ¬m.Draws r) : (m.after r).random = m.random := by
  by_cases he : m.executes r = true
  · obtain ⟨rfl, o, ho⟩ := executes_iff.1 he
    show m.cycle.machine.random = _
    rw [cycle_machine_of_ok ho]
    rcases m.poised.nextRandom_cases m.nextOpcode with ⟨hop, -⟩ | ⟨-, hkeep⟩
    · exact absurd ⟨rfl, ⟨o, ho⟩, hop⟩ h
    · exact hkeep
  · by_cases hr : r = .reset
    · rw [hr, after, reset]
    · rw [after_of_not_executes hr he]

/-- An instruction that draws does not fault. -/
theorem draws_of_random (hle : m.pc.toNat + 2 ≤ memorySize) {x : Nibble} {kk : UInt8}
    (hop : m.nextOpcode = .random x kk) : m.Draws .cycle := by
  have hself : m.nextOpcode.selfContained = true := by
    rw [hop]
    rfl
  exact ⟨rfl, ⟨_, cycle_ok_of_selfContained hle hself⟩, x, kk, hop⟩

/-! ## Histories -/

/-- A history moves the source on by the number of its draws. -/
theorem random_afterAll (m : Machine) (rs : List Request) :
    (m.afterAll rs).random = ⟨m.random.key, m.random.drawn + (m.draws rs).length⟩ := by
  induction rs generalizing m with
  | nil => rfl
  | cons r rs ih =>
    show ((m.after r).afterAll rs).random = _
    by_cases h : m.Draws r
    · have hstep := random_after_of_draws h
      obtain rfl := h.1
      rw [ih, hstep, draws_cons_of_draws h, List.length_cons, Nat.add_comm (List.length _), ← Nat.add_assoc]
      rfl
    · rw [ih, random_after_of_not_draws h, draws_cons_of_not_draws h]

/-- Behind the k-th draw of a history, k places of the stream have been passed. -/
theorem random_of_getElem?_draws {k : Nat} (h : (m.draws rs)[k]? = some s) :
    s.random = ⟨m.random.key, m.random.drawn + k⟩ := by
  -- the place that `m` stands at and the number of draws to come change together
  induction rs generalizing m k with
  | nil => cases h
  | cons r rs ih =>
    by_cases hr : m.Draws r
    · have hstep := random_after_of_draws hr
      obtain rfl := hr.1
      rw [draws_cons_of_draws hr] at h
      cases k with
      | zero =>
        cases h
        rfl
      | succ k =>
        have hnext : m.cycle.machine.random = m.random.advance := hstep
        rw [ih h, hnext, RandomSource.advance, Nat.add_assoc, Nat.add_comm 1]
    · rw [draws_cons_of_not_draws hr] at h
      rw [ih h, random_after_of_not_draws hr]

theorem random_of_mem_draws (h : s ∈ m.draws rs) : ∃ x kk, s.nextOpcode = .random x kk ∧
    s.cycle.machine.reg x = s.random.peek &&& kk := by
  obtain ⟨hmem, hop⟩ := List.mem_filter.1 h
  obtain ⟨x, kk, hop⟩ := Opcode.drawsByte_iff.1 hop
  obtain ⟨o, ho⟩ := cycle_ok_of_mem_executed hmem
  exact ⟨x, kk, hop, reg_cycle_of_random ho hop⟩

/-- The k-th draw of a history stores byte k of the stream of its seed, masked. No other request moves the
stream, and a draw moves it by one byte, so that the k-th draws of any two histories from one seed, however
these differ otherwise, take the same byte. -/
theorem draws_follow_seed (seed : UInt64) (rs : List Request) :
    (∀ (k : Nat) (s : Machine), ((withSeed seed).draws rs)[k]? = some s →
        ∃ x kk, s.nextOpcode = .random x kk ∧
          s.cycle.machine.reg x = RandomSource.byteAt (RandomSource.ofSeed seed).key k &&& kk) ∧
      ((withSeed seed).afterAll rs).random =
        ⟨(RandomSource.ofSeed seed).key, ((withSeed seed).draws rs).length⟩ ∧
      (∀ (m : Machine) r, m.Draws r → (m.after r).random = m.random.advance) ∧
      (∀ (m : Machine) r, ¬m.Draws r → (m.after r).random = m.random) ∧
      (∀ (m : Machine) x kk, m.pc.toNat + 2 ≤ memorySize → m.nextOpcode = .random x kk → m.Draws .cycle) ∧
      ∀ (rs' : List Request) (k : Nat) (s s' : Machine),
        ((withSeed seed).draws rs)[k]? = some s → ((withSeed seed).draws rs')[k]? = some s' →
          s'.random = s.random ∧
            (∃ x kk, s.nextOpcode = .random x kk ∧ s.cycle.machine.reg x = s.random.peek &&& kk) ∧
            ∃ x kk, s'.nextOpcode = .random x kk ∧ s'.cycle.machine.reg x = s.random.peek &&& kk := by
  -- a seeded machine stands at the first byte
  have hstart : (withSeed seed).random = ⟨(RandomSource.ofSeed seed).key, 0⟩ := rfl
  refine ⟨?_, ?_, fun m r => random_after_of_draws, fun m r => random_after_of_not_draws,
    fun m x kk hle hop => draws_of_random hle hop, ?_⟩
  · intro k s h
    obtain ⟨x, kk, hop, hreg⟩ := random_of_mem_draws (List.mem_of_getElem? h)
    rw [random_of_getElem?_draws h, hstart, RandomSource.peek, Nat.zero_add] at hreg
    exact ⟨x, kk, hop, hreg⟩
  · rw [random_afterAll, hstart, Nat.zero_add]
  · intro rs' k s s' h h'
    have hsame : s'.random = s.random := by rw [random_of_getElem?_draws h, random_of_getElem?_draws h']
    have hdraw' := random_of_mem_draws (List.mem_of_getElem? h')
    rw [hsame] at hdraw'
    exact ⟨hsame, random_of_mem_draws (List.mem_of_getElem? h), hdraw'⟩

/-- The second draws of two programs, one of them started after a fault and a reset and with a word of no
meaning between its draws. -/
theorem draws_follow_seed_second :
    let m := withSeed 0
    let direct : List Request := [.load [0xC0, 0xFF, 0xC1, 0xFF], .cycle, .cycle]
    let winding : List Request :=
      [.load [0x00, 0xEE], .cycle, .putKey 5 true, .reset, .load [0xC2, 0x0F, 0xFF, 0xFF, 0xC3, 0xF0], .cycle,
        .cycle, .cycle]
    ∃ s s', (m.draws direct)[1]? = some s ∧ (m.draws winding)[1]? = some s' ∧
      s.cycle.machine.reg 1 = 0xB2 ∧ s'.cycle.machine.reg 3 = 0xB0 := by
  intro m direct winding
  have hruns : ((m.draws direct)[1]?.map nextOpcode = some (.random 1 0xFF) ∧
      (m.draws winding)[1]?.map nextOpcode = some (.random 3 0xF0)) ∧
      RandomSource.byteAt (RandomSource.ofSeed 0).key 1 = 0xB2 := by
    decide +kernel
  obtain ⟨⟨hdirect, hwinding⟩, hbyte⟩ := hruns
  obtain ⟨s, hs, hop⟩ := Option.map_eq_some_iff.1 hdirect
  obtain ⟨s', hs', hop'⟩ := Option.map_eq_some_iff.1 hwinding
  obtain ⟨x, kk, hx, hreg⟩ := (draws_follow_seed 0 direct).1 1 s hs
  obtain ⟨x', kk', hx', hreg'⟩ := (draws_follow_seed 0 winding).1 1 s' hs'
  cases hop.symm.trans hx
  cases hop'.symm.trans hx'
  rw [hbyte] at hreg hreg'
  exact ⟨s, s', hs, hs', hreg, hreg'⟩

end Machine

end Chip8
