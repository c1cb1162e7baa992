import Chip8.Proofs.Machine.Fault

/-!
# Requests that fail

A request that fails has no partial effect. A cycle without a word to fetch, a program that is too
long and a key that does not exist leave the machine as it is; an instruction that faults leaves it
poised, with the counter past the instruction and its word recorded, and nothing else different. A
machine that has run out of words stays so until it is reset (`cycle_afterAll_of_lt`).
-/

namespace Chip8

namespace Nibble

theorem ofByte?_eq_none_iff {b : UInt8} : ofByte? b = none ↔ 15 < b.toNat := by
  unfold ofByte?
  split
  · simp only [reduceCtorEq, false_iff]
    omega
  · simp only [true_iff]
    omega

end Nibble

namespace Machine

variable {m : Machine}

/-! ## Refused requests -/

theorem load_error_iff {rom : List UInt8} {f : Fault} :
    (m.load rom).result = .error f ↔
      maxProgramSize < rom.length ∧ f = .programTooLarge rom.length maxProgramSize := by
  by_cases h : rom.length ≤ maxProgramSize
  · rw [load_of_le h]
    simp only [reduceCtorEq, false_iff, not_and]
    omega
  · rw [load_of_lt (by omega), Except.error.injEq, eq_comm]
    exact ⟨fun he => ⟨by omega, he⟩, fun he => he.2⟩

theorem load_machine_of_error {rom : List UInt8} {f : Fault} (h : (m.load rom).result = .error f) :
    (m.load rom).machine = m := by
  rw [load_of_lt (load_error_iff.1 h).1]

theorem putKey_error_iff {key : UInt8} {down : Bool} {f : Fault} :
    (m.putKey key down).result = .error f ↔ 15 < key.toNat ∧ f = .invalidKey key := by
  rw [← Nibble.ofByte?_eq_none_iff]
  unfold putKey
  cases Nibble.ofByte? key with
  | some k => simp
  | none => simp [eq_comm]

theorem putKey_machine_of_error {key : UInt8} {down : Bool} {f : Fault}
    (h : (m.putKey key down).result = .error f) : (m.putKey key down).machine = m := by
  have hk := Nibble.ofByte?_eq_none_iff.2 (putKey_error_iff.1 h).1
  simp only [putKey, hk]

/-! ## Cycles that fail -/

/-- An instruction that faults moves the counter past it and has its word recorded. -/
theorem cycle_machine_of_error {f : Fault} (hle : m.pc.toNat + 2 ≤ memorySize)
    (h : m.cycle.result = .error f) :
    m.cycle.machine = { m with pc := m.pc + 2, word := m.nextWord } := by
  rcases cycle_error_iff.1 h with ⟨hlt, -⟩ | ⟨-, hf⟩
  · omega
  · rw [cycle_of_faults hle hf]
    rfl

/-- Where there is no word to fetch, only a reset moves the counter. -/
theorem pc_after_of_lt (h : memorySize < m.pc.toNat + 2) {r : Request} (hr : r ≠ .reset) :
    (m.after r).pc = m.pc := by
  cases r with
  | cycle => rw [after, cycle_of_lt h]
  | load rom => rw [after, load_writes]
  | reset => exact absurd rfl hr
  | putKey key down => rw [after, putKey_writes]

theorem pc_afterAll_of_lt (h : memorySize < m.pc.toNat + 2) {rs : List Request}
    (hrs : Request.reset ∉ rs) : (m.afterAll rs).pc = m.pc := by
  induction rs generalizing m with
  | nil => rfl
  | cons r rs ih =>
    obtain ⟨hr, hrs⟩ := List.ne_and_not_mem_of_not_mem_cons hrs
    have hpc := pc_after_of_lt h (Ne.symm hr)
    exact (ih (by rw [hpc]; exact h) hrs).trans hpc

/-- Once there is no word to fetch, every cycle up to the next reset fails alike and changes nothing. -/
theorem cycle_afterAll_of_lt (h : memorySize < m.pc.toNat + 2) {rs : List Request}
    (hrs : Request.reset ∉ rs) :
    (m.afterAll rs).cycle = ⟨.error (Memory.outOfBounds m.pc), m.afterAll rs, []⟩ := by
  have hpc := pc_afterAll_of_lt h hrs
  rw [cycle_of_lt (by rw [hpc]; exact h), hpc]

/-- Whatever the state, a request that fails changes nothing, except that an instruction that faults
leaves the counter behind it and its word recorded. A cycle that has no word to fetch fails, as does
every later one until a reset. -/
theorem failed_requests_without_effect (m : Machine) :
    (memorySize ≤ m.pc.toNat + 1 →
      m.cycle.result = .error (Memory.outOfBounds m.pc) ∧ m.cycle.machine = m ∧
        ∀ rs : List Request, Request.reset ∉ rs →
          (m.afterAll rs).cycle.result = m.cycle.result ∧ (m.afterAll rs).cycle.machine = m.afterAll rs) ∧
      (∀ f, m.pc.toNat + 1 < memorySize → m.cycle.result = .error f →
        m.cycle.machine = { m with pc := m.pc + 2, word := m.nextWord } ∧
          (m.pc + 2).toNat = m.pc.toNat + 2) ∧
      (∀ rom, ((∃ f, (m.load rom).result = .error f) ↔ maxProgramSize < rom.length) ∧
        (maxProgramSize < rom.length → (m.load rom).machine = m)) ∧
      (∀ key down, ((∃ f, (m.putKey key down).result = .error f) ↔ 15 < key.toNat) ∧
        (15 < key.toNat → (m.putKey key down).machine = m)) := by
  refine ⟨?_, ?_, ?_, ?_⟩
  · intro hpc
    have hlt : memorySize < m.pc.toNat + 2 := by omega
    rw [cycle_of_lt hlt]
    refine ⟨rfl, rfl, ?_⟩
    intro rs hrs
    rw [cycle_afterAll_of_lt hlt hrs]
    exact ⟨rfl, rfl⟩
  · intro f hpc hf
    exact ⟨cycle_machine_of_error (by omega) hf, toNat_addTwo (by omega)⟩
  · intro rom
    have herror (h : maxProgramSize < rom.length) :
        (m.load rom).result = .error (.programTooLarge rom.length maxProgramSize) :=
      load_error_iff.2 ⟨h, rfl⟩
    refine ⟨⟨?_, fun h => ⟨_, herror h⟩⟩, fun h => load_machine_of_error (herror h)⟩
    rintro ⟨f, hf⟩
    exact (load_error_iff.1 hf).1
  · intro key down
    have herror (h : 15 < key.toNat) : (m.putKey key down).result = .error (.invalidKey key) :=
      putKey_error_iff.2 ⟨h, rfl⟩
    refine ⟨⟨?_, fun h => ⟨_, herror h⟩⟩, fun h => putKey_machine_of_error (herror h)⟩
    rintro ⟨f, hf⟩
    exact (putKey_error_iff.1 hf).1

/-- A jump to the last byte of memory leaves no word to fetch: not even with another program and a key
down does the machine go on. -/
theorem failed_requests_past_last_word :
    let m := ((Machine.withSeed 7).load [0xBF, 0xFF]).machine.cycle.machine
    let later := m.afterAll [.load [0x12, 0x00], .putKey 5 true, .cycle]
    m.pc = 0xFFF ∧ later.cycle.result = .error (.memoryOutOfBounds 0x1000) ∧ later.cycle.machine = later := by
  have hle : ((Machine.withSeed 7).load [0xBF, 0xFF]).machine.pc.toNat + 2 ≤ memorySize := by decide
  have hop : ((Machine.withSeed 7).load [0xBF, 0xFF]).machine.nextOpcode = .jumpWithOffset 0xFFF := by
    rw [nextOpcode, nextWord_load (by decide) rfl]
    rfl
  have hoffset : ((Machine.withSeed 7).load [0xBF, 0xFF]).machine.poised.reg 0 = 0 := rfl
  have hpc : ((Machine.withSeed 7).load [0xBF, 0xFF]).machine.cycle.machine.pc = 0xFFF := by
    rw [cycle_of_not_faults hle (by rw [hop]; rintro f (_ | _ | ⟨hacc, -⟩); cases hacc), hop, tick]
    show (((Machine.withSeed 7).load [0xBF, 0xFF]).machine.poised.execute (.jumpWithOffset 0xFFF)).machine.pc = 0xFFF
    rw [execute_pc, nextPc, hoffset]
    rfl
  obtain ⟨hresult, -, hlater⟩ := (failed_requests_without_effect _).1 (by rw [hpc]; decide)
  obtain ⟨hsame, hmachine⟩ := hlater [.load [0x12, 0x00], .putKey 5 true, .cycle] (by simp)
  rw [hresult, hpc] at hsame
  exact ⟨hpc, hsame, hmachine⟩

end Machine

end Chip8
