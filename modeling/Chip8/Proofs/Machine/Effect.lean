import Chip8.Machine.Cycle

/-!
# Effects of an instruction

When `Machine.execute` faults, what it leaves in each field of the machine, and how a cycle is put
together from a fetch and an instruction. Nothing after this module opens these definitions:
`execute_error_iff` says exactly when an instruction faults and with what, `Faults.execute_eq` that it
then has no effect, and `execute_machine` what it leaves otherwise. `cycle_cases` and the equations before
it are the three ways a cycle can go, and `cycle_ok` is what a cycle that succeeds was.
-/

namespace Chip8

namespace Memory

/-- The word at an address, its high byte first. -/
def wordAt (m : Memory) (a : Nat) : UInt16 := Word.ofBytes (m[a]?.getD 0) (m[a + 1]?.getD 0)

theorem read?_of_le {m : Memory} {a : UInt16} {len : Nat} (h : a.toNat + len ≤ memorySize) :
    m.read? a len = .ok (m.read a.toNat len) :=
  if_pos h

theorem read?_of_lt {m : Memory} {a : UInt16} {len : Nat} (h : memorySize < a.toNat + len) :
    m.read? a len = .error (outOfBounds a) :=
  if_neg (by omega)

theorem write?_of_le {m : Memory} {a : UInt16} {bs : List UInt8} (h : a.toNat + bs.length ≤ memorySize) :
    m.write? a bs = .ok (m.write a.toNat bs) :=
  if_pos h

theorem write?_of_lt {m : Memory} {a : UInt16} {bs : List UInt8} (h : memorySize < a.toNat + bs.length) :
    m.write? a bs = .error (outOfBounds a) :=
  if_neg (by omega)

end Memory

namespace Machine

/-! ## Faults -/

/-- How many bytes an instruction reads or writes from I on. -/
def accessLength? (m : Machine) : Opcode → Option Nat
  | .draw _ y n => some (min n.val (displayHeight - (m.reg y).toNat % displayHeight))
  | .bcd _ => some 3
  | .storeRegs x | .loadRegs x => some (x.val + 1)
  | _ => none

/-- The fault of an instruction, by what it needs and the machine lacks. -/
inductive Faults (m : Machine) : Opcode → Fault → Prop where
  | emptyStack (hs : m.stack = []) : Faults m .ret (.stackUnderflow m.instructionAddress m.word)
  | fullStack {nnn : Address} (hs : stackDepth ≤ m.stack.length) :
      Faults m (.call nnn) (.stackOverflow m.instructionAddress m.word)
  | access {op : Opcode} {len : Nat} (hop : m.accessLength? op = some len)
      (hlen : memorySize < m.index.toNat + len) : Faults m op (Memory.outOfBounds m.index)

theorem length_lowRegisters (m : Machine) (x : Nibble) : (m.lowRegisters x).length = x.val + 1 := by
  have := x.isLt
  simp only [lowRegisters, List.length_take, Vector.length_toList]
  omega

/-- An instruction that faults has no other effect and reports nothing. -/
theorem Faults.execute_eq {m : Machine} {op : Opcode} {f : Fault} (h : m.Faults op f) :
    m.execute op = .fault f m := by
  cases h with
  | emptyStack hs => simp only [execute, ret, hs]
  | fullStack hs => exact if_neg (by omega)
  | access hop hlen =>
    cases op with
    | draw x y n =>
      cases hop
      simp only [execute, draw, sprite, Memory.read?_of_lt hlen]
    | bcd x =>
      cases hop
      simp only [execute, store]
      rw [Memory.write?_of_lt hlen]
    | storeRegs x =>
      cases hop
      rw [← m.length_lowRegisters] at hlen
      simp only [execute, store, Memory.write?_of_lt hlen]
    | loadRegs x =>
      cases hop
      simp only [execute, loadRegisters, Memory.read?_of_lt hlen]
    | _ => cases hop

/-- An instruction that does not fault has the memory that it needs. -/
theorem fits_of_not_faults {m : Machine} {op : Opcode} (h : ∀ f, ¬m.Faults op f) {len : Nat}
    (hop : m.accessLength? op = some len) : m.index.toNat + len ≤ memorySize :=
  Nat.not_lt.1 fun hlen => h _ (.access hop hlen)

/-- An instruction that needs neither the stack nor memory does not fault. -/
theorem not_faults_of_accessLength? {m : Machine} {op : Opcode} (hop : m.accessLength? op = none)
    (hret : op ≠ .ret) (hcall : ∀ nnn, op ≠ .call nnn) (f : Fault) : ¬m.Faults op f := by
  intro h
  cases h with
  | emptyStack => exact hret rfl
  | fullStack => exact hcall _ rfl
  | access hacc => cases hop.symm.trans hacc

/-- An instruction that accesses memory faults when the access does not fit, and only then. -/
theorem faults_iff_of_accessLength? {m : Machine} {op : Opcode} {len : Nat} (hop : m.accessLength? op = some len)
    {f : Fault} : m.Faults op f ↔ memorySize < m.index.toNat + len ∧ f = Memory.outOfBounds m.index := by
  constructor
  · rintro (_ | _ | ⟨hacc, hlen⟩)
    · cases hop
    · cases hop
    · cases hop.symm.trans hacc
      exact ⟨hlen, rfl⟩
  · rintro ⟨hlen, rfl⟩
    exact .access hop hlen

theorem not_faults_of_fits {m : Machine} {op : Opcode} {len : Nat} (hop : m.accessLength? op = some len)
    (hfit : m.index.toNat + len ≤ memorySize) (f : Fault) : ¬m.Faults op f := fun hf =>
  Nat.not_lt.2 hfit ((faults_iff_of_accessLength? hop).1 hf).1

/-- What an instruction that does not fault tells its caller. -/
def outcome (m : Machine) : Opcode → Outcome
  | .clearDisplay | .draw .. => .displayUpdated
  | .waitForKey _ => if m.firstKeyDown?.isSome then .proceed else .waitingForKey
  | _ => .proceed

theorem execute_result_of_not_faults {m : Machine} {op : Opcode} (h : ∀ f, ¬m.Faults op f) :
    (m.execute op).result = .ok (m.outcome op) := by
  cases op with
  | ret =>
    cases hs : m.stack with
    | nil => exact absurd (.emptyStack hs) (h _)
    | cons a rest => simp only [execute, ret, hs, Step.proceed, outcome]
  | call nnn =>
    have hs : m.stack.length < stackDepth := Nat.not_le.1 fun hs => h _ (.fullStack hs)
    simp only [execute, call, if_pos hs, Step.proceed, outcome]
  | draw x y n =>
    have hlen := fits_of_not_faults h rfl
    simp only [execute, draw, sprite, Memory.read?_of_le hlen, outcome]
  | bcd x =>
    have hlen : m.index.toNat + (decimalDigits (m.reg x)).length ≤ memorySize := fits_of_not_faults h rfl
    simp only [execute, store, Memory.write?_of_le hlen, Step.proceed, outcome]
  | storeRegs x =>
    have hlen : m.index.toNat + (m.lowRegisters x).length ≤ memorySize := by
      rw [length_lowRegisters]
      exact fits_of_not_faults h rfl
    simp only [execute, store, Memory.write?_of_le hlen, Step.proceed, outcome]
  | loadRegs x =>
    have hlen := fits_of_not_faults h rfl
    simp only [execute, loadRegisters, Memory.read?_of_le hlen, Step.proceed, outcome]
  | waitForKey x => cases hk : m.firstKeyDown? <;> simp [execute, waitForKey, outcome, hk, Step.proceed]
  | _ => rfl

/-- An instruction faults exactly when the machine lacks something that it needs. -/
theorem execute_error_iff {m : Machine} {op : Opcode} {f : Fault} :
    (m.execute op).result = .error f ↔ m.Faults op f := by
  constructor
  · intro he
    by_cases h : ∃ f', m.Faults op f'
    · obtain ⟨f', h⟩ := h
      rw [h.execute_eq] at he
      cases he
      exact h
    · rw [execute_result_of_not_faults fun f' h' => h ⟨f', h'⟩] at he
      cases he
  · intro h
    rw [h.execute_eq]
    rfl

/-- An instruction that does not fault has the outcome of its kind. -/
theorem execute_ok {m : Machine} {op : Opcode} {o : Outcome} (h : (m.execute op).result = .ok o) :
    o = m.outcome op := by
  have hf : ∀ f, ¬m.Faults op f := by
    intro f hf
    rw [execute_error_iff.2 hf] at h
    cases h
  rw [execute_result_of_not_faults hf] at h
  exact (Except.ok.inj h).symm

/-! ## What an instruction leaves

One function for each field that some instruction writes. `execute_machine` puts them together, family of
instructions by family of instructions. -/

/-- Whether an instruction passes over the next one. -/
def skips (m : Machine) : Opcode → Bool
  | .skipRegEqualImm x kk => m.reg x == kk
  | .skipRegNotEqualImm x kk => m.reg x != kk
  | .skipRegEqualReg x y => m.reg x == m.reg y
  | .skipRegNotEqualReg x y => m.reg x != m.reg y
  | .skipIfPressed x => m.keyDown (m.reg x)
  | .skipIfNotPressed x => !m.keyDown (m.reg x)
  | _ => false

/-- Where an instruction leaves the program counter. -/
def nextPc (m : Machine) : Opcode → UInt16
  | .ret => m.stack.head?.getD m.pc
  | .jump nnn => UInt16.ofNat nnn.val
  | .jumpWithOffset nnn => UInt16.ofNat nnn.val + (m.reg 0).toUInt16
  | .call nnn => if m.stack.length < stackDepth then UInt16.ofNat nnn.val else m.pc
  | .waitForKey _ => if m.firstKeyDown?.isSome then m.pc else m.pc - 2
  | op => if m.skips op then m.pc + 2 else m.pc

def nextStack (m : Machine) : Opcode → List UInt16
  | .ret => m.stack.tail
  | .call _ => if m.stack.length < stackDepth then m.pc :: m.stack else m.stack
  | _ => m.stack

def nextDisplay (m : Machine) : Opcode → Display
  | .clearDisplay => Display.blank
  | .draw x y n =>
    match m.sprite x y n with
    | .ok s => m.display.draw s
    | .error _ => m.display
  | _ => m.display

def nextMemory (m : Machine) : Opcode → Memory
  | .bcd x => (m.store (decimalDigits (m.reg x))).machine.memory
  | .storeRegs x => (m.store (m.lowRegisters x)).machine.memory
  | _ => m.memory

def nextIndex (m : Machine) : Opcode → UInt16
  | .setIndexImm nnn => UInt16.ofNat nnn.val
  | .addIndexReg x => m.index + (m.reg x).toUInt16
  | .fontChar x => UInt16.ofNat (Font.start + Font.glyphSize * (m.reg x).toNat)
  | _ => m.index

def nextRegisters (m : Machine) : Opcode → Nibble.Table UInt8
  | .setRegImm x kk => m.registers.put x kk
  | .addRegImm x kk => m.registers.put x (m.reg x + kk)
  | .alu x y op => (m.alu x y op).registers
  | .random x kk => m.registers.put x (m.random.peek &&& kk)
  | .draw x y n => (m.draw x y n).machine.registers
  | .waitForKey x => (m.waitForKey x).machine.registers
  | .readDelayTimer x => m.registers.put x m.delayTimer
  | .loadRegs x => (m.loadRegisters x).machine.registers
  | _ => m.registers

def nextDelayTimer (m : Machine) : Opcode → UInt8
  | .setDelayTimer x => m.reg x
  | _ => m.delayTimer

def nextSoundTimer (m : Machine) : Opcode → UInt8
  | .setSoundTimer x => m.reg x
  | _ => m.soundTimer

def nextRandom (m : Machine) : Opcode → RandomSource
  | .random .. => m.random.advance
  | _ => m.random

theorem skipIf_eq (m : Machine) (b : Bool) :
    m.skipIf b = { m with pc := if b then m.pc + 2 else m.pc } := by
  cases b <;> rfl

theorem alu_writes (m : Machine) (x y : Nibble) (op : AluOp) :
    m.alu x y op = { m with registers := (m.alu x y op).registers } := by
  cases op <;> rfl

theorem draw_writes (m : Machine) (x y n : Nibble) :
    (m.draw x y n).machine =
      { m with
        display := m.nextDisplay (.draw x y n)
        registers := (m.draw x y n).machine.registers } := by
  cases hs : m.sprite x y n <;> simp [draw, nextDisplay, hs, Step.fault, setReg]

theorem store_writes (m : Machine) (bs : List UInt8) :
    (m.store bs).machine = { m with memory := (m.store bs).machine.memory } := by
  unfold store
  split <;> rfl

theorem loadRegisters_writes (m : Machine) (x : Nibble) :
    (m.loadRegisters x).machine = { m with registers := (m.loadRegisters x).machine.registers } := by
  unfold loadRegisters
  split <;> rfl

/-- A wait for a key writes a register or steps back. -/
theorem waitForKey_writes (m : Machine) (x : Nibble) :
    (m.waitForKey x).machine =
      { m with
        pc := m.nextPc (.waitForKey x)
        registers := (m.waitForKey x).machine.registers } := by
  cases hk : m.firstKeyDown? <;> simp [waitForKey, nextPc, hk, Step.proceed, setReg]

/-- A return takes an address from the stack, if there is one. -/
theorem ret_writes (m : Machine) :
    m.ret.machine = { m with pc := m.nextPc .ret, stack := m.nextStack .ret } := by
  cases hs : m.stack with
  | nil =>
    simp only [ret, nextPc, nextStack, hs]
    exact congrArg (fun stack => { m with stack := stack }) hs
  | cons a rest => simp [ret, nextPc, nextStack, hs, Step.proceed]

/-- A call puts the counter on the stack, if there is room. -/
theorem call_writes (m : Machine) (nnn : Address) :
    (m.call nnn).machine = { m with pc := m.nextPc (.call nnn), stack := m.nextStack (.call nnn) } := by
  simp only [call, nextPc, nextStack]
  split <;> rfl

/-- What an instruction leaves, field by field. It does not touch the keypad and the recorded word. -/
theorem execute_machine (m : Machine) (op : Opcode) :
    (m.execute op).machine =
      { m with
        memory := m.nextMemory op
        display := m.nextDisplay op
        pc := m.nextPc op
        index := m.nextIndex op
        registers := m.nextRegisters op
        stack := m.nextStack op
        delayTimer := m.nextDelayTimer op
        soundTimer := m.nextSoundTimer op
        random := m.nextRandom op } := by
  cases op with
  | ret => exact m.ret_writes
  | call nnn => exact m.call_writes nnn
  | waitForKey x => exact m.waitForKey_writes x
  | skipRegEqualImm x kk | skipRegNotEqualImm x kk | skipRegEqualReg x y | skipRegNotEqualReg x y
  | skipIfPressed x | skipIfNotPressed x => exact m.skipIf_eq _
  | alu x y op => exact m.alu_writes x y op
  | draw x y n => exact m.draw_writes x y n
  | bcd x | storeRegs x => exact m.store_writes _
  | loadRegs x => exact m.loadRegisters_writes x
  | _ => rfl

theorem execute_pc (m : Machine) (op : Opcode) : (m.execute op).machine.pc = m.nextPc op := by
  rw [execute_machine]

theorem execute_stack (m : Machine) (op : Opcode) : (m.execute op).machine.stack = m.nextStack op := by
  rw [execute_machine]

theorem execute_display (m : Machine) (op : Opcode) :
    (m.execute op).machine.display = m.nextDisplay op := by
  rw [execute_machine]

/-- An instruction that reports no change of the display leaves it as it is. -/
theorem nextDisplay_of_outcome {m : Machine} {op : Opcode} (h : m.outcome op ≠ .displayUpdated) :
    m.nextDisplay op = m.display := by
  cases op with
  | clearDisplay => exact absurd rfl h
  | draw x y n => exact absurd rfl h
  | _ => rfl

/-! ## Cycles -/

/-- The word that a cycle would fetch. -/
def nextWord (m : Machine) : UInt16 := m.memory.wordAt m.pc.toNat

def nextOpcode (m : Machine) : Opcode := Opcode.decode m.nextWord

/-- The machine about to carry out the instruction at the program counter. -/
def poised (m : Machine) : Machine := m.fetched m.nextWord

theorem fetch_of_le {m : Machine} (h : m.pc.toNat + 2 ≤ memorySize) : m.fetch = .ok m.nextWord := by
  simp only [fetch, Memory.read?_of_le h, Memory.getElem?_read]
  rfl

theorem fetch_of_lt {m : Machine} (h : memorySize < m.pc.toNat + 2) :
    m.fetch = .error (Memory.outOfBounds m.pc) := by
  simp only [fetch, Memory.read?_of_lt h]

theorem instructionAddress_poised (m : Machine) : m.poised.instructionAddress = m.pc :=
  UInt16.add_sub_cancel m.pc 2

/-- A cycle without a word to fetch changes nothing. -/
theorem cycle_of_lt {m : Machine} (h : memorySize < m.pc.toNat + 2) :
    m.cycle = ⟨.error (Memory.outOfBounds m.pc), m, []⟩ := by
  simp only [cycle, fetch_of_lt h]

/-- A cycle whose instruction faults leaves the machine about to carry it out. -/
theorem cycle_of_faults {m : Machine} (h : m.pc.toNat + 2 ≤ memorySize) {f : Fault}
    (hf : m.poised.Faults m.nextOpcode f) :
    m.cycle = ⟨.error f, m.poised, [.executing m.pc m.nextWord m.nextOpcode, .cycleAborted f]⟩ := by
  simp only [cycle, fetch_of_le h]
  rw [show (m.fetched m.nextWord).execute (Opcode.decode m.nextWord) = .fault f m.poised from hf.execute_eq]
  rfl

/-- A cycle whose instruction does not fault carries it out and lets the timers tick. -/
theorem cycle_of_not_faults {m : Machine} (h : m.pc.toNat + 2 ≤ memorySize)
    (hf : ∀ f, ¬m.poised.Faults m.nextOpcode f) :
    m.cycle =
      ⟨.ok (m.poised.outcome m.nextOpcode), (m.poised.execute m.nextOpcode).machine.tick,
        .executing m.pc m.nextWord m.nextOpcode :: (m.poised.execute m.nextOpcode).reports⟩ := by
  simp only [cycle, fetch_of_le h]
  have hr := execute_result_of_not_faults hf
  cases hs : m.poised.execute m.nextOpcode with
  | mk result after reports =>
    rw [hs] at hr
    rw [show (m.fetched m.nextWord).execute (Opcode.decode m.nextWord) = ⟨result, after, reports⟩ from hs]
    simp only at hr
    subst hr
    rfl

/-- The three ways a cycle can go. -/
theorem cycle_cases (m : Machine) :
    memorySize < m.pc.toNat + 2 ∨
      m.pc.toNat + 2 ≤ memorySize ∧
        ((∃ f, m.poised.Faults m.nextOpcode f) ∨ ∀ f, ¬m.poised.Faults m.nextOpcode f) := by
  by_cases h : m.pc.toNat + 2 ≤ memorySize
  · by_cases hf : ∃ f, m.poised.Faults m.nextOpcode f
    · exact .inr ⟨h, .inl hf⟩
    · exact .inr ⟨h, .inr fun f hf' => hf ⟨f, hf'⟩⟩
  · exact .inl (by omega)

/-- A cycle faults for want of a word to fetch, or as the instruction at the counter does. -/
theorem cycle_error_iff {m : Machine} {f : Fault} :
    m.cycle.result = .error f ↔
      memorySize < m.pc.toNat + 2 ∧ f = Memory.outOfBounds m.pc ∨
        m.pc.toNat + 2 ≤ memorySize ∧ m.poised.Faults m.nextOpcode f := by
  rcases m.cycle_cases with h | ⟨h, ⟨f', hf⟩ | hf⟩
  · rw [cycle_of_lt h, Except.error.injEq, eq_comm]
    constructor
    · intro he
      exact .inl ⟨h, he⟩
    · rintro (⟨-, he⟩ | ⟨h', -⟩)
      · exact he
      · omega
  · rw [cycle_of_faults h hf, ← execute_error_iff, hf.execute_eq]
    constructor
    · intro he
      exact .inr ⟨h, he⟩
    · rintro (⟨h', -⟩ | ⟨-, he⟩)
      · omega
      · exact he
  · rw [cycle_of_not_faults h hf]
    constructor
    · intro he
      cases he
    · rintro (⟨h', -⟩ | ⟨-, he⟩)
      · omega
      · exact absurd he (hf f)

/-- A cycle that succeeds has the outcome and the effect of the instruction at the counter, and the timers
tick. -/
theorem cycle_ok {m : Machine} {o : Outcome} (h : m.cycle.result = .ok o) :
    m.pc.toNat + 2 ≤ memorySize ∧ (m.poised.execute m.nextOpcode).result = .ok o ∧
      m.cycle.machine = (m.poised.execute m.nextOpcode).machine.tick := by
  rcases m.cycle_cases with hlt | ⟨hle, ⟨f, hf⟩ | hf⟩
  · rw [cycle_of_lt hlt] at h
    cases h
  · rw [cycle_of_faults hle hf] at h
    cases h
  · rw [cycle_of_not_faults hle hf] at h ⊢
    exact ⟨hle, (execute_result_of_not_faults hf).trans h, rfl⟩

/-- A cycle that succeeds and reports no change of the display leaves it as it is. -/
theorem cycle_display_of_ok {m : Machine} {o : Outcome} (h : m.cycle.result = .ok o)
    (ho : o ≠ .displayUpdated) : m.cycle.machine.display = m.display := by
  obtain ⟨-, hr, hm⟩ := cycle_ok h
  have hout : m.poised.outcome m.nextOpcode ≠ .displayUpdated := by
    rw [← execute_ok hr]
    exact ho
  rw [hm, tick, execute_display, nextDisplay_of_outcome hout]
  rfl

/-- No cycle touches the keypad, whether it succeeds or not. -/
theorem cycle_keypad (m : Machine) : m.cycle.machine.keypad = m.keypad := by
  rcases m.cycle_cases with hlt | ⟨hle, ⟨f, hf⟩ | hf⟩
  · rw [cycle_of_lt hlt]
  · rw [cycle_of_faults hle hf]
    rfl
  · rw [cycle_of_not_faults hle hf, tick, execute_machine]
    rfl

/-! ## Requests -/

theorem load_of_le {m : Machine} {rom : List UInt8} (h : rom.length ≤ maxProgramSize) :
    m.load rom =
      ⟨.ok (), { m with memory := m.memory.write programStart rom },
        [.programLoaded rom.length (UInt16.ofNat programStart)]⟩ :=
  if_pos h

theorem load_of_lt {m : Machine} {rom : List UInt8} (h : maxProgramSize < rom.length) :
    m.load rom = ⟨.error (.programTooLarge rom.length maxProgramSize), m, []⟩ :=
  if_neg (by omega)

/-- A request to load a program writes memory only. -/
theorem load_writes (m : Machine) (rom : List UInt8) :
    (m.load rom).machine = { m with memory := (m.load rom).machine.memory } := by
  unfold load
  split <;> rfl

/-- A request on a key writes the keypad only. -/
theorem putKey_writes (m : Machine) (key : UInt8) (down : Bool) :
    (m.putKey key down).machine = { m with keypad := (m.putKey key down).machine.keypad } := by
  unfold putKey
  split <;> rfl

/-- The first word of a program is the first that is carried out. -/
theorem nextWord_load {m : Machine} {a b : UInt8} {rest : List UInt8}
    (h : (a :: b :: rest).length ≤ maxProgramSize) (hpc : m.pc = UInt16.ofNat programStart) :
    (m.load (a :: b :: rest)).machine.nextWord = Word.ofBytes a b := by
  have hstart : m.pc.toNat = programStart := by rw [hpc]; rfl
  have ha : programStart < memorySize := by decide
  have hb : programStart + 1 < memorySize := by decide
  rw [load_of_le h]
  simp only [nextWord, Memory.wordAt, hstart]
  rw [Vector.getElem?_eq_getElem ha, Vector.getElem?_eq_getElem hb]
  simp only [Option.getD_some, Memory.getElem_write]
  simp

theorem nextOpcode_load {m : Machine} {a b : UInt8} {rest : List UInt8}
    (h : (a :: b :: rest).length ≤ maxProgramSize) (hpc : m.pc = UInt16.ofNat programStart) :
    (m.load (a :: b :: rest)).machine.nextOpcode = Opcode.decode (Word.ofBytes a b) :=
  congrArg Opcode.decode (nextWord_load h hpc)

end Machine

end Chip8
