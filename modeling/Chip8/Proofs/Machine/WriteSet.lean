import Chip8.Machine.Run
import Chip8.Proofs.Machine.Effect

/-!
# What a cycle can change

Tables of the instructions that change the display, I, a byte of memory or a register, and
`Machine.Changes`, which says of every field of a machine which instructions change it. A cycle that
succeeds changes no more than that, whatever word it fetched (`Machine.cycle_changes`).
-/

namespace Chip8

/-- Whether an operation writes VF next to Vx. -/
def AluOp.setsFlag : AluOp → Bool
  | .add | .sub | .shiftRight | .subReverse | .shiftLeft => true
  | .set | .or | .and | .xor => false

namespace Opcode

def changesDisplay : Opcode → Bool
  | .clearDisplay | .draw .. => true
  | _ => false

def changesIndex : Opcode → Bool
  | .setIndexImm _ | .addIndexReg _ | .fontChar _ => true
  | _ => false

end Opcode

namespace Machine

/-- Whether an instruction can write the byte at address `a`. -/
def WritesByte (m : Machine) (a : Nat) : Opcode → Prop
  | .bcd _ => m.index.toNat ≤ a ∧ a ≤ m.index.toNat + 2
  | .storeRegs x => m.index.toNat ≤ a ∧ a ≤ m.index.toNat + x.val
  | _ => False

/-- Whether an instruction can write register `k`. -/
def WritesRegister (m : Machine) (k : Nibble) : Opcode → Prop
  | .setRegImm x _ | .addRegImm x _ | .random x _ | .readDelayTimer x => k = x
  | .alu x _ op => k = x ∨ k = flag ∧ op.setsFlag = true
  | .waitForKey x => k = x ∧ ∃ key, m.keypad.get key = true
  | .loadRegs x => k.val ≤ x.val
  | .draw .. => k = flag
  | _ => False

/-- What a cycle that carries out `op` and tells its caller `o` can change, from `m` to `m'`. -/
structure Changes (m : Machine) (op : Opcode) (o : Outcome) (m' : Machine) : Prop where
  memory : ∀ a, m'.memory[a]? ≠ m.memory[a]? → m.WritesByte a op
  display : m'.display ≠ m.display → op.changesDisplay = true
  drawn : o = .displayUpdated ↔ op.changesDisplay = true
  waiting : o = .waitingForKey ↔ (∃ x, op = .waitForKey x) ∧ ∀ key, m.keypad.get key = false
  stack : m'.stack = m.stack ∨ (∃ nnn, op = .call nnn ∧ m'.stack = (m.pc + 2) :: m.stack) ∨
    op = .ret ∧ ∃ a, m.stack = a :: m'.stack
  index : m'.index ≠ m.index → op.changesIndex = true
  registers : ∀ k, m'.reg k ≠ m.reg k → m.WritesRegister k op
  random : (∃ x kk, op = .random x kk) ∧ m'.random = m.random.advance ∨
    (∀ x kk, op ≠ .random x kk) ∧ m'.random = m.random
  keypad : m'.keypad = m.keypad
  /-- Apart from the instruction that sets it, the delay timer only ticks. -/
  delayTimer : (∃ x, op = .setDelayTimer x ∧ m'.delayTimer.toNat = (m.reg x).toNat - 1) ∨
    (∀ x, op ≠ .setDelayTimer x) ∧ m'.delayTimer.toNat = m.delayTimer.toNat - 1
  soundTimer : (∃ x, op = .setSoundTimer x ∧ m'.soundTimer.toNat = (m.reg x).toNat - 1) ∨
    (∀ x, op ≠ .setSoundTimer x) ∧ m'.soundTimer.toNat = m.soundTimer.toNat - 1
  unknown : ∀ w, op = .unknown w →
    m' = { m with
      pc := m.pc + 2
      word := m.nextWord
      delayTimer := m'.delayTimer
      soundTimer := m'.soundTimer }

variable {m : Machine} {op : Opcode}

/-! ## What an instruction writes -/

/-- A store leaves the bytes outside its range as they are. -/
theorem getElem?_memory_store {bs : List UInt8} {a : Nat}
    (ha : ¬(m.index.toNat ≤ a ∧ a < m.index.toNat + bs.length)) :
    (m.store bs).machine.memory[a]? = m.memory[a]? := by
  by_cases hfit : m.index.toNat + bs.length ≤ memorySize
  · simp only [store, Memory.write?_of_le hfit, Step.proceed]
    by_cases hsize : a < memorySize
    · rw [Memory.getElem?_write hsize, if_neg (by omega)]
    -- an address past the memory has no byte before or after
    · rw [Vector.getElem?_eq_none (Nat.not_lt.1 hsize), Vector.getElem?_eq_none (Nat.not_lt.1 hsize)]
  · simp only [store, Memory.write?_of_lt (Nat.not_le.1 hfit), Step.fault]

theorem writesByte_of_ne {a : Nat} (h : (m.nextMemory op)[a]? ≠ m.memory[a]?) : m.WritesByte a op := by
  cases op with
  | bcd x =>
    have ha := Classical.not_not.1 (mt getElem?_memory_store h)
    exact ⟨ha.1, Nat.le_of_lt_succ ha.2⟩
  | storeRegs x =>
    have ha := Classical.not_not.1 (mt getElem?_memory_store h)
    rw [length_lowRegisters] at ha
    exact ⟨ha.1, Nat.le_of_lt_succ ha.2⟩
  | _ => exact absurd rfl h

theorem outcome_eq_displayUpdated_iff : m.outcome op = .displayUpdated ↔ op.changesDisplay = true := by
  cases op with
  | waitForKey x => cases hk : m.firstKeyDown? <;> simp [outcome, Opcode.changesDisplay, hk]
  | _ => simp [outcome, Opcode.changesDisplay]

theorem firstKeyDown?_eq_none_iff : m.firstKeyDown? = none ↔ ∀ key, m.keypad.get key = false := by
  rw [firstKeyDown?, List.find?_eq_none]
  exact ⟨fun h key => Bool.eq_false_iff.2 (h key (List.mem_finRange key)),
    fun h key _ => Bool.eq_false_iff.1 (h key)⟩

theorem outcome_eq_waitingForKey_iff :
    m.outcome op = .waitingForKey ↔ (∃ x, op = .waitForKey x) ∧ ∀ key, m.keypad.get key = false := by
  rw [← firstKeyDown?_eq_none_iff]
  cases op with
  | waitForKey x => cases hk : m.firstKeyDown? <;> simp [outcome, hk]
  | _ => simp [outcome]

/-- A call puts one address on the stack and a return takes one from it. -/
theorem nextStack_cases (m : Machine) (op : Opcode) :
    m.nextStack op = m.stack ∨ (∃ nnn, op = .call nnn ∧ m.nextStack op = m.pc :: m.stack) ∨
      op = .ret ∧ ∃ a, m.stack = a :: m.nextStack op := by
  cases op with
  | ret =>
    rw [nextStack]
    cases m.stack with
    | nil => exact .inl rfl
    | cons a rest => exact .inr (.inr ⟨rfl, a, rfl⟩)
  | call nnn =>
    rw [nextStack]
    split
    · exact .inr (.inl ⟨nnn, rfl, rfl⟩)
    · exact .inl rfl
  | _ => exact .inl rfl

theorem changesIndex_of_ne (h : m.nextIndex op ≠ m.index) : op.changesIndex = true := by
  cases op with
  | setIndexImm nnn | addIndexReg x | fontChar x => rfl
  | _ => exact absurd rfl h

theorem nextRandom_cases (m : Machine) (op : Opcode) :
    (∃ x kk, op = .random x kk) ∧ m.nextRandom op = m.random.advance ∨
      (∀ x kk, op ≠ .random x kk) ∧ m.nextRandom op = m.random := by
  cases op with
  | random x kk => exact .inl ⟨⟨x, kk, rfl⟩, rfl⟩
  | _ => exact .inr ⟨nofun, rfl⟩

theorem nextDelayTimer_cases (m : Machine) (op : Opcode) :
    (∃ x, op = .setDelayTimer x ∧ m.nextDelayTimer op = m.reg x) ∨
      (∀ x, op ≠ .setDelayTimer x) ∧ m.nextDelayTimer op = m.delayTimer := by
  cases op with
  | setDelayTimer x => exact .inl ⟨x, rfl, rfl⟩
  | _ => exact .inr ⟨nofun, rfl⟩

theorem nextSoundTimer_cases (m : Machine) (op : Opcode) :
    (∃ x, op = .setSoundTimer x ∧ m.nextSoundTimer op = m.reg x) ∨
      (∀ x, op ≠ .setSoundTimer x) ∧ m.nextSoundTimer op = m.soundTimer := by
  cases op with
  | setSoundTimer x => exact .inl ⟨x, rfl, rfl⟩
  | _ => exact .inr ⟨nofun, rfl⟩

/-! ## Registers -/

theorem reg_setReg (x k : Nibble) (b : UInt8) : (m.setReg x b).reg k = if x = k then b else m.reg k :=
  Nibble.Table.get_put m.registers x k b

/-- An operation on two registers writes the first of them and, if it has a flag, VF. -/
theorem reg_alu {x y k : Nibble} {op : AluOp} (hx : x ≠ k) (hf : op.setsFlag = true → flag ≠ k) :
    (m.alu x y op).reg k = m.reg k := by
  cases op with
  | set | or | and | xor => simp only [alu, reg_setReg, if_neg hx]
  | add | sub | subReverse | shiftRight | shiftLeft =>
    simp only [alu, reg_setReg, if_neg hx, if_neg (hf rfl)]

theorem reg_draw {x y n k : Nibble} (hk : flag ≠ k) : (m.draw x y n).machine.reg k = m.reg k := by
  cases hs : m.sprite x y n with
  | error f => simp only [draw, hs, Step.fault]
  | ok s =>
    simp only [draw, hs, reg_setReg, if_neg hk]
    rfl

theorem reg_waitForKey {x k : Nibble} (h : x = k → m.firstKeyDown? = none) :
    (m.waitForKey x).machine.reg k = m.reg k := by
  cases hd : m.firstKeyDown? with
  | none =>
    simp only [waitForKey, hd]
    rfl
  | some key =>
    have hx : x ≠ k := by
      intro hx
      rw [h hx] at hd
      cases hd
    simp only [waitForKey, hd, Step.proceed, reg_setReg, if_neg hx]

theorem get_replaceRegisters (v : Nibble.Table UInt8) (bs : List UInt8) (k : Nibble) :
    (replaceRegisters v bs).get k = bs[k.val]?.getD (v.get k) :=
  Vector.getElem_ofFn k.isLt

theorem reg_loadRegisters {x k : Nibble} (hk : x.val < k.val) :
    (m.loadRegisters x).machine.reg k = m.reg k := by
  by_cases hfit : m.index.toNat + (x.val + 1) ≤ memorySize
  · -- one byte for each register up to `x`, so none for `k`
    have hpast : (m.memory.read m.index.toNat (x.val + 1))[k.val]? = none :=
      List.getElem?_eq_none (by rw [Memory.length_read]; omega)
    simp only [loadRegisters, Memory.read?_of_le hfit, Step.proceed, reg, get_replaceRegisters, hpast,
      Option.getD_none]
  · simp only [loadRegisters, Memory.read?_of_lt (Nat.not_le.1 hfit), Step.fault]

theorem writesRegister_of_ne {k : Nibble} (h : (m.nextRegisters op).get k ≠ m.reg k) :
    m.WritesRegister k op := by
  -- each case by contraposition: a register that is not listed reads as before
  have hput (x : Nibble) (b : UInt8) (h : (m.registers.put x b).get k ≠ m.reg k) : k = x :=
    Classical.byContradiction fun hk => h ((reg_setReg x k b).trans (if_neg (Ne.symm hk)))
  cases op with
  | setRegImm x kk | addRegImm x kk | random x kk | readDelayTimer x => exact hput x _ h
  | alu x y op =>
    refine Classical.byContradiction fun hk => h (reg_alu ?_ ?_)
    · exact fun hx => hk (.inl hx.symm)
    · exact fun hop hf => hk (.inr ⟨hf.symm, hop⟩)
  | draw x y n => exact Classical.byContradiction fun hk => h (reg_draw (Ne.symm hk))
  | waitForKey x =>
    cases hd : m.firstKeyDown? with
    | none => exact absurd (reg_waitForKey fun _ => hd) h
    | some key =>
      refine ⟨Classical.byContradiction fun hk => h (reg_waitForKey fun hx => absurd hx.symm hk), key, ?_⟩
      exact List.find?_some hd
  | loadRegs x => exact Classical.byContradiction fun hk => h (reg_loadRegisters (Nat.not_le.1 hk))
  | _ => exact absurd rfl h

/-! ## Cycles -/

/-- A cycle that succeeds leaves in each field what its instruction leaves there, the timers ticked. -/
theorem cycle_machine_of_ok {o : Outcome} (h : m.cycle.result = .ok o) :
    m.cycle.machine =
      { m with
        memory := m.poised.nextMemory m.nextOpcode
        display := m.poised.nextDisplay m.nextOpcode
        pc := m.poised.nextPc m.nextOpcode
        index := m.poised.nextIndex m.nextOpcode
        registers := m.poised.nextRegisters m.nextOpcode
        stack := m.poised.nextStack m.nextOpcode
        delayTimer := UInt8.ofNat ((m.poised.nextDelayTimer m.nextOpcode).toNat - 1)
        soundTimer := UInt8.ofNat ((m.poised.nextSoundTimer m.nextOpcode).toNat - 1)
        word := m.nextWord
        random := m.poised.nextRandom m.nextOpcode } := by
  obtain ⟨-, -, hm⟩ := cycle_ok h
  rw [hm, tick, execute_machine]
  rfl

/-- Whatever word it fetched, a cycle that succeeds changes no more than its instruction is listed for. -/
theorem cycle_changes {o : Outcome} (h : m.cycle.result = .ok o) :
    m.Changes m.nextOpcode o m.cycle.machine := by
  obtain ⟨-, hr, -⟩ := cycle_ok h
  rw [execute_ok hr, cycle_machine_of_ok h]
  generalize m.nextOpcode = op
  have htick (b : UInt8) : (UInt8.ofNat (b.toNat - 1)).toNat = b.toNat - 1 := by
    have := b.toNat_lt
    rw [UInt8.toNat_ofNat']
    omega
  constructor
  case memory => exact fun a ha => writesByte_of_ne (m := m.poised) ha
  case display =>
    intro hd
    have hout := Classical.not_not.1 (mt (nextDisplay_of_outcome (m := m.poised)) hd)
    exact outcome_eq_displayUpdated_iff.1 hout
  case drawn => exact outcome_eq_displayUpdated_iff
  case waiting => exact outcome_eq_waitingForKey_iff (m := m.poised)
  case stack => exact m.poised.nextStack_cases op
  case index => exact changesIndex_of_ne (m := m.poised)
  case registers => exact fun k hk => writesRegister_of_ne (m := m.poised) hk
  case random => exact m.poised.nextRandom_cases op
  case keypad => rfl
  case delayTimer =>
    rcases m.poised.nextDelayTimer_cases op with ⟨x, hx, ht⟩ | ⟨hx, ht⟩
    · exact .inl ⟨x, hx, (htick _).trans (by rw [ht]; rfl)⟩
    · exact .inr ⟨hx, (htick _).trans (by rw [ht]; rfl)⟩
  case soundTimer =>
    rcases m.poised.nextSoundTimer_cases op with ⟨x, hx, ht⟩ | ⟨hx, ht⟩
    · exact .inl ⟨x, hx, (htick _).trans (by rw [ht]; rfl)⟩
    · exact .inr ⟨hx, (htick _).trans (by rw [ht]; rfl)⟩
  case unknown =>
    rintro w rfl
    rfl

/-- A program that draws a random byte into VF. -/
theorem cycle_changes_random :
    let m := ((Machine.withSeed 7).load [0xCF, 0xFF]).machine
    m.Reachable ∧ m.cycle.result = .ok .proceed ∧ m.Changes (.random 0xF 0xFF) .proceed m.cycle.machine := by
  intro m
  have hm : m.Reachable := (Reachable.powerOn _).after (.load [0xCF, 0xFF])
  have hop : m.nextOpcode = .random 0xF 0xFF := nextOpcode_load (by decide) rfl
  have hok : m.cycle.result = .ok .proceed := by
    have hfaults : ∀ f, ¬m.poised.Faults m.nextOpcode f := by
      rw [hop]
      exact not_faults_of_accessLength? rfl nofun nofun
    rw [cycle_of_not_faults (m := m) (by decide) hfaults, hop]
    rfl
  refine ⟨hm, hok, ?_⟩
  rw [← hop]
  exact cycle_changes hok

end Machine

end Chip8
