import Chip8.Proofs.Machine.KeyWait
import Chip8.Proofs.Machine.Nesting

/-!
# Registers saved in memory

Two instructions save bytes from I on, the registers themselves or the decimal digits of one, and one loads
registers from there. Neither moves I, and while no instruction of a history moves I or writes to memory
(`Machine.Spares`), the bytes stay where they are (`Spares.trace`), so that a load finds what was saved
(`load_of_saved`), even if the bytes lie over the program.
-/

namespace Chip8

namespace Memory

/-- Reading where bytes have just been written gives them back. -/
theorem read_write {m : Memory} {a len : Nat} {bs : List UInt8} (hlen : len ≤ bs.length)
    (hfit : a + bs.length ≤ memorySize) : (m.write a bs).read a len = bs.take len := by
  refine List.ext_getElem? fun k => ?_
  rw [getElem?_read, List.getElem?_take]
  by_cases hk : k < len
  · have hak : a + k < memorySize := by omega
    have hin : a ≤ a + k ∧ a + k - a < bs.length := by omega
    rw [if_pos hk, if_pos hk, Vector.getElem?_eq_getElem hak, Option.getD_some, getElem_write, dif_pos hin,
      List.getElem?_eq_getElem (by omega)]
    simp only [Nat.add_sub_cancel_left]
  · rw [if_neg hk, if_neg hk]

end Memory

/-- The instructions that move I or write to memory. -/
def Opcode.disturbs : Opcode → Bool
  | .setIndexImm _ | .addIndexReg _ | .fontChar _ | .bcd _ | .storeRegs _ => true
  | _ => false

namespace Machine

/-- The bytes that an instruction saves from I on. -/
def savedBytes? (m : Machine) : Opcode → Option (List UInt8)
  | .bcd x => some (decimalDigits (m.reg x))
  | .storeRegs x => some (m.lowRegisters x)
  | _ => none

/-- A history of cycles and key events in which no instruction that is carried out moves I or writes to memory. -/
structure Spares (m : Machine) (rs : List Request) : Prop where
  requests : ∀ r ∈ rs, r = .cycle ∨ r.isKeyEvent = true
  instructions : ∀ s ∈ m.executed rs, s.nextOpcode.disturbs = false

variable {m s : Machine} {x y : Nibble} {bs : List UInt8} {rs : List Request}

/-! ## What stays -/

theorem nextMemory_of_not_disturbs {op : Opcode} (h : op.disturbs = false) : m.nextMemory op = m.memory := by
  cases op with
  | bcd | storeRegs => cases h
  | _ => rfl

theorem nextIndex_of_not_disturbs {op : Opcode} (h : op.disturbs = false) : m.nextIndex op = m.index := by
  cases op with
  | setIndexImm | addIndexReg | fontChar => cases h
  | _ => rfl

/-- A cycle keeps I and memory unless it carries out an instruction that does not. -/
theorem cycle_spares (h : m.executes .cycle = true → m.nextOpcode.disturbs = false) :
    m.cycle.machine.memory = m.memory ∧ m.cycle.machine.index = m.index := by
  by_cases he : m.executes .cycle = true
  · obtain ⟨-, o, ho⟩ := executes_iff.1 he
    rw [cycle_machine_of_ok ho, nextMemory_of_not_disturbs (h he), nextIndex_of_not_disturbs (h he)]
    exact ⟨rfl, rfl⟩
  · rw [cycle_of_not_executes he]
    exact ⟨rfl, rfl⟩

namespace Spares

theorem tail {r : Request} (h : m.Spares (r :: rs)) : (m.after r).Spares rs := by
  exact ⟨fun q hq => h.requests q (List.mem_cons_of_mem r hq), fun s hs => h.instructions s (mem_executed_cons hs)⟩

theorem after {r : Request} (h : m.Spares (r :: rs)) :
    (m.after r).memory = m.memory ∧ (m.after r).index = m.index := by
  rcases h.requests r List.mem_cons_self with rfl | hkey
  · refine cycle_spares fun he => h.instructions m ?_
    rw [executed_cons_of_executes he]
    exact List.mem_cons_self
  · cases r with
    | putKey key down =>
      rw [Machine.after, putKey_writes]
      exact ⟨rfl, rfl⟩
    | cycle | load rom | reset => cases hkey

/-- I and memory are the same throughout. -/
theorem trace (h : m.Spares rs) : ∀ s ∈ m.trace rs, s.memory = m.memory ∧ s.index = m.index := by
  induction rs generalizing m with
  | nil =>
    intro s hs
    cases List.mem_singleton.1 hs
    exact ⟨rfl, rfl⟩
  | cons r rs ih =>
    intro s hs
    rcases List.mem_cons.1 hs with rfl | hs
    · exact ⟨rfl, rfl⟩
    · obtain ⟨hmemory, hindex⟩ := ih h.tail s hs
      exact ⟨hmemory.trans h.after.1, hindex.trans h.after.2⟩

end Spares

/-! ## Saving and loading -/

theorem accessLength?_of_savedBytes? {op : Opcode} (h : m.savedBytes? op = some bs) :
    m.accessLength? op = some bs.length := by
  cases op with
  | bcd x =>
    cases h
    rfl
  | storeRegs x =>
    cases h
    rw [length_lowRegisters]
    rfl
  | _ => cases h

/-- A cycle at an instruction that accesses memory faults when the access does not fit, and only then. -/
theorem cycle_error_iff_of_accessLength? (hle : m.pc.toNat + 2 ≤ memorySize) {len : Nat}
    (hacc : m.poised.accessLength? m.nextOpcode = some len) {f : Fault} :
    m.cycle.result = .error f ↔ memorySize < m.index.toNat + len ∧ f = Memory.outOfBounds m.index := by
  rw [cycle_error_iff, faults_iff_of_accessLength? hacc]
  simp only [hle, Nat.not_lt.2 hle, false_and, true_and, false_or]
  rfl

/-- A save that fits into memory writes its bytes and leaves I. -/
theorem cycle_of_savedBytes? (hle : m.pc.toNat + 2 ≤ memorySize) (hbs : m.savedBytes? m.nextOpcode = some bs)
    (hfit : m.index.toNat + bs.length ≤ memorySize) :
    m.cycle.result = .ok .proceed ∧ m.cycle.machine.memory = m.memory.write m.index.toNat bs ∧
      m.cycle.machine.index = m.index := by
  have hpoised : m.poised.savedBytes? m.nextOpcode = some bs := hbs
  have hfaults : ∀ f, ¬m.poised.Faults m.nextOpcode f :=
    not_faults_of_fits (accessLength?_of_savedBytes? hpoised) hfit
  have hstore : (m.poised.store bs).machine.memory = m.memory.write m.index.toNat bs := by
    have hwrite : m.poised.memory.write? m.poised.index bs = .ok (m.memory.write m.index.toNat bs) :=
      Memory.write?_of_le hfit
    simp only [store, hwrite, Step.proceed]
  generalize hop : m.nextOpcode = op at hpoised
  cases op with
  | bcd x | storeRegs x =>
    cases hpoised
    have hok : m.cycle.result = .ok .proceed := by
      rw [cycle_of_not_faults hle hfaults, hop]
      rfl
    refine ⟨hok, ?_, ?_⟩
    · rw [cycle_machine_of_ok hok, hop]
      exact hstore
    · rw [cycle_machine_of_ok hok, hop]
      rfl
  | _ => cases hpoised

/-- A load that fits into memory takes a byte for each of its registers and leaves the others and I. -/
theorem cycle_of_loadRegs (hle : m.pc.toNat + 2 ≤ memorySize) (hop : m.nextOpcode = .loadRegs y)
    (hfit : m.index.toNat + (y.val + 1) ≤ memorySize) :
    m.cycle.result = .ok .proceed ∧ m.cycle.machine.index = m.index ∧
      ∀ k, m.cycle.machine.reg k = (m.memory.read m.index.toNat (y.val + 1))[k.val]?.getD (m.reg k) := by
  have hfaults : ∀ f, ¬m.poised.Faults m.nextOpcode f := by
    rw [hop]
    exact not_faults_of_fits rfl hfit
  have hok : m.cycle.result = .ok .proceed := by
    rw [cycle_of_not_faults hle hfaults, hop]
    rfl
  have hread : m.poised.memory.read? m.poised.index (y.val + 1) = .ok (m.memory.read m.index.toNat (y.val + 1)) :=
    Memory.read?_of_le hfit
  refine ⟨hok, ?_, fun k => ?_⟩
  · rw [cycle_machine_of_ok hok, hop]
    rfl
  · rw [cycle_machine_of_ok hok, hop]
    simp only [reg, nextRegisters, loadRegisters, hread, Step.proceed, get_replaceRegisters]
    rfl

/-- A load finds the bytes of an earlier save, whatever instructions in between leave I and memory alone. -/
theorem load_of_saved (hle : m.pc.toNat + 2 ≤ memorySize) (hbs : m.savedBytes? m.nextOpcode = some bs)
    (hfit : m.index.toNat + bs.length ≤ memorySize) (hrs : m.cycle.machine.Spares rs)
    (hs : s = m.cycle.machine.afterAll rs) (hpc : s.pc.toNat + 2 ≤ memorySize) (hop : s.nextOpcode = .loadRegs y)
    (hy : y.val < bs.length) :
    s.cycle.result = .ok .proceed ∧ s.cycle.machine.index = m.index ∧
      (∀ k ≤ y, bs[k.val]? = some (s.cycle.machine.reg k)) ∧ ∀ k > y, s.cycle.machine.reg k = s.reg k := by
  obtain ⟨-, hmemory, hindex⟩ := cycle_of_savedBytes? hle hbs hfit
  obtain ⟨hsmemory, hsindex⟩ := hrs.trace s (hs ▸ afterAll_mem_trace _ rs)
  have hi : s.index = m.index := hsindex.trans hindex
  have hread : s.memory.read s.index.toNat (y.val + 1) = bs.take (y.val + 1) := by
    rw [hsmemory, hmemory, hi]
    exact Memory.read_write hy hfit
  obtain ⟨hok, hkept, hreg⟩ := cycle_of_loadRegs hpc hop (by rw [hi]; omega)
  refine ⟨hok, hkept.trans hi, fun k hk => ?_, fun k hk => ?_⟩
  · have hlt : k.val < y.val + 1 := Nat.lt_succ_of_le hk
    have hin : k.val < bs.length := by omega
    rw [hreg, hread, List.getElem?_take_of_lt hlt, List.getElem?_eq_getElem hin, Option.getD_some]
  · have hge : y.val + 1 ≤ k.val := hk
    rw [hreg, hread, List.getElem?_take_eq_none hge, Option.getD_none]

theorem getElem?_lowRegisters {k : Nibble} (hk : k ≤ x) : (m.lowRegisters x)[k.val]? = some (m.reg k) := by
  have hlt : k.val < x.val + 1 := Nat.lt_succ_of_le hk
  rw [lowRegisters, List.getElem?_take_of_lt hlt, Vector.getElem?_toList, Vector.getElem?_eq_getElem k.isLt]
  rfl

/-- The digits of a byte are digits, and they give it back. -/
theorem decimalDigits_spec (b : UInt8) :
    ((b / 100).toNat ≤ 9 ∧ (b / 10 % 10).toNat ≤ 9 ∧ (b % 10).toNat ≤ 9) ∧
      100 * (b / 100).toNat + 10 * (b / 10 % 10).toNat + (b % 10).toNat = b.toNat := by
  have := b.toNat_lt
  have hten : (10 : UInt8).toNat = 10 := rfl
  have hhundred : (100 : UInt8).toNat = 100 := rfl
  simp only [UInt8.toNat_div, UInt8.toNat_mod, hten, hhundred]
  omega

/-- Registers that are saved come back, and so do the digits of one. Between the save and the load there may be any
cycles and key events, as long as no instruction that is carried out moves I or writes to memory; I is then the same
throughout. The registers that are not loaded keep what they hold. A save faults where a load of the same registers
would. -/
theorem saved_registers_come_back (hle : m.pc.toNat + 2 ≤ memorySize) :
    (∀ x, m.nextOpcode = .storeRegs x → m.index.toNat + x.val + 1 ≤ memorySize →
        m.cycle.result = .ok .proceed ∧
          ∀ rs, m.cycle.machine.Spares rs →
            (∀ s ∈ m.cycle.machine.trace rs, s.index = m.index) ∧
              ∀ s y, s = m.cycle.machine.afterAll rs → s.pc.toNat + 2 ≤ memorySize → s.nextOpcode = .loadRegs y →
                y ≤ x →
                  s.cycle.result = .ok .proceed ∧ s.cycle.machine.index = m.index ∧
                    (∀ k ≤ y, s.cycle.machine.reg k = m.reg k) ∧ ∀ k > y, s.cycle.machine.reg k = s.reg k) ∧
      (∀ x, m.nextOpcode = .bcd x → m.index.toNat + 3 ≤ memorySize →
        m.cycle.result = .ok .proceed ∧
          ∀ rs, m.cycle.machine.Spares rs →
            (∀ s ∈ m.cycle.machine.trace rs, s.index = m.index) ∧
              ∀ s, s = m.cycle.machine.afterAll rs → s.pc.toNat + 2 ≤ memorySize → s.nextOpcode = .loadRegs 2 →
                s.cycle.result = .ok .proceed ∧ s.cycle.machine.index = m.index ∧
                  ((s.cycle.machine.reg 0).toNat ≤ 9 ∧ (s.cycle.machine.reg 1).toNat ≤ 9 ∧
                    (s.cycle.machine.reg 2).toNat ≤ 9) ∧
                  100 * (s.cycle.machine.reg 0).toNat + 10 * (s.cycle.machine.reg 1).toNat +
                    (s.cycle.machine.reg 2).toNat = (m.reg x).toNat ∧
                  ∀ k > 2, s.cycle.machine.reg k = s.reg k) ∧
      ∀ (m' : Machine) x f, m.nextOpcode = .storeRegs x → m'.pc.toNat + 2 ≤ memorySize → m'.nextOpcode = .loadRegs x →
        m'.index = m.index → (m.cycle.result = .error f ↔ m'.cycle.result = .error f) := by
  refine ⟨?_, ?_, ?_⟩
  · intro x hop hlen
    have hbs : m.savedBytes? m.nextOpcode = some (m.lowRegisters x) := by
      rw [hop]
      rfl
    have hfit : m.index.toNat + (m.lowRegisters x).length ≤ memorySize := by
      rw [length_lowRegisters]
      omega
    obtain ⟨hok, -, hindex⟩ := cycle_of_savedBytes? hle hbs hfit
    refine ⟨hok, fun rs hrs => ⟨fun s hs => (hrs.trace s hs).2.trans hindex, ?_⟩⟩
    intro s y hs hpc hload hyx
    have hy : y.val < (m.lowRegisters x).length := by
      rw [length_lowRegisters]
      exact Nat.lt_succ_of_le hyx
    obtain ⟨hresult, hi, hloaded, hkept⟩ := load_of_saved hle hbs hfit hrs hs hpc hload hy
    refine ⟨hresult, hi, fun k hk => ?_, hkept⟩
    have hk' := hloaded k hk
    rw [getElem?_lowRegisters (Fin.le_trans hk hyx)] at hk'
    exact (Option.some.inj hk').symm
  · intro x hop hlen
    have hbs : m.savedBytes? m.nextOpcode = some (decimalDigits (m.reg x)) := by
      rw [hop]
      rfl
    obtain ⟨hok, -, hindex⟩ := cycle_of_savedBytes? hle hbs hlen
    refine ⟨hok, fun rs hrs => ⟨fun s hs => (hrs.trace s hs).2.trans hindex, ?_⟩⟩
    intro s hs hpc hload
    obtain ⟨hresult, hi, hloaded, hkept⟩ := load_of_saved hle hbs hlen hrs hs hpc hload (Nat.lt_succ_self 2)
    have hhundreds := Option.some.inj (hloaded 0 (by decide))
    have htens := Option.some.inj (hloaded 1 (by decide))
    have hones := Option.some.inj (hloaded 2 (by decide))
    rw [← hhundreds, ← htens, ← hones]
    obtain ⟨hdigits, hvalue⟩ := decimalDigits_spec (m.reg x)
    exact ⟨hresult, hi, hdigits, hvalue, hkept⟩
  · intro m' x f hop hle' hop' hindex
    have hsave : m.poised.accessLength? m.nextOpcode = some (x.val + 1) := by
      rw [hop]
      rfl
    have hload : m'.poised.accessLength? m'.nextOpcode = some (x.val + 1) := by
      rw [hop']
      rfl
    rw [cycle_error_iff_of_accessLength? hle hsave, cycle_error_iff_of_accessLength? hle' hload, hindex]

/-- Two registers saved over the program, which then carries them out as an instruction, and the digits of 254. -/
theorem saved_registers_come_back_overwriting :
    let m := (withSeed 7).afterAll [.load [0x60, 0x62, 0x61, 0x07, 0xA2, 0x0A, 0xF1, 0x55, 0x60, 0x00, 0x00, 0x00,
      0xF0, 0x65], .cycle, .cycle, .cycle]
    let rs : List Request := [.cycle, .putKey 3 true, .cycle]
    let s := m.cycle.machine.afterAll rs
    let d := (withSeed 7).afterAll [.load [0x60, 0xFE, 0xAF, 0xFD, 0xF0, 0x33, 0xF2, 0x65], .cycle, .cycle]
    m.Reachable ∧ m.nextOpcode = .storeRegs 1 ∧ m.cycle.machine.Spares rs ∧ s.nextOpcode = .loadRegs 0 ∧
      s.reg 0 = 0 ∧ s.reg 2 = 7 ∧ s.cycle.result = .ok .proceed ∧ s.cycle.machine.reg 0 = 0x62 ∧
      s.cycle.machine.reg 2 = 7 ∧ s.cycle.machine.index = 0x20A ∧ d.Reachable ∧ d.nextOpcode = .bcd 0 ∧
      d.cycle.machine.cycle.result = .ok .proceed ∧
      100 * (d.cycle.machine.cycle.machine.reg 0).toNat + 10 * (d.cycle.machine.cycle.machine.reg 1).toNat +
        (d.cycle.machine.cycle.machine.reg 2).toNat = 254 := by
  intro m rs s d
  have hm : m.Reachable := reachable_iff.2 ⟨_, _, rfl⟩
  have hd : d.Reachable := reachable_iff.2 ⟨_, _, rfl⟩
  obtain ⟨⟨hpc, hop, hfit, hsaved, hindex⟩, hinstructions, ⟨hspc, hsop, hcleared, hseven⟩⟩ :
      (m.pc.toNat + 2 ≤ memorySize ∧ m.nextOpcode = .storeRegs 1 ∧
        m.index.toNat + (1 : Nibble).val + 1 ≤ memorySize ∧ m.reg 0 = 0x62 ∧ m.index = 0x20A) ∧
      (∀ t ∈ m.cycle.machine.executed rs, t.nextOpcode.disturbs = false) ∧
      s.pc.toNat + 2 ≤ memorySize ∧ s.nextOpcode = .loadRegs 0 ∧ s.reg 0 = 0 ∧ s.reg 2 = 7 := by
    decide +kernel
  obtain ⟨hdpc, hdop, hdfit, hvalue, hlpc, hlop⟩ :
      d.pc.toNat + 2 ≤ memorySize ∧ d.nextOpcode = .bcd 0 ∧ d.index.toNat + 3 ≤ memorySize ∧
      (d.reg 0).toNat = 254 ∧ d.cycle.machine.pc.toNat + 2 ≤ memorySize ∧
      d.cycle.machine.nextOpcode = .loadRegs 2 := by
    decide +kernel
  have hspares : m.cycle.machine.Spares rs := ⟨by decide, hinstructions⟩
  clear_value d
  have hnothing : d.cycle.machine.Spares [] := ⟨nofun, nofun⟩
  obtain ⟨-, hload⟩ := (saved_registers_come_back hpc).1 1 hop hfit
  obtain ⟨hresult, hi, hback, hkept⟩ := (hload rs hspares).2 s 0 rfl hspc hsop (by decide)
  obtain ⟨-, hdigits⟩ := (saved_registers_come_back hdpc).2.1 0 hdop hdfit
  obtain ⟨hdresult, -, -, hsum, -⟩ := (hdigits [] hnothing).2 _ rfl hlpc hlop
  exact ⟨hm, hop, hspares, hsop, hcleared, hseven, hresult, (hback 0 (by decide)).trans hsaved,
    (hkept 2 (by decide)).trans hseven, hi.trans hindex, hd, hdop, hdresult, hsum.trans hvalue⟩

end Machine

end Chip8
