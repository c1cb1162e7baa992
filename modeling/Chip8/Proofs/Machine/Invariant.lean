import Chip8.Display.Lemmas
import Chip8.Machine.Run
import Chip8.Proofs.Machine.Effect

/-!
# The invariant of the machine

`Machine.WellFormed` bounds the call stack, its entries and the program counter, and says that every
cell of the display is lit or dark. The bounds only hold together: a return takes the counter from the
stack, and a call puts it there. Every request preserves them (`WellFormed.after`), so every reachable
machine has them, and none of the sums and differences on its counter wraps around (`Unwrapped`).
-/

namespace Chip8

namespace Display

/-- Every cell is lit or dark. -/
def TwoValued (d : Display) : Prop := ∀ c, d.word c = pixelOn ∨ d.word c = pixelOff

theorem TwoValued.blank : blank.TwoValued := fun c => .inr (Vector.getElem_replicate c.isLt)

theorem TwoValued.draw {d : Display} (h : d.TwoValued) (s : Sprite) : (d.draw s).TwoValued := by
  intro c
  rw [word_draw]
  split
  · rcases h c with hc | hc
    · exact .inr (by rw [hc]; rfl)
    · exact .inl (by rw [hc]; rfl)
  · exact h c

end Display

namespace Machine

/-- What holds of every reachable machine. -/
structure WellFormed (m : Machine) : Prop where
  depth : m.stack.length ≤ stackDepth
  entries : ∀ a ∈ m.stack, 2 ≤ a.toNat ∧ a.toNat ≤ memorySize
  /-- The greatest value is that of a jump to the last address with the greatest offset. -/
  counter : m.pc.toNat ≤ 0x10FE
  cells : m.display.TwoValued

/-! ## What an instruction preserves -/

theorem length_nextStack_le {m : Machine} (h : m.stack.length ≤ stackDepth) (op : Opcode) :
    (m.nextStack op).length ≤ stackDepth := by
  cases op with
  | ret =>
    rw [nextStack, List.length_tail]
    omega
  | call nnn =>
    rw [nextStack]
    split
    · rw [List.length_cons]
      omega
    · exact h
  | _ => exact h

theorem mem_nextStack {m : Machine} {op : Opcode} {a : UInt16} (h : a ∈ m.nextStack op) :
    a = m.pc ∨ a ∈ m.stack := by
  cases op with
  | ret => exact .inr (List.mem_of_mem_tail h)
  | call nnn =>
    rw [nextStack] at h
    split at h
    · exact List.mem_cons.1 h
    · exact .inr h
  | _ => exact .inr h

theorem toNat_address (nnn : Address) : (UInt16.ofNat nnn.val).toNat = nnn.val := by
  have := nnn.isLt
  rw [UInt16.toNat_ofNat']
  omega

theorem toNat_addOffset (nnn : Address) (b : UInt8) :
    (UInt16.ofNat nnn.val + b.toUInt16).toNat = nnn.val + b.toNat := by
  have := nnn.isLt
  have := b.toNat_lt
  rw [UInt16.toNat_add, toNat_address, UInt8.toNat_toUInt16]
  omega

theorem toNat_addTwo {a : UInt16} (h : a.toNat ≤ memorySize) : (a + 2).toNat = a.toNat + 2 := by
  have : (2 : UInt16).toNat = 2 := rfl
  rw [UInt16.toNat_add]
  simp only [memorySize] at h
  omega

theorem toNat_subTwo {a : UInt16} (h : 2 ≤ a.toNat) : (a - 2).toNat = a.toNat - 2 :=
  UInt16.toNat_sub_of_le a 2 h

/-- An instruction leaves the counter within its bound, wherever the stack can send it. -/
theorem toNat_nextPc_le {m : Machine} (hpc : 2 ≤ m.pc.toNat ∧ m.pc.toNat ≤ memorySize)
    (hs : ∀ a ∈ m.stack, a.toNat ≤ memorySize) (op : Opcode) : (m.nextPc op).toNat ≤ 0x10FE := by
  have hkeep : m.pc.toNat ≤ 0x10FE := Nat.le_trans hpc.2 (by decide)
  have haddress (nnn : Address) : (UInt16.ofNat nnn.val).toNat ≤ 0x10FE := by
    have := nnn.isLt
    rw [toNat_address]
    omega
  have hskip (b : Bool) : (if b then m.pc + 2 else m.pc).toNat ≤ 0x10FE := by
    split
    · rw [toNat_addTwo hpc.2]
      have := hpc.2
      simp only [memorySize] at this
      omega
    · exact hkeep
  cases op with
  | ret =>
    rw [nextPc]
    cases hst : m.stack with
    | nil => exact hkeep
    | cons a rest => exact Nat.le_trans (hs a (by rw [hst]; exact List.mem_cons_self)) (by decide)
  | jump nnn => exact haddress nnn
  | jumpWithOffset nnn =>
    have := nnn.isLt
    have := (m.reg 0).toNat_lt
    rw [nextPc, toNat_addOffset]
    omega
  | call nnn =>
    rw [nextPc]
    split
    · exact haddress nnn
    · exact hkeep
  | waitForKey x =>
    rw [nextPc]
    split
    · exact hkeep
    · rw [toNat_subTwo hpc.1]
      omega
  | _ => exact hskip _

theorem twoValued_nextDisplay {m : Machine} (h : m.display.TwoValued) (op : Opcode) :
    (m.nextDisplay op).TwoValued := by
  cases op with
  | clearDisplay => exact .blank
  | draw x y n =>
    rw [nextDisplay]
    split
    · exact h.draw _
    · exact h
  | _ => exact h

theorem toNat_pc_poised {m : Machine} (hle : m.pc.toNat + 2 ≤ memorySize) :
    m.poised.pc.toNat = m.pc.toNat + 2 :=
  toNat_addTwo (Nat.le_trans (Nat.le_add_right _ _) hle)

namespace WellFormed

variable {m : Machine}

theorem powerOn (random : RandomSource) : (Machine.powerOn random).WellFormed where
  depth := Nat.zero_le _
  entries := nofun
  counter := show (UInt16.ofNat programStart).toNat ≤ 0x10FE by decide
  cells := .blank

/-- The counter of a machine about to carry out an instruction points behind a word in memory. -/
theorem execute (h : m.WellFormed) (hpc : 2 ≤ m.pc.toNat ∧ m.pc.toNat ≤ memorySize) (op : Opcode) :
    (m.execute op).machine.WellFormed where
  depth := by
    rw [execute_stack]
    exact length_nextStack_le h.depth op
  entries := by
    intro a ha
    rw [execute_stack] at ha
    rcases mem_nextStack ha with rfl | ha
    · exact hpc
    · exact h.entries a ha
  counter := by
    rw [execute_pc]
    exact toNat_nextPc_le hpc (fun a ha => (h.entries a ha).2) op
  cells := by
    rw [execute_display]
    exact twoValued_nextDisplay h.cells op

theorem tick (h : m.WellFormed) : m.tick.WellFormed :=
  ⟨h.depth, h.entries, h.counter, h.cells⟩

theorem poised (h : m.WellFormed) (hle : m.pc.toNat + 2 ≤ memorySize) : m.poised.WellFormed where
  depth := h.depth
  entries := h.entries
  counter := by
    rw [toNat_pc_poised hle]
    exact Nat.le_trans hle (by decide)
  cells := h.cells

/-! ## What a request preserves -/

theorem cycle (h : m.WellFormed) : m.cycle.machine.WellFormed := by
  rcases m.cycle_cases with hlt | ⟨hle, ⟨f, hf⟩ | hf⟩
  · rw [cycle_of_lt hlt]
    exact h
  · rw [cycle_of_faults hle hf]
    exact h.poised hle
  · rw [cycle_of_not_faults hle hf]
    have hpc := toNat_pc_poised hle
    exact ((h.poised hle).execute ⟨by omega, by omega⟩ _).tick

theorem after (h : m.WellFormed) (r : Request) : (m.after r).WellFormed := by
  cases r with
  | cycle => exact h.cycle
  | load rom =>
    rw [Machine.after, load_writes]
    exact ⟨h.depth, h.entries, h.counter, h.cells⟩
  | reset => exact .powerOn m.random
  | putKey key down =>
    rw [Machine.after, putKey_writes]
    exact ⟨h.depth, h.entries, h.counter, h.cells⟩

end WellFormed

theorem Reachable.wellFormed {m : Machine} (h : m.Reachable) : m.WellFormed := by
  induction h with
  | powerOn random => exact .powerOn random
  | after _ r ih => exact ih.after r

/-! ## Arithmetic on the counter -/

/-- Carrying out the word `w`, no sum or difference on the counter leaves the range of an address
word: each has the value it has among the natural numbers. -/
structure Unwrapped (m : Machine) (w : UInt16) : Prop where
  advance : (m.fetched w).pc.toNat = m.pc.toNat + 2
  skip : ((m.fetched w).skipIf true).pc.toNat = (m.fetched w).pc.toNat + 2
  jump : ∀ nnn : Address,
    ((m.fetched w).execute (.jumpWithOffset nnn)).machine.pc.toNat = nnn.val + (m.reg 0).toNat
  /-- The step back of an instruction that waits for a key. -/
  poll : ∀ x, m.firstKeyDown? = none → ((m.fetched w).waitForKey x).machine.pc.toNat + 2 = (m.fetched w).pc.toNat
  address : (m.fetched w).instructionAddress.toNat + 2 = (m.fetched w).pc.toNat

theorem unwrapped_of_le {m : Machine} (hle : m.pc.toNat + 2 ≤ memorySize) : m.Unwrapped m.nextWord := by
  have hpc : (m.fetched m.nextWord).pc.toNat = m.pc.toNat + 2 := toNat_pc_poised hle
  have hback : ((m.fetched m.nextWord).pc - 2).toNat + 2 = (m.fetched m.nextWord).pc.toNat := by
    rw [toNat_subTwo (by omega)]
    omega
  refine ⟨hpc, toNat_addTwo (by omega), fun nnn => toNat_addOffset nnn _, ?_, hback⟩
  intro x hk
  have hwait : (m.fetched m.nextWord).waitForKey x =
      ⟨.ok .waitingForKey, { m.fetched m.nextWord with pc := (m.fetched m.nextWord).pc - 2 }, []⟩ := by
    unfold waitForKey
    rw [show (m.fetched m.nextWord).firstKeyDown? = none from hk]
  rw [hwait]
  exact hback

/-- Whatever is asked of a machine and in whatever order, its stack, its counter and its display stay
within their bounds, and no cycle computes an address that wraps around. -/
theorem Reachable.wellFormed_and_unwrapped {m : Machine} (h : m.Reachable) :
    m.WellFormed ∧ ∀ w, m.fetch = .ok w → m.Unwrapped w := by
  refine ⟨h.wellFormed, ?_⟩
  intro w hw
  by_cases hle : m.pc.toNat + 2 ≤ memorySize
  · rw [fetch_of_le hle] at hw
    cases hw
    exact unwrapped_of_le hle
  · rw [fetch_of_lt (by omega)] at hw
    cases hw

/-- A machine about to carry out a jump with an offset. -/
theorem wellFormed_and_unwrapped_jump :
    let m := ((Machine.withSeed 7).load [0xBF, 0xFF]).machine
    m.Reachable ∧ m.fetch = .ok 0xBFFF ∧ m.WellFormed ∧ m.Unwrapped 0xBFFF := by
  intro m
  have hm : m.Reachable := (Reachable.powerOn _).after (.load [0xBF, 0xFF])
  have hw : m.fetch = .ok 0xBFFF := by
    rw [fetch_of_le (m := m) (by decide), nextWord_load (by decide) rfl]
    rfl
  exact ⟨hm, hw, hm.wellFormed_and_unwrapped.1, hm.wellFormed_and_unwrapped.2 _ hw⟩

end Machine

end Chip8
