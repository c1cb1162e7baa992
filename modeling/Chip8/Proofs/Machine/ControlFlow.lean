import Chip8.Proofs.Machine.Invariant
import Chip8.Proofs.Machine.WriteSet

/-!
# Where a machine goes on

`Machine.Passes` is the condition of each skip, and `Machine.GoesOn` says for each kind of instruction at
which address the next one is. Addresses are natural numbers, so that none of the sums wraps around or is
cut to twelve bits. Every cycle that succeeds goes on as listed, and of a skip and its opposite exactly one
passes over the next instruction (`Machine.cycle_goesOn`).
-/

namespace Chip8

namespace Opcode

/-- The instructions that go on at an address of their own. -/
def jumps : Opcode → Bool
  | .jump _ | .jumpWithOffset _ | .call _ | .ret => true
  | _ => false

/-- The skip with the opposite condition. -/
def opposite? : Opcode → Option Opcode
  | .skipRegEqualImm x kk => some (.skipRegNotEqualImm x kk)
  | .skipRegNotEqualImm x kk => some (.skipRegEqualImm x kk)
  | .skipRegEqualReg x y => some (.skipRegNotEqualReg x y)
  | .skipRegNotEqualReg x y => some (.skipRegEqualReg x y)
  | .skipIfPressed x => some (.skipIfNotPressed x)
  | .skipIfNotPressed x => some (.skipIfPressed x)
  | _ => none

end Opcode

namespace Machine

/-- Whether the key of a number is down; a number above 15 has no key. -/
def HoldsKey (m : Machine) (b : UInt8) : Prop := ∃ key : Nibble, key.val = b.toNat ∧ m.keypad.get key = true

/-- Whether an instruction passes over the next one. -/
def Passes (m : Machine) : Opcode → Prop
  | .skipRegEqualImm x kk => m.reg x = kk
  | .skipRegNotEqualImm x kk => m.reg x ≠ kk
  | .skipRegEqualReg x y => m.reg x = m.reg y
  | .skipRegNotEqualReg x y => m.reg x ≠ m.reg y
  | .skipIfPressed x => m.HoldsKey (m.reg x)
  | .skipIfNotPressed x => ¬m.HoldsKey (m.reg x)
  | _ => False

/-- Where a cycle that carries out `op` leads, from `m` to `m'`. -/
structure GoesOn (m : Machine) (op : Opcode) (m' : Machine) : Prop where
  jump : ∀ nnn, op = .jump nnn → m'.pc.toNat = nnn.val
  jumpWithOffset : ∀ nnn, op = .jumpWithOffset nnn → m'.pc.toNat = nnn.val + (m.reg 0).toNat
  call : ∀ nnn, op = .call nnn →
    m'.pc.toNat = nnn.val ∧ ∃ a : UInt16, a.toNat = m.pc.toNat + 2 ∧ m'.stack = a :: m.stack
  ret : op = .ret → m.stack = m'.pc :: m'.stack
  poll : ∀ x, op = .waitForKey x → (∀ key, m.keypad.get key = false) → m'.pc = m.pc
  pass : m.Passes op → m'.pc.toNat = m.pc.toNat + 4
  next : ¬m.Passes op → op.jumps = false →
    (∀ x, op = .waitForKey x → ∃ key, m.keypad.get key = true) → m'.pc.toNat = m.pc.toNat + 2
  /-- A number that names no key counts as a key that is up. -/
  noKey : ∀ x, 15 < (m.reg x).toNat →
    (op = .skipIfPressed x → m'.pc.toNat = m.pc.toNat + 2) ∧
      (op = .skipIfNotPressed x → m'.pc.toNat = m.pc.toNat + 4)

variable {m : Machine} {op op' : Opcode}

/-! ## Conditions -/

theorem keyDown_iff {b : UInt8} : m.keyDown b = true ↔ m.HoldsKey b := by
  unfold keyDown
  constructor
  · intro h
    cases hk : Nibble.ofByte? b with
    | none =>
      rw [hk] at h
      cases h
    | some key =>
      rw [hk] at h
      exact ⟨key, (Nibble.ofByte?_eq_some_iff.1 hk).symm, h⟩
  · rintro ⟨key, hk, h⟩
    rw [Nibble.ofByte?_eq_some_iff.2 hk.symm]
    exact h

theorem skips_iff_passes : m.skips op = true ↔ m.Passes op := by
  cases op with
  | skipRegEqualImm x kk | skipRegEqualReg x y => exact beq_iff_eq
  | skipRegNotEqualImm x kk | skipRegNotEqualReg x y => exact bne_iff_ne
  | skipIfPressed x => exact keyDown_iff
  | skipIfNotPressed x =>
    rw [skips, Bool.not_eq_true', ← Bool.not_eq_true]
    exact not_congr keyDown_iff
  | _ => exact iff_of_false Bool.false_ne_true not_false

theorem not_holdsKey_of_lt {b : UInt8} (h : 15 < b.toNat) : ¬m.HoldsKey b := by
  rintro ⟨key, hk, -⟩
  have := key.isLt
  omega

/-- Of a skip and its opposite exactly one passes. -/
theorem passes_opposite (h : op.opposite? = some op') : m.Passes op' ↔ ¬m.Passes op := by
  cases op with
  | skipRegEqualImm x kk | skipRegEqualReg x y | skipIfPressed x =>
    cases h
    exact Iff.rfl
  | skipRegNotEqualImm x kk | skipRegNotEqualReg x y | skipIfNotPressed x =>
    cases h
    exact Classical.not_not.symm
  | _ => cases h

/-- The condition of a skip reads registers and keys only. -/
theorem passes_congr {m' : Machine} (hr : m'.registers = m.registers) (hk : m'.keypad = m.keypad) :
    m'.Passes op ↔ m.Passes op := by
  cases op <;> simp only [Passes, HoldsKey, reg, hr, hk]

/-! ## The counter -/

/-- An instruction that neither jumps nor polls again leads behind the next instruction or in front of it. -/
theorem nextPc_eq_ite (hjumps : op.jumps = false)
    (hwait : ∀ x, op = .waitForKey x → ∃ key, m.keypad.get key = true) :
    m.nextPc op = if m.skips op then m.pc + 2 else m.pc := by
  cases op with
  | jump | jumpWithOffset | call | ret => cases hjumps
  | waitForKey x =>
    have hdown : m.firstKeyDown? ≠ none := by
      intro hnone
      obtain ⟨key, hkey⟩ := hwait x rfl
      rw [firstKeyDown?_eq_none_iff.1 hnone key] at hkey
      cases hkey
    exact if_pos (Option.isSome_iff_ne_none.2 hdown)
  | _ => rfl

theorem toNat_pc_cycle {o : Outcome} (h : m.cycle.result = .ok o) (hjumps : m.nextOpcode.jumps = false)
    (hwait : ∀ x, m.nextOpcode = .waitForKey x → ∃ key, m.keypad.get key = true) :
    m.cycle.machine.pc.toNat = m.pc.toNat + if m.skips m.nextOpcode then 4 else 2 := by
  obtain ⟨hle, -, -⟩ := cycle_ok h
  have hpoised : m.poised.pc.toNat = m.pc.toNat + 2 := toNat_pc_poised hle
  -- the condition may be read before the fetch, which changes no register and no key
  have hskips : m.poised.skips m.nextOpcode = m.skips m.nextOpcode :=
    Bool.eq_iff_iff.2 (skips_iff_passes.trans ((passes_congr rfl rfl).trans skips_iff_passes.symm))
  rw [cycle_machine_of_ok h]
  show (m.poised.nextPc m.nextOpcode).toNat = _
  rw [nextPc_eq_ite (m := m.poised) hjumps hwait, hskips]
  split
  · rw [toNat_addTwo (by omega), hpoised]
  · exact hpoised

theorem Passes.opposite? (h : m.Passes op) : ∃ op', op.opposite? = some op' := by
  cases op with
  | skipRegEqualImm | skipRegNotEqualImm | skipRegEqualReg | skipRegNotEqualReg | skipIfPressed
  | skipIfNotPressed => exact ⟨_, rfl⟩
  | _ => cases h

/-- A skip uses neither the stack nor memory, and it does not wait. -/
theorem skip_of_opposite? (h : op.opposite? = some op') :
    m.accessLength? op = none ∧ m.outcome op = .proceed ∧ op.jumps = false ∧ op ≠ .ret ∧
      (∀ nnn, op ≠ .call nnn) ∧ ∀ x, op ≠ .waitForKey x := by
  cases op with
  | skipRegEqualImm | skipRegNotEqualImm | skipRegEqualReg | skipRegNotEqualReg | skipIfPressed
  | skipIfNotPressed => exact ⟨rfl, rfl, rfl, nofun, nofun, nofun⟩
  | _ => cases h

/-- A skip does not fault and leads to one of two addresses. -/
theorem cycle_of_opposite? (hle : m.pc.toNat + 2 ≤ memorySize) (h : m.nextOpcode.opposite? = some op') :
    m.cycle.result = .ok .proceed ∧
      m.cycle.machine.pc.toNat = m.pc.toNat + if m.skips m.nextOpcode then 4 else 2 := by
  obtain ⟨haccess, hout, hjumps, hret, hcall, hwait⟩ := skip_of_opposite? (m := m.poised) h
  have hok : m.cycle.result = .ok .proceed := by
    rw [cycle_of_not_faults hle (not_faults_of_accessLength? haccess hret hcall), hout]
  exact ⟨hok, toNat_pc_cycle hok hjumps fun x hx => absurd hx (hwait x)⟩

/-- A cycle that succeeds goes on as its instruction is listed for. -/
theorem goesOn_cycle {o : Outcome} (h : m.cycle.result = .ok o) : m.GoesOn m.nextOpcode m.cycle.machine := by
  obtain ⟨hle, hr, -⟩ := cycle_ok h
  have hpoised : m.poised.pc.toNat = m.pc.toNat + 2 := toNat_pc_poised hle
  have hpc : m.cycle.machine.pc = m.poised.nextPc m.nextOpcode := by rw [cycle_machine_of_ok h]
  have hstack : m.cycle.machine.stack = m.poised.nextStack m.nextOpcode := by rw [cycle_machine_of_ok h]
  have hfaults (f : Fault) : ¬m.poised.Faults m.nextOpcode f := by
    rw [← execute_error_iff, hr]
    nofun
  constructor
  case jump =>
    intro nnn hop
    rw [hpc, hop]
    exact toNat_address nnn
  case jumpWithOffset =>
    intro nnn hop
    rw [hpc, hop]
    exact toNat_addOffset nnn (m.reg 0)
  case call =>
    intro nnn hop
    have hroom : m.poised.stack.length < stackDepth :=
      Nat.not_le.1 fun hfull => hfaults _ (by rw [hop]; exact .fullStack hfull)
    rw [hpc, hstack, hop]
    simp only [nextPc, nextStack, if_pos hroom]
    exact ⟨toNat_address nnn, m.poised.pc, hpoised, rfl⟩
  case ret =>
    intro hop
    rw [hpc, hstack, hop]
    -- on an empty stack the return would have faulted
    cases hs : m.poised.stack with
    | nil => exact absurd (by rw [hop]; exact .emptyStack hs) (hfaults _)
    | cons a rest =>
      simp only [nextPc, nextStack, hs]
      exact hs
  case poll =>
    intro x hop hup
    have hnone : m.poised.firstKeyDown? = none := firstKeyDown?_eq_none_iff.2 hup
    rw [hpc, hop]
    simp only [nextPc, hnone]
    exact m.instructionAddress_poised
  case pass =>
    intro hpass
    obtain ⟨op', hop'⟩ := hpass.opposite?
    rw [(cycle_of_opposite? hle hop').2, if_pos (skips_iff_passes.2 hpass)]
  case next =>
    intro hpass hjumps hwait
    rw [toNat_pc_cycle h hjumps hwait, if_neg (mt skips_iff_passes.1 hpass)]
  case noKey =>
    intro x hx
    have hup : ¬m.HoldsKey (m.reg x) := not_holdsKey_of_lt hx
    refine ⟨fun hop => ?_, fun hop => ?_⟩
    · have hpass : ¬m.Passes m.nextOpcode := by rw [hop]; exact hup
      rw [(cycle_of_opposite? hle (by rw [hop]; rfl)).2, if_neg (mt skips_iff_passes.1 hpass)]
    · have hpass : m.Passes m.nextOpcode := by rw [hop]; exact hup
      rw [(cycle_of_opposite? hle (by rw [hop]; rfl)).2, if_pos (skips_iff_passes.2 hpass)]

theorem opposite?_symm (h : op.opposite? = some op') : op'.opposite? = some op := by
  cases op with
  | skipRegEqualImm | skipRegNotEqualImm | skipRegEqualReg | skipRegNotEqualReg | skipIfPressed
  | skipIfNotPressed =>
    cases h
    rfl
  | _ => cases h

/-- Every cycle that succeeds goes on as listed. With the opposite of its skip at the counter instead, a
machine that is the same otherwise goes on as well, and only one of the two passes over an instruction. -/
theorem cycle_goesOn {o : Outcome} (h : m.cycle.result = .ok o) :
    m.GoesOn m.nextOpcode m.cycle.machine ∧
      ∀ m' : Machine, m' = { m with memory := m'.memory } → m.nextOpcode.opposite? = some m'.nextOpcode →
        (∃ o', m'.cycle.result = .ok o') ∧
          (m.cycle.machine.pc.toNat = m.pc.toNat + 4 ∧ m'.cycle.machine.pc.toNat = m.pc.toNat + 2 ∨
            m.cycle.machine.pc.toNat = m.pc.toNat + 2 ∧ m'.cycle.machine.pc.toNat = m.pc.toNat + 4) := by
  refine ⟨goesOn_cycle h, ?_⟩
  intro m' hm' hop
  obtain ⟨hle, -, -⟩ := cycle_ok h
  -- `m'` has the counter, the registers and the keys of `m`, so only the sense of the two skips differs
  have hpc : m'.pc = m.pc := by rw [hm']
  obtain ⟨hok', hlead'⟩ := cycle_of_opposite? (m := m') (by rw [hpc]; exact hle) (opposite?_symm hop)
  have hpasses : m'.Passes m'.nextOpcode ↔ ¬m.Passes m.nextOpcode :=
    (passes_congr (by rw [hm']) (by rw [hm'])).trans (passes_opposite hop)
  refine ⟨⟨_, hok'⟩, ?_⟩
  rw [(cycle_of_opposite? hle hop).2, hlead', hpc]
  by_cases hpass : m.Passes m.nextOpcode
  · rw [if_pos (skips_iff_passes.2 hpass), if_neg fun hs => hpasses.1 (skips_iff_passes.1 hs) hpass]
    exact .inl ⟨rfl, rfl⟩
  · rw [if_neg (mt skips_iff_passes.1 hpass), if_pos (skips_iff_passes.2 (hpasses.2 hpass))]
    exact .inr ⟨rfl, rfl⟩

/-- A program that skips, and the same machine with the opposite skip in its memory. -/
theorem cycle_goesOn_skip :
    let m := ((Machine.withSeed 7).load [0x30, 0x00]).machine
    let m' := (m.load [0x40, 0x00]).machine
    m.Reachable ∧ m.cycle.result = .ok .proceed ∧ m.GoesOn (.skipRegEqualImm 0 0) m.cycle.machine ∧
      m.cycle.machine.pc.toNat = 0x204 ∧ m'.cycle.machine.pc.toNat = 0x202 := by
  intro m m'
  have hm : m.Reachable := (Reachable.powerOn _).after (.load [0x30, 0x00])
  have hop : m.nextOpcode = .skipRegEqualImm 0 0 := nextOpcode_load (by decide) rfl
  have hop' : m'.nextOpcode = .skipRegNotEqualImm 0 0 := nextOpcode_load (by decide) rfl
  have hok : m.cycle.result = .ok .proceed := (cycle_of_opposite? (m := m) (by decide) (by rw [hop]; rfl)).1
  obtain ⟨hgoes, hopposite⟩ := cycle_goesOn hok
  have hpass : m.cycle.machine.pc.toNat = 0x204 := hgoes.pass (by rw [hop]; rfl)
  obtain ⟨-, ⟨-, hnext⟩ | ⟨hnext, -⟩⟩ := hopposite m' (m.load_writes _) (by rw [hop, hop']; rfl)
  · exact ⟨hm, hok, hop ▸ hgoes, hpass, hnext⟩
  · rw [hpass] at hnext
    cases hnext

end Machine

end Chip8
