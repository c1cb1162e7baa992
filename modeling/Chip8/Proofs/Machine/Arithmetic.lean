import Chip8.Proofs.Machine.Execution

/-!
# Arithmetic on registers

An operation on Vx and Vy as one on numbers: `AluOp.value` is its result and `AluOp.flag?` the flag that goes with
it. What a machine computes is this result and this flag, taken from both registers before either is written,
whichever registers they are (`toNat_reg_alu`, `toNat_flag_alu`). Only where the result goes to VF as well does the
order of the two writes show, and there it depends on the operation (`AluOp.settled`).
-/

namespace Chip8

namespace AluOp

/-- What goes to Vx, from the numbers in Vx and Vy. -/
def value : AluOp → Nat → Nat → Nat
  | .set, _, b => b
  | .or, a, b => a ||| b
  | .and, a, b => a &&& b
  | .xor, a, b => a ^^^ b
  | .add, a, b => (a + b) % 256
  | .sub, a, b => (256 + a - b) % 256
  | .subReverse, a, b => (256 + b - a) % 256
  | .shiftRight, a, _ => a / 2
  | .shiftLeft, a, _ => 2 * a % 256

/-- The flag of an operation that has one. -/
def flag? : AluOp → Nat → Nat → Option Nat
  | .add, a, b => some (if 255 < a + b then 1 else 0)
  | .sub, a, b => some (if b < a then 1 else 0)
  | .subReverse, a, b => some (if a < b then 1 else 0)
  | .shiftRight, a, _ => some (a % 2)
  | .shiftLeft, a, _ => some (a / 128)
  | .set, _, _ | .or, _, _ | .and, _, _ | .xor, _, _ => none

/-- What is in VF after an operation with the flag `c` whose result goes to VF too. A shift takes the flag for the
number that it shifts. -/
def settled (op : AluOp) (c : Nat) : Nat :=
  match op with
  | .shiftRight | .shiftLeft => op.value c c
  | _ => c

end AluOp

namespace Machine

variable {m : Machine} {x y k : Nibble} {op : AluOp}

theorem toNat_flagByte (b : Bool) : (flagByte b).toNat = if b then 1 else 0 := by
  cases b <;> rfl

theorem toNat_sub (a b : UInt8) : (a - b).toNat = (256 + a.toNat - b.toNat) % 256 := by
  have := a.toNat_lt
  have := b.toNat_lt
  rw [UInt8.toNat_sub]
  omega

theorem toNat_shiftRight (a : UInt8) : (a >>> 1).toNat = a.toNat / 2 := by
  rw [UInt8.toNat_shiftRight]
  exact Nat.shiftRight_eq_div_pow _ 1

theorem toNat_shiftLeft (a : UInt8) : (a <<< 1).toNat = 2 * a.toNat % 256 := by
  rw [UInt8.toNat_shiftLeft]
  show a.toNat <<< 1 % 256 = _
  rw [Nat.shiftLeft_eq]
  omega

theorem toNat_lowBit (a : UInt8) : (a &&& 1).toNat = a.toNat % 2 := by
  rw [UInt8.toNat_and]
  exact Nat.and_one_is_mod a.toNat

theorem toNat_highBit (a : UInt8) : (a >>> 7).toNat = a.toNat / 128 := by
  rw [UInt8.toNat_shiftRight]
  exact Nat.shiftRight_eq_div_pow _ 7

/-- The result of an operation comes from both registers as they were, as long as it does not go to VF. -/
theorem toNat_reg_alu (hx : x ≠ flag) :
    ((m.alu x y op).reg x).toNat = op.value (m.reg x).toNat (m.reg y).toNat := by
  cases op with
  | set | or | and | xor =>
    simp only [alu, reg_setReg, if_pos, AluOp.value, UInt8.toNat_or, UInt8.toNat_and, UInt8.toNat_xor]
  | add =>
    simp only [alu, reg_setReg, if_pos, if_neg hx.symm, AluOp.value]
    exact UInt8.toNat_add _ _
  | sub | subReverse => simp only [alu, reg_setReg, if_pos, if_neg hx.symm, AluOp.value, toNat_sub]
  | shiftRight => simp only [alu, reg_setReg, if_pos, if_neg hx.symm, AluOp.value, toNat_shiftRight]
  | shiftLeft => simp only [alu, reg_setReg, if_pos, if_neg hx.symm, AluOp.value, toNat_shiftLeft]

/-- The flag comes from both registers as they were, too. -/
theorem toNat_flag_alu (hx : x ≠ flag) :
    ((m.alu x y op).reg flag).toNat =
      (op.flag? (m.reg x).toNat (m.reg y).toNat).getD (m.reg flag).toNat := by
  cases op with
  | set | or | and | xor => simp only [alu, reg_setReg, if_neg hx, AluOp.flag?, Option.getD_none]
  | add =>
    simp only [alu, reg_setReg, if_pos, toNat_flagByte, decide_eq_true_eq, AluOp.flag?, Option.getD_some]
  | sub | subReverse =>
    simp only [alu, reg_setReg, if_pos, toNat_flagByte, decide_eq_true_eq, UInt8.lt_iff_toNat_lt, AluOp.flag?,
      Option.getD_some]
  | shiftRight =>
    simp only [alu, reg_setReg, if_pos, if_neg hx, toNat_lowBit, AluOp.flag?, Option.getD_some]
  | shiftLeft =>
    simp only [alu, reg_setReg, if_pos, if_neg hx, toNat_highBit, AluOp.flag?, Option.getD_some]

/-- Where the result goes to VF, sums and differences are overwritten by their flag and shifts overwrite it. -/
theorem toNat_flag_alu_flag {c : Nat} (hc : op.flag? (m.reg flag).toNat (m.reg y).toNat = some c) :
    ((m.alu flag y op).reg flag).toNat = op.settled c := by
  cases op with
  | set | or | and | xor => cases hc
  | add =>
    cases hc
    simp only [alu, reg_setReg, if_pos, toNat_flagByte, decide_eq_true_eq, AluOp.settled]
  | sub | subReverse =>
    cases hc
    simp only [alu, reg_setReg, if_pos, toNat_flagByte, decide_eq_true_eq, UInt8.lt_iff_toNat_lt, AluOp.settled]
  | shiftRight =>
    cases hc
    simp only [alu, reg_setReg, if_pos, toNat_shiftRight, toNat_lowBit, AluOp.settled, AluOp.value]
  | shiftLeft =>
    cases hc
    simp only [alu, reg_setReg, if_pos, toNat_shiftLeft, toNat_highBit, AluOp.settled, AluOp.value]

theorem flag?_le_one {a b c : Nat} (ha : a < 256) (hc : op.flag? a b = some c) : c ≤ 1 := by
  cases op with
  | set | or | and | xor => cases hc
  | add | sub | subReverse =>
    cases hc
    split <;> omega
  | shiftRight | shiftLeft =>
    cases hc
    omega

/-! ## Cycles -/

/-- What an operation on Vx and Vy leaves where `x` is not F. -/
structure Computed (m : Machine) (x y : Nibble) (op : AluOp) (m' : Machine) : Prop where
  result : (m'.reg x).toNat = op.value (m.reg x).toNat (m.reg y).toNat
  /-- An operation without a flag leaves VF alone. -/
  flag : (m'.reg flag).toNat = (op.flag? (m.reg x).toNat (m.reg y).toNat).getD (m.reg flag).toNat
  others : ∀ k, k ≠ x → k ≠ Machine.flag → m'.reg k = m.reg k

theorem cycle_of_alu (hle : m.pc.toNat + 2 ≤ memorySize) (hop : m.nextOpcode = .alu x y op) :
    m.cycle.result = .ok .proceed ∧ ∀ k, m.cycle.machine.reg k = (m.alu x y op).reg k := by
  have hok : m.cycle.result = .ok .proceed := by
    rw [cycle_ok_of_selfContained hle (by rw [hop]; rfl), hop]
    rfl
  refine ⟨hok, ?_⟩
  intro k
  rw [cycle_machine_of_ok hok, hop]
  -- the fetch has not touched the registers
  cases op <;> rfl

theorem cycle_of_addRegImm {kk : UInt8} (hle : m.pc.toNat + 2 ≤ memorySize) (hop : m.nextOpcode = .addRegImm x kk) :
    m.cycle.result = .ok .proceed ∧ ∀ k, m.cycle.machine.reg k = if x = k then m.reg x + kk else m.reg k := by
  have hok : m.cycle.result = .ok .proceed := by
    rw [cycle_ok_of_selfContained hle (by rw [hop]; rfl), hop]
    rfl
  refine ⟨hok, ?_⟩
  intro k
  rw [cycle_machine_of_ok hok, hop]
  exact Nibble.Table.get_put m.registers x k _

theorem cycle_of_changesIndex (hle : m.pc.toNat + 2 ≤ memorySize) (hop : m.nextOpcode.changesIndex = true) :
    m.cycle.result = .ok .proceed ∧ m.cycle.machine.index = m.poised.nextIndex m.nextOpcode ∧
      m.cycle.machine.registers = m.registers := by
  generalize hnext : m.nextOpcode = op at hop
  cases op with
  | setIndexImm | addIndexReg | fontChar =>
    have hok : m.cycle.result = .ok .proceed := by
      rw [cycle_ok_of_selfContained hle (by rw [hnext]; rfl), hnext]
      rfl
    rw [cycle_machine_of_ok hok, hnext]
    exact ⟨hok, rfl, rfl⟩
  | _ => cases hop

theorem toNat_glyphAddress (b : UInt8) :
    (UInt16.ofNat (Font.start + Font.glyphSize * b.toNat)).toNat = 80 + 5 * b.toNat := by
  have := b.toNat_lt
  rw [UInt16.toNat_ofNat', Font.start, Font.glyphSize]
  omega

/-- Where `x` is not F, an operation leaves its result in Vx and its flag in VF, both computed from what the registers
held before, also where one register gives both numbers or where VF gives one of them. It leaves the other registers
alone, and VF as well if it has no flag. Sums with a byte have no flag, sums with I keep sixteen bits, and the glyph
of any byte, digit or not, has an address of sixteen bits. -/
theorem cycle_computes (hle : m.pc.toNat + 2 ≤ memorySize) :
    (∀ x y op, m.nextOpcode = .alu x y op → x ≠ flag →
        m.cycle.result = .ok .proceed ∧ m.Computed x y op m.cycle.machine) ∧
      (∀ x kk, m.nextOpcode = .addRegImm x kk →
        m.cycle.result = .ok .proceed ∧
          (m.cycle.machine.reg x).toNat = ((m.reg x).toNat + kk.toNat) % 256 ∧
          ∀ k, k ≠ x → m.cycle.machine.reg k = m.reg k) ∧
      (∀ x, m.nextOpcode = .addIndexReg x →
        m.cycle.result = .ok .proceed ∧
          m.cycle.machine.index.toNat = (m.index.toNat + (m.reg x).toNat) % 65536 ∧
          m.cycle.machine.registers = m.registers) ∧
      ∀ x, m.nextOpcode = .fontChar x →
        m.cycle.result = .ok .proceed ∧
          m.cycle.machine.index.toNat = 80 + 5 * (m.reg x).toNat ∧ 80 + 5 * (m.reg x).toNat < 65536 ∧
          m.cycle.machine.registers = m.registers := by
  refine ⟨?_, ?_, ?_, ?_⟩
  · intro x y op hop hx
    obtain ⟨hok, hreg⟩ := cycle_of_alu hle hop
    refine ⟨hok, ?_⟩
    constructor
    case result => rw [hreg, toNat_reg_alu hx]
    case flag => rw [hreg, toNat_flag_alu hx]
    case others =>
      intro k hkx hkf
      rw [hreg, reg_alu hkx.symm fun _ => hkf.symm]
  · intro x kk hop
    obtain ⟨hok, hreg⟩ := cycle_of_addRegImm hle hop
    refine ⟨hok, ?_, ?_⟩
    · rw [hreg, if_pos rfl]
      exact UInt8.toNat_add _ _
    · intro k hk
      rw [hreg, if_neg hk.symm]
  · intro x hop
    obtain ⟨hok, hindex, hregisters⟩ := cycle_of_changesIndex hle (by rw [hop]; rfl)
    refine ⟨hok, ?_, hregisters⟩
    rw [hindex, hop]
    exact UInt16.toNat_add _ _
  · intro x hop
    obtain ⟨hok, hindex, hregisters⟩ := cycle_of_changesIndex hle (by rw [hop]; rfl)
    have hbyte := (m.reg x).toNat_lt
    refine ⟨hok, ?_, by omega, hregisters⟩
    rw [hindex, hop]
    exact toNat_glyphAddress _

/-- VF gives the second number of a sum that carries. -/
theorem cycle_computes_carry :
    let m := (withSeed 7).afterAll [.load [0x60, 0xC8, 0x6F, 0x64, 0x80, 0xF4], .cycle, .cycle]
    m.Reachable ∧ m.reg 0 = 200 ∧ m.reg flag = 100 ∧ m.Computed 0 flag .add m.cycle.machine ∧
      (m.cycle.machine.reg 0).toNat = 44 ∧ (m.cycle.machine.reg flag).toNat = 1 := by
  intro m
  have hm : m.Reachable := reachable_iff.2 ⟨_, _, rfl⟩
  obtain ⟨hpc, hop, hfirst, hsecond⟩ : m.pc.toNat + 2 ≤ memorySize ∧ m.nextOpcode = .alu 0 flag .add ∧
      m.reg 0 = 200 ∧ m.reg flag = 100 := by
    decide +kernel
  obtain ⟨-, hcomputed⟩ := (cycle_computes hpc).1 0 flag .add hop (by decide)
  have hsum := hcomputed.result
  have hcarry := hcomputed.flag
  rw [hfirst, hsecond] at hsum hcarry
  exact ⟨hm, hfirst, hsecond, hcomputed, hsum, hcarry⟩

/-- Where the result goes to VF too, an operation with a flag leaves VF with what the order of its writes makes of the
flag, and the other registers alone. The flag itself is left by sums and differences; after a shift it is there only
if it was zero. -/
theorem flag_wins_iff (hle : m.pc.toNat + 2 ≤ memorySize) (hop : m.nextOpcode = .alu flag y op) {c : Nat}
    (hc : op.flag? (m.reg flag).toNat (m.reg y).toNat = some c) :
    m.cycle.result = .ok .proceed ∧ (∀ k, k ≠ flag → m.cycle.machine.reg k = m.reg k) ∧
      (m.cycle.machine.reg flag).toNat = op.settled c ∧
      ((m.cycle.machine.reg flag).toNat = c ↔ c = 0 ∨ op ≠ .shiftRight ∧ op ≠ .shiftLeft) ∧
      (op = .shiftRight → (m.cycle.machine.reg flag).toNat = 0) ∧
      (op = .shiftLeft → (m.cycle.machine.reg flag).toNat = 2 * c) := by
  obtain ⟨hok, hreg⟩ := cycle_of_alu hle hop
  have hone : c ≤ 1 := flag?_le_one (m.reg flag).toNat_lt hc
  refine ⟨hok, ?_, ?_⟩
  · intro k hk
    rw [hreg, reg_alu hk.symm fun _ => hk.symm]
  · rw [hreg, toNat_flag_alu_flag hc]
    refine ⟨rfl, ?_, ?_, ?_⟩
    · cases op <;> simp [AluOp.settled, AluOp.value] <;> omega
    · rintro rfl
      simp only [AluOp.settled, AluOp.value]
      omega
    · rintro rfl
      simp only [AluOp.settled, AluOp.value]
      omega

/-- A difference from VF that is positive. -/
theorem flag_wins_iff_difference :
    let m := (withSeed 7).afterAll [.load [0x6F, 0x09, 0x61, 0x02, 0x8F, 0x15], .cycle, .cycle]
    m.Reachable ∧ m.nextOpcode = .alu flag 1 .sub ∧ m.reg flag = 9 ∧ m.reg 1 = 2 ∧
      (m.cycle.machine.reg flag).toNat = 1 ∧ m.cycle.machine.reg 1 = 2 := by
  intro m
  have hm : m.Reachable := reachable_iff.2 ⟨_, _, rfl⟩
  obtain ⟨hpc, hop, hfirst, hsecond⟩ : m.pc.toNat + 2 ≤ memorySize ∧ m.nextOpcode = .alu flag 1 .sub ∧
      m.reg flag = 9 ∧ m.reg 1 = 2 := by
    decide +kernel
  have hc : AluOp.sub.flag? (m.reg flag).toNat (m.reg 1).toNat = some 1 := by rw [hfirst, hsecond]; rfl
  obtain ⟨-, hothers, hflag, -⟩ := flag_wins_iff hpc hop hc
  exact ⟨hm, hop, hfirst, hsecond, hflag, (hothers 1 (by decide)).trans hsecond⟩

/-- The bit that a shift of VF moves out is lost: a one moved out to the right leaves zero, and one moved out to the
left leaves two. -/
theorem flag_lost_by_shift :
    let right := (withSeed 7).afterAll [.load [0x6F, 0x01, 0x8F, 0x06], .cycle]
    let left := (withSeed 7).afterAll [.load [0x6F, 0x80, 0x8F, 0x0E], .cycle]
    (right.Reachable ∧ right.nextOpcode = .alu flag 0 .shiftRight ∧ right.cycle.result = .ok .proceed ∧
        AluOp.shiftRight.flag? (right.reg flag).toNat (right.reg 0).toNat = some 1 ∧
        (right.cycle.machine.reg flag).toNat = 0) ∧
      left.Reachable ∧ left.nextOpcode = .alu flag 0 .shiftLeft ∧ left.cycle.result = .ok .proceed ∧
        AluOp.shiftLeft.flag? (left.reg flag).toNat (left.reg 0).toNat = some 1 ∧
        (left.cycle.machine.reg flag).toNat = 2 := by
  intro right left
  have hright : right.Reachable := reachable_iff.2 ⟨_, _, rfl⟩
  have hleft : left.Reachable := reachable_iff.2 ⟨_, _, rfl⟩
  obtain ⟨⟨hpc, hop, hc⟩, hpc', hop', hc'⟩ :
      (right.pc.toNat + 2 ≤ memorySize ∧ right.nextOpcode = .alu flag 0 .shiftRight ∧
        AluOp.shiftRight.flag? (right.reg flag).toNat (right.reg 0).toNat = some 1) ∧
      left.pc.toNat + 2 ≤ memorySize ∧ left.nextOpcode = .alu flag 0 .shiftLeft ∧
        AluOp.shiftLeft.flag? (left.reg flag).toNat (left.reg 0).toNat = some 1 := by
    decide +kernel
  obtain ⟨hok, hreg⟩ := cycle_of_alu hpc hop
  obtain ⟨hok', hreg'⟩ := cycle_of_alu hpc' hop'
  refine ⟨⟨hright, hop, hok, hc, ?_⟩, hleft, hop', hok', hc', ?_⟩
  · rw [hreg, toNat_flag_alu_flag hc]
    rfl
  · rw [hreg', toNat_flag_alu_flag hc']
    rfl

end Machine

end Chip8
