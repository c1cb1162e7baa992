import Chip8.Proofs.Machine.Drawing
import Chip8.Proofs.Machine.Execution

/-!
# Drawings over one another

A draw inverts cells, and it finds its sprite in memory, I and two registers. A draw before it can disturb the
sprite only through VF, so as long as no coordinate comes from there, the sprites are combined cell by cell by
exclusive or: their order does not matter, and a sprite drawn twice is gone (`Reachable.drawings_combine`).
`Machine.carryOut` is one draw with a given I, and `AtDrawing.cycle` that a cycle at the instruction comes to the same.
-/

namespace Chip8

namespace Display

theorem ext_word {d e : Display} (h : ∀ c, d.word c = e.word c) : d = e := by
  obtain ⟨v⟩ := d
  obtain ⟨w⟩ := e
  exact congrArg Display.mk (Vector.ext fun k hk => h ⟨k, hk⟩)

theorem draw_comm (d : Display) (s t : Sprite) : (d.draw s).draw t = (d.draw t).draw s := by
  refine ext_word fun c => ?_
  rw [word_draw, word_draw, word_draw, word_draw]
  -- where both sprites cover the cell it is inverted twice, in either order
  split <;> split <;> rfl

theorem draw_draw (d : Display) (s : Sprite) : (d.draw s).draw s = d := by
  refine ext_word fun c => ?_
  rw [word_draw, word_draw]
  split
  · rw [UInt32.xor_assoc, UInt32.xor_self, UInt32.xor_zero]
  · rfl

/-- The second of two equal draws falls on the cells that were dark before the first. -/
theorem collides_draw_iff {d : Display} (h : d.TwoValued) (s : Sprite) :
    (d.draw s).collides s = true ↔ ∃ c ∈ s.cells, d.word c = pixelOff := by
  simp only [collides, List.any_eq_true, lit, beq_iff_eq]
  refine exists_congr fun c => and_congr_right fun hc => ?_
  rw [word_draw, if_pos (List.contains_iff_mem.2 hc)]
  rcases h c with hw | hw
  · rw [hw]
    exact iff_of_false (by decide) (by decide)
  · rw [hw]
    exact iff_of_true rfl rfl

end Display

/-- A draw instruction with the I that it is carried out with. -/
structure Drawing where
  x : Nibble
  y : Nibble
  n : Nibble
  index : UInt16

namespace Drawing

def instruction (p : Drawing) : Opcode := .draw p.x p.y p.n

/-- Neither coordinate is taken from the register that a draw writes. -/
def OffFlag (p : Drawing) : Prop := p.x ≠ Machine.flag ∧ p.y ≠ Machine.flag

end Drawing

namespace Machine

/-- The machine with I set for a drawing. -/
def aimed (m : Machine) (p : Drawing) : Machine := { m with index := p.index }

/-- Carries out a drawing, with I set for it. -/
def carryOut (m : Machine) (p : Drawing) : Step Outcome := (m.aimed p).execute p.instruction

/-- Whether a set bit of the sprite comes to lie on the display, in column `cx` of row `cy`. -/
def Covers (m : Machine) (p : Drawing) (cx : Fin displayWidth) (cy : Fin displayHeight) : Prop :=
  (m.aimed p).Toggles p.x p.y p.n cx.val cy.val

/-- Two machines that are the same to a drawing, which brings its own I. -/
structure Alike (m s : Machine) : Prop where
  display : s.display = m.display
  registers : s.registers = m.registers
  memory : s.memory = m.memory

/-- The machine `s` is about to carry out a drawing, with the display, the registers and the memory of `m`. -/
structure AtDrawing (m s : Machine) (p : Drawing) : Prop where
  fetched : s.pc.toNat + 2 ≤ memorySize
  instruction : s.nextOpcode = p.instruction
  index : s.index = p.index
  alike : m.Alike s

/-- What is left of `m` by a drawing, and by the same drawing once more. -/
structure Cancels (m : Machine) (p : Drawing) (once twice : Machine) : Prop where
  restored : twice.display = m.display
  hit : once.reg flag = 1 ↔ ∃ cx cy, m.Covers p cx cy ∧ m.display.word (Cell.at cx cy) = Display.pixelOn
  missed : twice.reg flag = 1 ↔ ∃ cx cy, m.Covers p cx cy ∧ m.display.word (Cell.at cx cy) = Display.pixelOff
  visible : once.reg flag = 1 ∨ twice.reg flag = 1 ↔ ∃ cx cy, m.Covers p cx cy

variable {m s : Machine} {p q : Drawing} {x y n : Nibble} {t : Sprite}

theorem flagByte_eq_one_iff {b : Bool} : flagByte b = 1 ↔ b = true := by
  cases b <;> decide

theorem Alike.trans {m₁ m₂ m₃ : Machine} (h : m₁.Alike m₂) (h' : m₂.Alike m₃) : m₁.Alike m₃ :=
  ⟨h'.display.trans h.display, h'.registers.trans h.registers, h'.memory.trans h.memory⟩

/-! ## The sprite of a drawing -/

theorem sprite_congr (hx : s.reg x = m.reg x) (hy : s.reg y = m.reg y) (hmemory : s.memory = m.memory)
    (hindex : s.index = m.index) : s.sprite x y n = m.sprite x y n := by
  simp only [sprite, hx, hy, hmemory, hindex]

theorem fits_of_sprite (h : m.sprite x y n = .ok t) : m.index.toNat + m.spriteHeight y n ≤ memorySize := by
  refine Nat.not_lt.1 fun hlt => ?_
  rw [spriteHeight] at hlt
  simp only [sprite, Memory.read?_of_lt hlt, reduceCtorEq] at h

theorem carryOut_of_sprite (h : (m.aimed p).sprite p.x p.y p.n = .ok t) :
    m.carryOut p =
      ⟨.ok .displayUpdated,
        { m with
          index := p.index
          display := m.display.draw t
          registers := m.registers.put flag (flagByte (m.display.collides t)) }, []⟩ := by
  simp only [carryOut, Drawing.instruction, execute, draw, h]
  rfl

theorem carryOut_of_error {f : Fault} (h : (m.aimed p).sprite p.x p.y p.n = .error f) :
    m.carryOut p = .fault f (m.aimed p) := by
  simp only [carryOut, Drawing.instruction, execute, draw, h]

/-- A drawing that does not fault has a sprite. -/
theorem exists_sprite (h : ∃ o, (m.carryOut p).result = .ok o) : ∃ t, (m.aimed p).sprite p.x p.y p.n = .ok t := by
  obtain ⟨o, ho⟩ := h
  cases hs : (m.aimed p).sprite p.x p.y p.n with
  | ok t => exact ⟨t, rfl⟩
  | error f =>
    rw [carryOut_of_error hs] at ho
    cases ho

/-- A drawing before it leaves the sprite of a drawing whose coordinates do not come from VF. -/
theorem sprite_after_carryOut (hq : q.OffFlag) :
    ((m.carryOut p).machine.aimed q).sprite q.x q.y q.n = (m.aimed q).sprite q.x q.y q.n := by
  have hreg (k : Nibble) (hk : k ≠ flag) : ((m.carryOut p).machine.aimed q).reg k = (m.aimed q).reg k :=
    reg_draw (m := m.aimed p) hk.symm
  have hmemory : (m.carryOut p).machine.memory = m.memory := by
    rw [carryOut, execute_machine]
    rfl
  exact sprite_congr (hreg _ hq.1) (hreg _ hq.2) hmemory rfl

theorem reg_flag_carryOut (h : (m.aimed p).sprite p.x p.y p.n = .ok t) :
    (m.carryOut p).machine.reg flag = flagByte (m.display.collides t) := by
  rw [carryOut_of_sprite h]
  exact (Nibble.Table.get_put _ flag flag _).trans (if_pos rfl)

theorem mem_cells_iff_covers (h : (m.aimed p).sprite p.x p.y p.n = .ok t) {cx : Fin displayWidth}
    {cy : Fin displayHeight} : Cell.at cx cy ∈ t.cells ↔ m.Covers p cx cy :=
  mem_cells_iff_toggles h (fits_of_sprite h)

theorem exists_cell_iff (h : (m.aimed p).sprite p.x p.y p.n = .ok t) {P : Cell → Prop} :
    (∃ c ∈ t.cells, P c) ↔ ∃ cx cy, m.Covers p cx cy ∧ P (Cell.at cx cy) := by
  constructor
  · rintro ⟨c, hc, hP⟩
    obtain ⟨cx, cy, rfl⟩ := c.exists_at
    exact ⟨cx, cy, (mem_cells_iff_covers h).1 hc, hP⟩
  · rintro ⟨cx, cy, hc, hP⟩
    exact ⟨_, (mem_cells_iff_covers h).2 hc, hP⟩

/-! ## Two drawings -/

/-- Two drawings add up, whichever comes first. -/
theorem display_carryOut_carryOut {u : Sprite} (hq : q.OffFlag) (ht : (m.aimed p).sprite p.x p.y p.n = .ok t)
    (hu : (m.aimed q).sprite q.x q.y q.n = .ok u) :
    ((m.carryOut p).machine.carryOut q).result = .ok .displayUpdated ∧
      ((m.carryOut p).machine.carryOut q).machine.display = (m.display.draw t).draw u := by
  have hnext : ((m.carryOut p).machine.aimed q).sprite q.x q.y q.n = .ok u :=
    (sprite_after_carryOut hq).trans hu
  rw [carryOut_of_sprite hnext, carryOut_of_sprite ht]
  exact ⟨rfl, rfl⟩

/-- A drawing carried out twice is undone, and its two flags tell on which cells it fell. -/
theorem Reachable.cancels (hm : m.Reachable) (hp : p.OffFlag) (ht : (m.aimed p).sprite p.x p.y p.n = .ok t) :
    m.Cancels p (m.carryOut p).machine ((m.carryOut p).machine.carryOut p).machine := by
  have hcells := hm.wellFormed.cells
  have hnext : ((m.carryOut p).machine.aimed p).sprite p.x p.y p.n = .ok t :=
    (sprite_after_carryOut hp).trans ht
  have hdisplay : (m.carryOut p).machine.display = m.display.draw t := by rw [carryOut_of_sprite ht]
  have hhit : (m.carryOut p).machine.reg flag = 1 ↔
      ∃ cx cy, m.Covers p cx cy ∧ m.display.word (Cell.at cx cy) = Display.pixelOn := by
    rw [reg_flag_carryOut ht, flagByte_eq_one_iff]
    exact collides_iff ht (fits_of_sprite ht)
  have hmissed : ((m.carryOut p).machine.carryOut p).machine.reg flag = 1 ↔
      ∃ cx cy, m.Covers p cx cy ∧ m.display.word (Cell.at cx cy) = Display.pixelOff := by
    rw [reg_flag_carryOut hnext, flagByte_eq_one_iff, hdisplay, Display.collides_draw_iff hcells]
    exact exists_cell_iff ht
  constructor
  case restored => rw [(display_carryOut_carryOut hp ht ht).2, Display.draw_draw]
  case hit => exact hhit
  case missed => exact hmissed
  case visible =>
    rw [hhit, hmissed]
    constructor
    · rintro (⟨cx, cy, hc, -⟩ | ⟨cx, cy, hc, -⟩) <;> exact ⟨cx, cy, hc⟩
    · rintro ⟨cx, cy, hc⟩
      exact (hcells (Cell.at cx cy)).imp (fun hw => ⟨cx, cy, hc, hw⟩) fun hw => ⟨cx, cy, hc, hw⟩

/-! ## Cycles -/

/-- A cycle at the instruction of a drawing does what the drawing does, whatever else the machine is up to. -/
theorem AtDrawing.cycle (h : m.AtDrawing s p) :
    s.cycle.result = (m.carryOut p).result ∧ (m.carryOut p).machine.Alike s.cycle.machine := by
  obtain ⟨hpc, hop, hindex, hdisplay, hregisters, hmemory⟩ := h
  have hreg (k : Nibble) : s.reg k = (m.aimed p).reg k := congrArg (fun v => Vector.get v k) hregisters
  have hsame : s.sprite p.x p.y p.n = (m.aimed p).sprite p.x p.y p.n :=
    sprite_congr (hreg _) (hreg _) hmemory hindex
  cases ht : (m.aimed p).sprite p.x p.y p.n with
  | ok t =>
    have hsprite := hsame.trans ht
    obtain ⟨hresult, hmachine⟩ := cycle_of_draw hpc hop hsprite (fits_of_sprite hsprite)
    rw [carryOut_of_sprite ht, hresult, hmachine, hdisplay, hregisters]
    exact ⟨rfl, rfl, rfl, hmemory⟩
  | error f =>
    have hpoised : s.poised.sprite p.x p.y p.n = .error f := hsame.trans ht
    have hfaults : s.poised.Faults s.nextOpcode f := by
      rw [← execute_error_iff, hop]
      simp only [Drawing.instruction, execute, draw, hpoised]
      rfl
    rw [carryOut_of_error ht, cycle_of_faults hpc hfaults]
    exact ⟨rfl, hdisplay, hregisters, hmemory⟩

/-- Two drawings that do not fault and whose coordinates do not come from VF leave the same display in either order,
and one that is carried out twice leaves the display as it was. The first flag then tells whether the sprite fell on a
lit cell and the second whether it fell on a dark one, so that one of them is set unless nothing of the sprite shows.
Two cycles at the instructions, between which neither display nor registers nor memory change, come to the same. -/
theorem Reachable.drawings_combine (hm : m.Reachable) (hp : p.OffFlag) (hq : q.OffFlag)
    (hpok : ∃ o, (m.carryOut p).result = .ok o) (hqok : ∃ o, (m.carryOut q).result = .ok o) :
    (((m.carryOut p).machine.carryOut q).result = .ok .displayUpdated ∧
        ((m.carryOut q).machine.carryOut p).result = .ok .displayUpdated ∧
        ((m.carryOut p).machine.carryOut q).machine.display = ((m.carryOut q).machine.carryOut p).machine.display) ∧
      (((m.carryOut p).machine.carryOut p).result = .ok .displayUpdated ∧
        m.Cancels p (m.carryOut p).machine ((m.carryOut p).machine.carryOut p).machine) ∧
      ∀ d e s s', m.AtDrawing s d → s.cycle.machine.AtDrawing s' e →
        (s.cycle.result = (m.carryOut d).result ∧ (m.carryOut d).machine.Alike s.cycle.machine) ∧
          s'.cycle.result = ((m.carryOut d).machine.carryOut e).result ∧
          ((m.carryOut d).machine.carryOut e).machine.Alike s'.cycle.machine := by
  obtain ⟨t, ht⟩ := exists_sprite hpok
  obtain ⟨u, hu⟩ := exists_sprite hqok
  obtain ⟨hpq, hdisplay⟩ := display_carryOut_carryOut hq ht hu
  obtain ⟨hqp, hdisplay'⟩ := display_carryOut_carryOut hp hu ht
  obtain ⟨hpp, -⟩ := display_carryOut_carryOut hp ht ht
  refine ⟨⟨hpq, hqp, ?_⟩, ⟨hpp, hm.cancels hp ht⟩, ?_⟩
  · rw [hdisplay, hdisplay', Display.draw_comm]
  · intro d e s s' hd he
    obtain ⟨hresult, halike⟩ := hd.cycle
    have hnext : (m.carryOut d).machine.AtDrawing s' e :=
      ⟨he.fetched, he.instruction, he.index, halike.trans he.alike⟩
    exact ⟨⟨hresult, halike⟩, hnext.cycle⟩

/-- A program that draws the glyphs of zero and one over each other across the corner of the display. -/
theorem drawings_combine_corner :
    let m := (withSeed 1).afterAll [.load [0x60, 0x3E, 0x61, 0x1D, 0xA0, 0x50, 0xD0, 0x15, 0xA0, 0x55, 0xD0, 0x15],
      .cycle, .cycle, .cycle]
    let zero : Drawing := ⟨0, 1, 5, 0x50⟩
    let one : Drawing := ⟨0, 1, 5, 0x55⟩
    m.Reachable ∧ zero.OffFlag ∧ one.OffFlag ∧ (m.carryOut zero).result = .ok .displayUpdated ∧
      (m.carryOut one).result = .ok .displayUpdated ∧
      (m.afterAll [.cycle, .cycle, .cycle]).display = ((m.carryOut one).machine.carryOut zero).machine.display ∧
      m.Cancels zero (m.carryOut zero).machine ((m.carryOut zero).machine.carryOut zero).machine := by
  intro m zero one
  have hm : m.Reachable := reachable_iff.2 ⟨_, _, rfl⟩
  obtain ⟨hzero, hone, hat, hset, hnext⟩ :
      (zero.index.toNat + (m.aimed zero).spriteHeight 1 5 ≤ memorySize) ∧
      (one.index.toNat + (m.aimed one).spriteHeight 1 5 ≤ memorySize) ∧
      (m.pc.toNat + 2 ≤ memorySize ∧ m.nextOpcode = zero.instruction ∧ m.index = zero.index) ∧
      (m.cycle.machine.pc.toNat + 2 ≤ memorySize ∧ m.cycle.machine.nextOpcode = .setIndexImm 0x55) ∧
      m.cycle.machine.cycle.machine.pc.toNat + 2 ≤ memorySize ∧
      m.cycle.machine.cycle.machine.nextOpcode = one.instruction ∧ m.cycle.machine.cycle.machine.index = one.index := by
    decide +kernel
  have hzeroOff : zero.OffFlag := ⟨by decide, by decide⟩
  have honeOff : one.OffFlag := ⟨by decide, by decide⟩
  -- what follows holds of any machine with these facts, so the program is not looked at again
  clear_value m
  have hzero' : (m.carryOut zero).result = .ok .displayUpdated := by
    rw [carryOut_of_sprite (p := zero) (sprite_of_le (m := m.aimed zero) hzero)]
  have hone' : (m.carryOut one).result = .ok .displayUpdated := by
    rw [carryOut_of_sprite (p := one) (sprite_of_le (m := m.aimed one) hone)]
  have hkept : m.cycle.machine.Alike m.cycle.machine.cycle.machine := by
    rw [cycle_machine_of_ok (cycle_ok_of_selfContained hset.1 (by rw [hset.2]; rfl)), hset.2]
    exact ⟨rfl, rfl, rfl⟩
  obtain ⟨⟨-, -, horder⟩, ⟨-, hcancels⟩, hcycles⟩ :=
    hm.drawings_combine hzeroOff honeOff ⟨_, hzero'⟩ ⟨_, hone'⟩
  obtain ⟨-, -, halike⟩ := hcycles zero one m m.cycle.machine.cycle.machine
    ⟨hat.1, hat.2.1, hat.2.2, rfl, rfl, rfl⟩ ⟨hnext.1, hnext.2.1, hnext.2.2, hkept⟩
  exact ⟨hm, hzeroOff, honeOff, hzero', hone', halike.display.trans horder, hcancels⟩

end Machine

end Chip8
