import Chip8.Proofs.Machine.Invariant
import Chip8.Proofs.Machine.WriteSet

/-!
# Drawing

What a draw does to each cell of the display, in terms of the registers and the memory that it starts from
(`Machine.Toggles`). Its cells are the places that two nested loops over rows and columns come to
(`Sprite.map_val_cells`), and a loop that flips them in place, noting whether a cell was lit when it came to it,
ends with the display and the flag of the draw (`Display.foldl_plot`): no cell comes twice, so that what is still
to come is as it was at the start.
-/

namespace Chip8

namespace Display

/-- One turn of a loop that draws in place: the display and the flag after it. -/
def plot (acc : Display × Bool) (c : Cell) : Display × Bool := (acc.1.flip c, acc.2 || acc.1.lit c)

/-- The loop carries a display in which the cells to come are as they were in the display that it started with. -/
theorem foldl_plot {d e : Display} {cs : List Cell} (hcs : cs.Nodup) (hcome : ∀ c ∈ cs, e.word c = d.word c)
    (hit : Bool) : cs.foldl plot (e, hit) = (cs.foldl flip e, hit || cs.any d.lit) := by
  induction cs generalizing e hit with
  | nil => simp
  | cons c cs ih =>
    obtain ⟨hc, hcs⟩ := List.nodup_cons.1 hcs
    have hlit : e.lit c = d.lit c := by rw [lit, lit, hcome c List.mem_cons_self]
    have hrest : ∀ c' ∈ cs, (e.flip c).word c' = d.word c' := by
      intro c' hc'
      have hne : c ≠ c' := fun h => hc (h ▸ hc')
      rw [word_flip, if_neg hne]
      exact hcome c' (List.mem_cons_of_mem c hc')
    rw [List.foldl_cons, List.foldl_cons, plot, ih hcs hrest, List.any_cons, hlit, Bool.or_assoc]

theorem foldl_plot_cells (d : Display) (s : Sprite) :
    s.cells.foldl plot (d, false) = (d.draw s, d.collides s) :=
  foldl_plot (Sprite.nodup_cellsFrom _ _ _) (fun _ _ => rfl) false

end Display

namespace Sprite

/-- The places in the display that the inner loop comes to on screen row `y`: one for each set bit, in the columns
that are left up to the right edge. -/
def rowPlaces (x y : Nat) (row : UInt8) : List Nat :=
  ((List.range (min 8 (displayWidth - x))).filter (bit row)).map fun c => y * displayWidth + x + c

/-- The places that the outer loop comes to, row by row. -/
def placesFrom (x y : Nat) (rows : List UInt8) : List Nat :=
  (List.range rows.length).flatMap fun r => rowPlaces x (y + r) (rows[r]?.getD 0)

def places (s : Sprite) : List Nat := placesFrom s.x.val s.y.val s.rows

theorem map_val_filterMap {x : Nat} (y : Fin displayHeight) (row : UInt8) (k : Nat) :
    ((List.range k).filterMap fun c =>
        if h : x + c < displayWidth then
          if bit row c then some (Cell.at ⟨x + c, h⟩ y) else none
        else none).map Fin.val =
      ((List.range (min k (displayWidth - x))).filter (bit row)).map fun c => y.val * displayWidth + x + c := by
  induction k with
  | zero => simp
  | succ k ih =>
    rw [List.range_succ, List.filterMap_append, List.map_append, ih]
    -- past the right edge neither side grows
    by_cases hx : x + k < displayWidth
    · have hmin : min (k + 1) (displayWidth - x) = min k (displayWidth - x) + 1 := by omega
      have hk : min k (displayWidth - x) = k := by omega
      rw [hmin, List.range_succ, List.filter_append, List.map_append, hk]
      cases hb : bit row k <;> simp [hx, hb, Cell.at, Nat.add_assoc]
    · have hmin : min (k + 1) (displayWidth - x) = min k (displayWidth - x) := by omega
      rw [hmin]
      simp [hx]

theorem map_val_rowCells (x : Nat) (y : Fin displayHeight) (row : UInt8) :
    (rowCells x y row).map Fin.val = rowPlaces x y row := map_val_filterMap y row 8

theorem map_val_cellsFrom {x y : Nat} {rows : List UInt8} (h : y + rows.length ≤ displayHeight) :
    (cellsFrom x y rows).map Fin.val = placesFrom x y rows := by
  induction rows generalizing y with
  | nil => rfl
  | cons row rows ih =>
    rw [List.length_cons] at h
    have hy : y < displayHeight := by omega
    have hnext (r : Nat) : y + 1 + r = y + (r + 1) := by omega
    rw [cellsFrom, dif_pos hy, List.map_append, map_val_rowCells, ih (by omega), placesFrom, placesFrom,
      List.length_cons, List.range_succ_eq_map, List.flatMap_cons, List.flatMap_map]
    simp [hnext]

/-- A sprite whose rows all lie on the display covers the cells at its places, in their order. -/
theorem map_val_cells {s : Sprite} (h : s.y.val + s.rows.length ≤ displayHeight) :
    s.cells.map Fin.val = s.places := map_val_cellsFrom h

/-- A sprite covers a cell whose row and column, counted from its corner, are those of a set bit. -/
theorem at_mem_cells_iff {s : Sprite} {cx : Fin displayWidth} {cy : Fin displayHeight} :
    Cell.at cx cy ∈ s.cells ↔
      (s.y.val ≤ cy.val ∧ cy.val < s.y.val + s.rows.length) ∧ (s.x.val ≤ cx.val ∧ cx.val < s.x.val + 8) ∧
        bit (s.rows[cy.val - s.y.val]?.getD 0) (cx.val - s.x.val) = true := by
  rw [cells, mem_cellsFrom_iff]
  constructor
  · rintro ⟨r, hr, hy, hc⟩
    obtain ⟨k, hk, hx, hbit, heq⟩ := mem_rowCells_iff.1 hc
    obtain ⟨hcx, hcy⟩ := Cell.at_inj.1 heq
    have hcx : cx.val = s.x.val + k := congrArg Fin.val hcx
    have hcy : cy.val = s.y.val + r := congrArg Fin.val hcy
    rw [hcx, hcy, Nat.add_sub_cancel_left, Nat.add_sub_cancel_left, List.getElem?_eq_getElem hr]
    exact ⟨by omega, by omega, hbit⟩
  · rintro ⟨⟨hlo, hhi⟩, ⟨hleft, hright⟩, hbit⟩
    have hr : cy.val - s.y.val < s.rows.length := by omega
    have hcy := cy.isLt
    have hcx := cx.isLt
    rw [List.getElem?_eq_getElem hr] at hbit
    refine ⟨cy.val - s.y.val, hr, by omega, mem_rowCells_iff.2 ⟨cx.val - s.x.val, by omega, by omega, hbit, ?_⟩⟩
    rw [Cell.at_inj, Fin.ext_iff, Fin.ext_iff]
    exact ⟨by simp only; omega, by simp only; omega⟩

end Sprite

/-- Every cell has a column and a row. -/
theorem Cell.exists_at (c : Cell) : ∃ cx cy, c = Cell.at cx cy := by
  have hc : c.val < displayHeight * displayWidth := c.isLt
  refine ⟨⟨c.val % displayWidth, Nat.mod_lt _ (by decide)⟩, ⟨c.val / displayWidth, Nat.div_lt_of_lt_mul ?_⟩, ?_⟩
  · rwa [Nat.mul_comm]
  · exact Fin.ext (Nat.div_add_mod' c.val displayWidth).symm

namespace Machine

/-- How many rows of a sprite lie above the bottom edge. -/
def spriteHeight (m : Machine) (y n : Nibble) : Nat := min n.val (displayHeight - (m.reg y).toNat % displayHeight)

/-- Whether a draw flips the cell in column `cx` of row `cy`: the cell lies in the eight columns and the rows
of the sprite, and the bit there of the byte for that row is set. -/
structure Toggles (m : Machine) (x y n : Nibble) (cx cy : Nat) : Prop where
  rows : (m.reg y).toNat % displayHeight ≤ cy ∧ cy < (m.reg y).toNat % displayHeight + m.spriteHeight y n
  columns : (m.reg x).toNat % displayWidth ≤ cx ∧ cx < (m.reg x).toNat % displayWidth + 8
  bit : (m.memory[m.index.toNat + (cy - (m.reg y).toNat % displayHeight)]?.getD 0).toNat.testBit
    (7 - (cx - (m.reg x).toNat % displayWidth)) = true

/-- What a draw leaves of a machine. -/
structure Drawn (m : Machine) (x y n : Nibble) (m' : Machine) : Prop where
  toggled : ∀ cx cy, m.Toggles x y n cx.val cy.val →
    m.display.word (Cell.at cx cy) = Display.pixelOn ∧ m'.display.word (Cell.at cx cy) = Display.pixelOff ∨
      m.display.word (Cell.at cx cy) = Display.pixelOff ∧ m'.display.word (Cell.at cx cy) = Display.pixelOn
  kept : ∀ cx cy, ¬m.Toggles x y n cx.val cy.val → m'.display.word (Cell.at cx cy) = m.display.word (Cell.at cx cy)
  hit : (∃ cx cy, m.Toggles x y n cx.val cy.val ∧ m.display.word (Cell.at cx cy) = Display.pixelOn) →
    m'.reg flag = 1
  missed : (¬∃ cx cy, m.Toggles x y n cx.val cy.val ∧ m.display.word (Cell.at cx cy) = Display.pixelOn) →
    m'.reg flag = 0
  registers : ∀ k, k ≠ flag → m'.reg k = m.reg k
  index : m'.index = m.index
  memory : m'.memory = m.memory
  stack : m'.stack = m.stack
  keypad : m'.keypad = m.keypad

variable {m : Machine} {x y n : Nibble}

/-- The sprite of a draw whose rows lie in memory. -/
theorem sprite_of_le (h : m.index.toNat + m.spriteHeight y n ≤ memorySize) :
    m.sprite x y n = .ok
      { x := ⟨(m.reg x).toNat % displayWidth, Nat.mod_lt _ (by decide)⟩
        y := ⟨(m.reg y).toNat % displayHeight, Nat.mod_lt _ (by decide)⟩
        rows := m.memory.read m.index.toNat (m.spriteHeight y n) } := by
  have hread := Memory.read?_of_le (m := m.memory) h
  rw [spriteHeight] at hread
  simp only [sprite, hread, spriteHeight]

/-- The cells of the sprite are those that the registers and the memory tell. -/
theorem mem_cells_iff_toggles {s : Sprite} (hs : m.sprite x y n = .ok s)
    (h : m.index.toNat + m.spriteHeight y n ≤ memorySize) {cx : Fin displayWidth} {cy : Fin displayHeight} :
    Cell.at cx cy ∈ s.cells ↔ m.Toggles x y n cx.val cy.val := by
  rw [sprite_of_le h] at hs
  cases hs
  rw [Sprite.at_mem_cells_iff]
  simp only [Memory.length_read]
  constructor
  · rintro ⟨hrows, hcolumns, hbit⟩
    rw [Memory.getElem?_read, if_pos (by omega)] at hbit
    exact ⟨hrows, hcolumns, hbit⟩
  · rintro ⟨hrows, hcolumns, hbit⟩
    refine ⟨hrows, hcolumns, ?_⟩
    rw [Memory.getElem?_read, if_pos (by omega)]
    exact hbit

theorem collides_iff {s : Sprite} (hs : m.sprite x y n = .ok s)
    (h : m.index.toNat + m.spriteHeight y n ≤ memorySize) :
    m.display.collides s = true ↔
      ∃ cx cy, m.Toggles x y n cx.val cy.val ∧ m.display.word (Cell.at cx cy) = Display.pixelOn := by
  simp only [Display.collides, List.any_eq_true, Display.lit, beq_iff_eq]
  constructor
  · rintro ⟨c, hc, hlit⟩
    obtain ⟨cx, cy, rfl⟩ := c.exists_at
    exact ⟨cx, cy, (mem_cells_iff_toggles hs h).1 hc, hlit⟩
  · rintro ⟨cx, cy, ht, hlit⟩
    exact ⟨_, (mem_cells_iff_toggles hs h).2 ht, hlit⟩

/-- A draw whose rows lie in memory succeeds. It writes the display and VF, next to what every cycle writes. -/
theorem cycle_of_draw {s : Sprite} (hpc : m.pc.toNat + 2 ≤ memorySize) (hop : m.nextOpcode = .draw x y n)
    (hs : m.sprite x y n = .ok s) (h : m.index.toNat + m.spriteHeight y n ≤ memorySize) :
    m.cycle.result = .ok .displayUpdated ∧
      m.cycle.machine =
        { m with
          display := m.display.draw s
          registers := m.registers.put flag (flagByte (m.display.collides s))
          pc := m.pc + 2
          word := m.nextWord
          delayTimer := UInt8.ofNat (m.delayTimer.toNat - 1)
          soundTimer := UInt8.ofNat (m.soundTimer.toNat - 1) } := by
  have hfaults : ∀ f, ¬m.poised.Faults m.nextOpcode f := by
    rw [hop]
    exact not_faults_of_fits rfl h
  have hresult : m.cycle.result = .ok .displayUpdated := by
    rw [cycle_of_not_faults hpc hfaults, hop]
    rfl
  have hpoised : m.poised.sprite x y n = .ok s := hs
  refine ⟨hresult, ?_⟩
  rw [cycle_machine_of_ok hresult, hop]
  simp only [nextDisplay, nextRegisters, draw, hpoised]
  rfl

/-- The rows that are left above the bottom edge are those on the display. -/
theorem map_val_cells_of_sprite {s : Sprite} (hs : m.sprite x y n = .ok s)
    (h : m.index.toNat + m.spriteHeight y n ≤ memorySize) : s.cells.map Fin.val = s.places := by
  rw [sprite_of_le h] at hs
  cases hs
  refine Sprite.map_val_cells ?_
  rw [Memory.length_read, spriteHeight]
  have hrow : (m.reg y).toNat % displayHeight < displayHeight := Nat.mod_lt _ (by decide)
  show (m.reg y).toNat % displayHeight + _ ≤ displayHeight
  omega

/-- Drawing the sprite inverts the words of its cells. -/
theorem word_draw_of_sprite {s : Sprite} (hs : m.sprite x y n = .ok s)
    (h : m.index.toNat + m.spriteHeight y n ≤ memorySize) {cx : Fin displayWidth} {cy : Fin displayHeight} :
    (m.Toggles x y n cx.val cy.val →
        (m.display.draw s).word (Cell.at cx cy) = m.display.word (Cell.at cx cy) ^^^ Display.pixelOn) ∧
      (¬m.Toggles x y n cx.val cy.val →
        (m.display.draw s).word (Cell.at cx cy) = m.display.word (Cell.at cx cy)) := by
  rw [Display.word_draw, ← mem_cells_iff_toggles hs h]
  constructor
  · intro ht
    rw [if_pos (List.contains_iff_mem.2 ht)]
  · intro ht
    rw [if_neg (mt List.contains_iff_mem.1 ht)]

/-- A draw flips the cells of its sprite and no others, tells in VF whether one of them was lit, and leaves the rest
of the machine alone, whatever registers it takes its place from and wherever that is. Its two loops do not leave the
display, and drawing in place comes to the same. -/
theorem Reachable.draw_exact (hm : m.Reachable) (hpc : m.pc.toNat + 2 ≤ memorySize)
    (hop : m.nextOpcode = .draw x y n) (h : m.index.toNat + m.spriteHeight y n ≤ memorySize) :
    m.cycle.result = .ok .displayUpdated ∧ m.Drawn x y n m.cycle.machine ∧
      ∃ s, m.sprite x y n = .ok s ∧ s.cells.map Fin.val = s.places ∧ (∀ p ∈ s.places, p < displaySize) ∧
        s.cells.foldl Display.plot (m.display, false) =
          (m.cycle.machine.display, m.cycle.machine.reg flag == 1) := by
  obtain ⟨s, hs⟩ : ∃ s, m.sprite x y n = .ok s := ⟨_, sprite_of_le h⟩
  obtain ⟨hresult, hmachine⟩ := cycle_of_draw hpc hop hs h
  have hflag : m.cycle.machine.reg flag = flagByte (m.display.collides s) := by
    rw [hmachine]
    exact (Nibble.Table.get_put _ flag flag _).trans (if_pos rfl)
  have hplaces := map_val_cells_of_sprite hs h
  refine ⟨hresult, ?_, s, hs, hplaces, ?_, ?_⟩
  · constructor
    case toggled =>
      intro cx cy ht
      rw [hmachine, (word_draw_of_sprite hs h).1 ht]
      rcases hm.wellFormed.cells (Cell.at cx cy) with hc | hc
      · exact .inl ⟨hc, by rw [hc]; rfl⟩
      · exact .inr ⟨hc, by rw [hc]; rfl⟩
    case kept =>
      intro cx cy ht
      rw [hmachine]
      exact (word_draw_of_sprite hs h).2 ht
    case hit =>
      intro hlit
      rw [hflag, (collides_iff hs h).2 hlit]
      rfl
    case missed =>
      intro hdark
      rw [hflag, Bool.eq_false_iff.2 (mt (collides_iff hs h).1 hdark)]
      rfl
    case registers =>
      intro k hk
      rw [hmachine]
      exact (Nibble.Table.get_put _ flag k _).trans (if_neg hk.symm)
    all_goals rw [hmachine]
  · intro p hp
    rw [← hplaces, List.mem_map] at hp
    obtain ⟨c, -, rfl⟩ := hp
    exact c.isLt
  · rw [Display.foldl_plot_cells, hflag, hmachine]
    cases m.display.collides s <;> rfl

/-- VF gives both coordinates of a sprite in the last cell of the display, where all but one of its bits are dropped
and the one that is left falls on a lit cell. -/
theorem draw_exact_corner :
    let m := (withSeed 1).afterAll [.load [0x6F, 0x3F, 0xA2, 0x0A, 0xDF, 0xF2, 0x6F, 0x3F, 0xDF, 0xF2, 0xC0, 0xFF],
      .cycle, .cycle, .cycle, .cycle]
    m.Reachable ∧ m.reg flag = 63 ∧ m.pixel 63 31 = true ∧ m.cycle.result = .ok .displayUpdated ∧
      m.Drawn 0xF 0xF 2 m.cycle.machine ∧ m.cycle.machine.pixel 63 31 = false ∧ m.cycle.machine.pixel 0 31 = false ∧
      m.cycle.machine.reg flag = 1 := by
  intro m
  have hm : m.Reachable := reachable_iff.2 ⟨_, _, rfl⟩
  obtain ⟨hpc, hop, hrows, hflag, hlit⟩ : m.pc.toNat + 2 ≤ memorySize ∧ m.nextOpcode = .draw 0xF 0xF 2 ∧
      m.index.toNat + m.spriteHeight 0xF 2 ≤ memorySize ∧ m.reg flag = 63 ∧ m.pixel 63 31 = true := by
    decide +kernel
  have hafter : m.cycle.machine.pixel 63 31 = false ∧ m.cycle.machine.pixel 0 31 = false ∧
      m.cycle.machine.reg flag = 1 := by
    decide +kernel
  obtain ⟨hresult, hdrawn, -⟩ := hm.draw_exact hpc hop hrows
  exact ⟨hm, hflag, hlit, hresult, hdrawn, hafter⟩

end Machine

end Chip8
