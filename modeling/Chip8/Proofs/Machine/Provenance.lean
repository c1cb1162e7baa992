import Chip8.Proofs.Machine.Arithmetic
import Chip8.Proofs.Machine.Drawing

/-!
# Where bytes come from

Only three requests write to memory: a program that is loaded, and the two instructions that store from I on.
`Machine.Overwritten` looks for them behind the last reset of a history, and an address for which there is none
holds what it held at power-on (`getElem?_memory_afterAll`). Programs lie above the font, so a glyph that no
instruction wrote to is still there to be drawn (`Machine.memory_has_provenance`).
-/

namespace Chip8

namespace Memory

/-- The byte at an address at power-on. -/
def powerOnByte (a : Nat) : UInt8 := if 0x50 ≤ a ∧ a < 0xA0 then Font.bytes[a - 0x50]?.getD 0 else 0

theorem getElem?_powerOn (random : RandomSource) {a : Nat} (ha : a < memorySize) :
    (Machine.powerOn random).memory[a]? = some (powerOnByte a) := by
  refine (getElem?_write (m := blank) ha).trans ?_
  rw [powerOnByte, Font.length_bytes]
  show (if 0x50 ≤ a ∧ a - 0x50 < 80 then Font.bytes[a - 0x50]? else blank[a]?) = _
  by_cases hin : 0x50 ≤ a ∧ a < 0xA0
  · have hlt : a - 0x50 < Font.bytes.length := by
      rw [Font.length_bytes]
      omega
    rw [if_pos (by omega), if_pos hin, List.getElem?_eq_getElem hlt, Option.getD_some]
  · rw [if_neg (by omega), if_neg hin, getElem?_blank ha]

theorem powerOnByte_glyph (digit : Nibble) {k : Nat} (hk : k < 5) :
    some (powerOnByte (0x50 + 5 * digit.val + k)) = Font.bytes[5 * digit.val + k]? := by
  have hdigit := digit.isLt
  have hlt : 5 * digit.val + k < Font.bytes.length := by
    rw [Font.length_bytes]
    omega
  have hsub : 0x50 + 5 * digit.val + k - 0x50 = 5 * digit.val + k := by omega
  rw [powerOnByte, if_pos (by omega), hsub, List.getElem?_eq_getElem hlt, Option.getD_some]

end Memory

/-- Whether the glyph of a digit, with its top left corner in column `left` of row `top`, shows in column `cx` of
row `cy`. -/
structure Font.Shows (digit : Nibble) (left top cx cy : Nat) : Prop where
  rows : top ≤ cy ∧ cy < top + 5
  columns : left ≤ cx ∧ cx < left + 8
  bit : (Font.bytes[5 * digit.val + (cy - top)]?.getD 0).toNat.testBit (7 - (cx - left)) = true

namespace Display

theorem pixel_eq_lit (d : Display) (cx : Fin displayWidth) (cy : Fin displayHeight) :
    d.pixel cx.val cy.val = d.lit (Cell.at cx cy) :=
  dif_pos ⟨cx.isLt, cy.isLt⟩

/-- Inverting a cell that is lit or dark changes whether it is lit. -/
theorem lit_of_inverted {d e : Display} (h : d.TwoValued) {c : Cell} (hc : e.word c = d.word c ^^^ pixelOn) :
    e.lit c = !d.lit c := by
  rw [lit, lit, hc]
  rcases h c with hw | hw
  · rw [hw]
    rfl
  · rw [hw]
    rfl

end Display

namespace Machine

/-- Whether a request writes to an address. -/
def WritesTo (m : Machine) (a : Nat) : Request → Prop
  | .cycle => m.executes .cycle = true ∧ m.WritesByte a m.nextOpcode
  | .load rom => rom.length ≤ maxProgramSize ∧ 0x200 ≤ a ∧ a < 0x200 + rom.length
  | .reset | .putKey .. => False

/-- Whether a request of a history writes to an address and no reset follows it. -/
def Overwritten (m : Machine) (a : Nat) : List Request → Prop
  | [] => False
  | r :: rs => m.WritesTo a r ∧ Request.reset ∉ rs ∨ (m.after r).Overwritten a rs

instance decidableWritesByte (m : Machine) (a : Nat) : (op : Opcode) → Decidable (m.WritesByte a op)
  | .bcd _ | .storeRegs _ => inferInstanceAs (Decidable (_ ∧ _))
  | .clearDisplay | .ret | .jump _ | .jumpWithOffset _ | .call _ | .skipRegEqualImm .. | .skipRegNotEqualImm ..
  | .skipRegEqualReg .. | .skipRegNotEqualReg .. | .setRegImm .. | .addRegImm .. | .alu .. | .setIndexImm _
  | .addIndexReg _ | .random .. | .draw .. | .skipIfPressed _ | .skipIfNotPressed _ | .waitForKey _
  | .readDelayTimer _ | .setDelayTimer _ | .setSoundTimer _ | .fontChar _ | .loadRegs _ | .unknown _ =>
    instDecidableFalse

instance decidableWritesTo (m : Machine) (a : Nat) : (r : Request) → Decidable (m.WritesTo a r)
  | .cycle | .load _ => inferInstanceAs (Decidable (_ ∧ _))
  | .reset | .putKey .. => instDecidableFalse

instance decidableOverwritten (a : Nat) : (m : Machine) → (rs : List Request) → Decidable (m.Overwritten a rs)
  | _, [] => instDecidableFalse
  | m, r :: rs =>
    have : Decidable (Request.reset ∉ rs) := decidable_of_iff (rs.contains .reset = false) (by simp)
    have := decidableOverwritten a (m.after r) rs
    inferInstanceAs (Decidable (m.WritesTo a r ∧ Request.reset ∉ rs ∨ (m.after r).Overwritten a rs))

variable {m : Machine} {a : Nat} {rs : List Request} {x : Nibble}

/-! ## Requests -/

theorem getElem?_memory_after {r : Request} (hr : r ≠ .reset) (h : ¬m.WritesTo a r) :
    (m.after r).memory[a]? = m.memory[a]? := by
  cases r with
  | cycle =>
    by_cases he : m.executes .cycle = true
    · obtain ⟨-, o, ho⟩ := executes_iff.1 he
      exact Classical.not_not.1 fun hne => h ⟨he, (cycle_changes ho).memory a hne⟩
    · rw [after, cycle_of_not_executes he]
  | load rom =>
    by_cases hlen : rom.length ≤ maxProgramSize
    · by_cases ha : a < memorySize
      · rw [after, load_of_le hlen, Memory.getElem?_write ha]
        have hstart : programStart = 0x200 := rfl
        exact if_neg fun hin => h ⟨hlen, hin.1, by omega⟩
      · rw [Vector.getElem?_eq_none (Nat.not_lt.1 ha), Vector.getElem?_eq_none (Nat.not_lt.1 ha)]
    · rw [after, load_of_lt (Nat.not_le.1 hlen)]
  | reset => exact absurd rfl hr
  | putKey key down => rw [after, putKey_writes]

/-- What a history does not overwrite is as at power-on, if it was so before or there was a reset. -/
theorem getElem?_memory_afterAll (ha : a < memorySize)
    (hstart : m.memory[a]? = some (Memory.powerOnByte a) ∨ Request.reset ∈ rs) (h : ¬m.Overwritten a rs) :
    (m.afterAll rs).memory[a]? = some (Memory.powerOnByte a) := by
  induction rs generalizing m with
  | nil => exact hstart.resolve_right List.not_mem_nil
  | cons r rs ih =>
    refine ih ?_ fun ho => h (.inr ho)
    by_cases hlater : Request.reset ∈ rs
    · exact .inr hlater
    · left
      by_cases hr : r = .reset
      · rw [hr]
        exact Memory.getElem?_powerOn m.random ha
      · rw [getElem?_memory_after hr fun hw => h (.inl ⟨hw, hlater⟩)]
        exact hstart.resolve_right fun hmem => (List.mem_cons.1 hmem).elim (fun he => hr he.symm) hlater

/-- A program lies at its start or above. -/
theorem getElem?_memory_load {rom : List UInt8} (ha : a < 0x200) :
    (m.load rom).machine.memory[a]? = m.memory[a]? :=
  getElem?_memory_after (r := .load rom) nofun fun h => Nat.not_le.2 ha h.2.1

/-! ## Glyphs -/

/-- The instruction that points I at a glyph changes nothing that a draw after it reads but I. -/
theorem cycle_of_fontChar (hle : m.pc.toNat + 2 ≤ memorySize) (hop : m.nextOpcode = .fontChar x) :
    m.cycle.result = .ok .proceed ∧ m.cycle.machine.index.toNat = 80 + 5 * (m.reg x).toNat ∧
      m.cycle.machine.registers = m.registers ∧ m.cycle.machine.memory = m.memory ∧
      m.cycle.machine.display = m.display := by
  obtain ⟨hok, hindex, hregisters⟩ := cycle_of_changesIndex hle (by rw [hop]; rfl)
  refine ⟨hok, ?_, hregisters, ?_, ?_⟩
  · rw [hindex, hop]
    exact toNat_glyphAddress _
  · rw [cycle_machine_of_ok hok, hop]
    rfl
  · rw [cycle_machine_of_ok hok, hop]
    rfl

/-- A draw whose rows are those of a glyph toggles the cells in which the glyph shows. -/
theorem toggles_iff_shows {digit y n : Nibble} {cx : Fin displayWidth} {cy : Fin displayHeight} (hn : n = 5)
    (hglyph : ∀ k < 5, m.memory[m.index.toNat + k]? = Font.bytes[5 * digit.val + k]?) :
    m.Toggles x y n cx.val cy.val ↔
      Font.Shows digit ((m.reg x).toNat % displayWidth) ((m.reg y).toNat % displayHeight) cx.val cy.val := by
  have hcy := cy.isLt
  have hheight : m.spriteHeight y n = min 5 (displayHeight - (m.reg y).toNat % displayHeight) := by
    rw [hn]
    rfl
  constructor
  · rintro ⟨hrows, hcolumns, hbit⟩
    rw [hheight] at hrows
    rw [hglyph _ (by omega)] at hbit
    exact ⟨by omega, hcolumns, hbit⟩
  · rintro ⟨hrows, hcolumns, hbit⟩
    refine ⟨?_, hcolumns, ?_⟩
    · rw [hheight]
      omega
    · rw [hglyph _ (by omega)]
      exact hbit

/-- With the rows of its glyph where they were at power-on, the two instructions that point I at a digit and draw it
toggle the pixels in which the glyph shows. -/
theorem WellFormed.draws_glyph (h : m.WellFormed) {y z digit : Nibble} (hle : m.pc.toNat + 2 ≤ memorySize)
    (hop : m.nextOpcode = .fontChar x) (hdigit : (m.reg x).toNat = digit.val)
    (hglyph : ∀ k < 5, m.memory[0x50 + 5 * digit.val + k]? = some (Memory.powerOnByte (0x50 + 5 * digit.val + k)))
    (hle' : m.cycle.machine.pc.toNat + 2 ≤ memorySize) (hop' : m.cycle.machine.nextOpcode = .draw y z 5) :
    m.cycle.machine.cycle.result = .ok .displayUpdated ∧
      ∀ (cx : Fin displayWidth) (cy : Fin displayHeight),
        (Font.Shows digit ((m.reg y).toNat % displayWidth) ((m.reg z).toNat % displayHeight) cx.val cy.val →
            m.cycle.machine.cycle.machine.pixel cx.val cy.val = !m.pixel cx.val cy.val) ∧
          (¬Font.Shows digit ((m.reg y).toNat % displayWidth) ((m.reg z).toNat % displayHeight) cx.val cy.val →
            m.cycle.machine.cycle.machine.pixel cx.val cy.val = m.pixel cx.val cy.val) := by
  obtain ⟨-, hindex, hregisters, hmemory, hdisplay⟩ := cycle_of_fontChar hle hop
  have hlt := digit.isLt
  rw [hdigit] at hindex
  have hreg (k : Nibble) : m.cycle.machine.reg k = m.reg k := congrArg (fun v => Vector.get v k) hregisters
  have hfits : m.cycle.machine.index.toNat + m.cycle.machine.spriteHeight z 5 ≤ memorySize := by
    have hheight : m.cycle.machine.spriteHeight z 5 ≤ 5 := Nat.min_le_left _ _
    rw [hindex, memorySize]
    omega
  have hrows : ∀ k < 5, m.cycle.machine.memory[m.cycle.machine.index.toNat + k]? = Font.bytes[5 * digit.val + k]? := by
    intro k hk
    rw [hmemory, hindex, hglyph k hk, Memory.powerOnByte_glyph digit hk]
  have hsprite := sprite_of_le (x := y) hfits
  obtain ⟨hresult, hmachine⟩ := cycle_of_draw hle' hop' hsprite hfits
  refine ⟨hresult, fun cx cy => ?_⟩
  rw [← hreg y, ← hreg z, ← toggles_iff_shows rfl hrows]
  rw [pixel, pixel, Display.pixel_eq_lit, Display.pixel_eq_lit, hmachine, ← hdisplay]
  constructor
  · intro hshows
    exact Display.lit_of_inverted (hdisplay ▸ h.cells) ((word_draw_of_sprite hsprite hfits).1 hshows)
  · intro hshows
    rw [Display.lit, Display.lit]
    exact congrArg (· == Display.pixelOn) ((word_draw_of_sprite hsprite hfits).2 hshows)

/-- An address that nothing has written to since the last reset holds what it held at power-on, whatever programs were
refused and whatever stores faulted. No program reaches below its start. So as long as no instruction has written to its
glyph, a digit is drawn as the font has it: the draw does not fault, and it toggles the pixels in which the glyph shows,
with its corner wrapped around and its cells cut off at the edges. -/
theorem memory_has_provenance (random : RandomSource) (rs : List Request) :
    (∀ a < memorySize, ¬(powerOn random).Overwritten a rs →
        ((powerOn random).afterAll rs).memory[a]? = some (Memory.powerOnByte a)) ∧
      (∀ (m : Machine) rom a, a < 0x200 → (m.load rom).machine.memory[a]? = m.memory[a]?) ∧
      ∀ m x y z (digit : Nibble), m = (powerOn random).afterAll rs →
        (∀ k < 5, ¬(powerOn random).Overwritten (0x50 + 5 * digit.val + k) rs) →
        m.pc.toNat + 2 ≤ memorySize → m.nextOpcode = .fontChar x → (m.reg x).toNat = digit.val →
          m.cycle.result = .ok .proceed ∧
            (m.cycle.machine.pc.toNat + 2 ≤ memorySize → m.cycle.machine.nextOpcode = .draw y z 5 →
              m.cycle.machine.cycle.result = .ok .displayUpdated ∧
                ∀ (cx : Fin displayWidth) (cy : Fin displayHeight),
                  (Font.Shows digit ((m.reg y).toNat % 64) ((m.reg z).toNat % 32) cx.val cy.val →
                      m.cycle.machine.cycle.machine.pixel cx.val cy.val = !m.pixel cx.val cy.val) ∧
                    (¬Font.Shows digit ((m.reg y).toNat % 64) ((m.reg z).toNat % 32) cx.val cy.val →
                      m.cycle.machine.cycle.machine.pixel cx.val cy.val = m.pixel cx.val cy.val)) := by
  have hkept : ∀ a < memorySize, ¬(powerOn random).Overwritten a rs →
      ((powerOn random).afterAll rs).memory[a]? = some (Memory.powerOnByte a) :=
    fun a ha h => getElem?_memory_afterAll ha (.inl (Memory.getElem?_powerOn random ha)) h
  refine ⟨hkept, fun m rom a ha => getElem?_memory_load ha, ?_⟩
  rintro m x y z digit rfl hglyph hle hop hdigit
  have hwell := (reachable_iff.2 ⟨random, rs, rfl⟩).wellFormed
  refine ⟨(cycle_of_fontChar hle hop).1, fun hle' hop' => ?_⟩
  refine hwell.draws_glyph hle hop hdigit (fun k hk => hkept _ ?_ (hglyph k hk)) hle' hop'
  have := digit.isLt
  rw [memorySize]
  omega

/-- A program that spoils the glyph of zero, and after a reset another one that draws it across the corner of the
display, with a program refused and a store that faults before that. -/
theorem memory_has_provenance_reset :
    let spoiling : List Request := [.load [0xA0, 0x50, 0xF0, 0x55], .cycle, .cycle]
    let rs : List Request := spoiling ++ [.reset, .load (List.replicate 3585 0xFF),
      .load [0x61, 0x3E, 0x62, 0x1E, 0xAF, 0xFF, 0xF1, 0x55, 0xF0, 0x29, 0xD1, 0x25], .cycle, .cycle, .cycle, .cycle]
    let m := (withSeed 7).afterAll rs
    (withSeed 7).Overwritten 0x50 spoiling ∧ ¬(withSeed 7).Overwritten 0x50 rs ∧ m.nextOpcode = .fontChar 0 ∧
      m.memory[0x50]? = some 0xF0 ∧ m.cycle.machine.cycle.result = .ok .displayUpdated ∧
      m.cycle.machine.cycle.machine.pixel 62 30 = true ∧ m.cycle.machine.cycle.machine.pixel 63 31 = false := by
  intro spoiling rs m
  obtain ⟨hspoilt, hglyph⟩ : (withSeed 7).Overwritten 0x50 spoiling ∧
      ∀ k < 5, ¬(withSeed 7).Overwritten (0x50 + 5 * (0 : Nibble).val + k) rs := by
    decide +kernel
  obtain ⟨⟨hpc, hop, hx, hy, hz⟩, hpc', hop', hlit, hdark⟩ :
      (m.pc.toNat + 2 ≤ memorySize ∧ m.nextOpcode = .fontChar 0 ∧ (m.reg 0).toNat = (0 : Nibble).val ∧
        (m.reg 1).toNat = 62 ∧ (m.reg 2).toNat = 30) ∧
      m.cycle.machine.pc.toNat + 2 ≤ memorySize ∧ m.cycle.machine.nextOpcode = .draw 1 2 5 ∧
      m.pixel 62 30 = false ∧ m.pixel 63 31 = false := by
    decide +kernel
  have hshows : Font.Shows 0 62 30 62 30 := ⟨by decide, by decide, by decide⟩
  have hhidden : ¬Font.Shows 0 62 30 63 31 := fun h => absurd h.bit (by decide)
  obtain ⟨hbytes, -, hdraws⟩ := memory_has_provenance (RandomSource.ofSeed 7) rs
  have hbyte : m.memory[0x50]? = some 0xF0 := hbytes 0x50 (by decide) (hglyph 0 (by decide))
  obtain ⟨-, hdraw⟩ := hdraws m 0 1 2 0 rfl hglyph hpc hop hx
  clear_value m
  obtain ⟨hresult, hpixel⟩ := hdraw hpc' hop'
  rw [hy, hz] at hpixel
  have hflipped := (hpixel ⟨62, by decide⟩ ⟨30, by decide⟩).1 hshows
  have hkept := (hpixel ⟨63, by decide⟩ ⟨31, by decide⟩).2 hhidden
  rw [hlit] at hflipped
  exact ⟨hspoilt, hglyph 0 (by decide), hop, hbyte, hresult, hflipped, hkept.trans hdark⟩

end Machine

end Chip8
