import Chip8.Proofs.Machine.RandomStream
import Chip8.Runner.Basic

/-!
# Starting over

A reset writes every field of a machine but its random source, so that nothing else of what came before can
show in what comes after. `Machine.answers` lists what a history of requests is answered, and
`Memory.Holds` says what memory consists of once a program has been loaded into it.
`Runner.restart_as_new` puts a machine that starts over, by itself or in a runner, next to a new one.
-/

namespace Chip8

namespace Memory

/-- A memory with the font, a program, and nothing else. -/
structure Holds (mem : Memory) (rom : List UInt8) : Prop where
  font : ∀ a, 0x50 ≤ a → a < 0xA0 → mem[a]? = Font.bytes[a - 0x50]?
  program : ∀ k < rom.length, mem[0x200 + k]? = rom[k]?
  elsewhere : ∀ a < memorySize, a < 0x50 ∨ 0xA0 ≤ a → a < 0x200 ∨ 0x200 + rom.length ≤ a → mem[a]? = some 0

/-- At power-on there is the font alone. -/
theorem holds_font : Holds (blank.write Font.start Font.bytes) [] := by
  have hfont := Font.length_bytes
  have hstart : Font.start = 0x50 := rfl
  have hsize : memorySize = 0x1000 := rfl
  refine ⟨?_, nofun, ?_⟩
  · intro a hlo hhi
    rw [getElem?_write (by omega), if_pos ⟨hlo, by omega⟩, hstart]
  · intro a ha hout _
    rw [getElem?_write ha, if_neg (by omega), getElem?_blank ha]

/-- The font ends below the place of programs, so a program adds itself and no more. -/
theorem Holds.load {mem : Memory} {rom : List UInt8} (h : mem.Holds []) (hrom : rom.length ≤ maxProgramSize) :
    (mem.write programStart rom).Holds rom := by
  have hstart : programStart = 0x200 := rfl
  have hsize : memorySize = 0x1000 ∧ maxProgramSize = 0xE00 := ⟨rfl, rfl⟩
  refine ⟨?_, ?_, ?_⟩
  · intro a hlo hhi
    rw [getElem?_write (by omega), if_neg (by omega), h.font a hlo hhi]
  · intro k hk
    rw [getElem?_write (by omega), if_pos ⟨by omega, by omega⟩, hstart, Nat.add_sub_cancel_left]
  · intro a ha hfont hout
    rw [getElem?_write ha, if_neg (by omega)]
    exact h.elsewhere a ha hfont (by rw [List.length_nil]; omega)

end Memory

/-- The same step with another view of its result. -/
def Step.map {α β : Type} (f : α → β) (s : Step α) : Step β := ⟨s.result.map f, s.machine, s.reports⟩

namespace Machine

/-- What a machine answers to a request. Only a cycle has more to tell than that it succeeded. -/
def answer (m : Machine) : Request → Step (Option Outcome)
  | .cycle => m.cycle.map some
  | .load rom => (m.load rom).map fun _ => none
  | .reset => m.reset.map fun _ => none
  | .putKey key down => (m.putKey key down).map fun _ => none

/-- What a machine answers to requests made one after the other. -/
def answers (m : Machine) : List Request → List (Step (Option Outcome))
  | [] => []
  | r :: rs => m.answer r :: (m.after r).answers rs

variable {m : Machine} {rom : List UInt8}

/-- A reset leaves what a new machine is, whatever this one draws from, with the random source kept. -/
theorem reset_machine (m : Machine) (random : RandomSource) :
    m.reset.machine = { powerOn random with random := m.random } :=
  rfl

theorem answers_append (m : Machine) (rs rs' : List Request) :
    m.answers (rs ++ rs') = m.answers rs ++ (m.afterAll rs).answers rs' := by
  induction rs generalizing m with
  | nil => rfl
  | cons r rs ih =>
    show m.answer r :: (m.after r).answers (rs ++ rs') = _
    rw [ih]
    rfl

/-- All that a history passes on through a reset is the number of random bytes that it has drawn. -/
theorem answers_append_reset (random : RandomSource) (before rs : List Request) :
    (powerOn random).answers (before ++ .reset :: rs) =
      (powerOn random).answers before ++ ((powerOn random).afterAll before).answer .reset ::
        (powerOn ⟨random.key, random.drawn + ((powerOn random).draws before).length⟩).answers rs := by
  have hreset : ((powerOn random).afterAll before).reset.machine =
      powerOn ((powerOn random).afterAll before).random := reset_machine _ random
  have hrandom : (powerOn random).random = random := rfl
  rw [answers_append, answers, after, hreset, random_afterAll, hrandom]

/-- At power-on a program that fits is loaded next to the font. -/
theorem load_powerOn_ok (random : RandomSource) (h : rom.length ≤ maxProgramSize) :
    ((powerOn random).load rom).result = .ok () ∧ ((powerOn random).load rom).machine.memory.Holds rom := by
  rw [load_of_le h]
  exact ⟨rfl, Memory.holds_font.load h⟩

end Machine

namespace Runner

variable {τ : Type} [ClockNumber τ]

/-- A runner that loads a program has the machine that loads it at power-on, and an empty account. -/
theorem loadRom_runner (r : Runner τ) (rom : List UInt8) :
    (r.loadRom rom).runner =
      { r with
        machine := ((Machine.powerOn r.machine.random).load rom).machine
        pending := ClockNumber.ofNat 0 } := by
  rw [loadRom, r.machine.reset_machine r.machine.random]
  rfl

theorem loadRom_result (r : Runner τ) (rom : List UInt8) :
    (r.loadRom rom).result = ((Machine.powerOn r.machine.random).load rom).result := by
  rw [loadRom, r.machine.reset_machine r.machine.random]
  rfl

/-- Whatever a machine has been through, a reset leaves it as new but for its random source: from there on a
program that fits is loaded into a memory with the font and nothing else, and every history is answered alike.
The same holds of a runner that loads a program, which keeps its speed and its pause and starts with an empty
account. A program that does not fit leaves the runner with a new machine and no program. -/
theorem restart_as_new (m : Machine) (r : Runner τ) (rom : List UInt8) :
    (∀ random, m.reset.machine = { Machine.powerOn random with random := m.random }) ∧
      (∀ random before rs,
        (Machine.powerOn random).answers (before ++ .reset :: rs) =
          (Machine.powerOn random).answers before ++
            ((Machine.powerOn random).afterAll before).answer .reset ::
              (Machine.powerOn ⟨random.key, random.drawn + ((Machine.powerOn random).draws before).length⟩).answers
                rs) ∧
      (rom.length ≤ 3584 →
        (m.reset.machine.load rom).result = .ok () ∧ (m.reset.machine.load rom).machine.memory.Holds rom ∧
          ∀ rs, m.reset.machine.answers (.load rom :: rs) =
            (Machine.powerOn m.random).answers (.load rom :: rs)) ∧
      (rom.length ≤ 3584 →
        (r.loadRom rom).result = .ok () ∧ (r.loadRom rom).runner.machine.memory.Holds rom ∧
          ∀ rs, (r.loadRom rom).runner.machine.answers rs =
            ((Machine.powerOn r.machine.random).load rom).machine.answers rs) ∧
      (3584 < rom.length →
        (r.loadRom rom).result = .error (.programTooLarge rom.length 3584) ∧
          (r.loadRom rom).runner.machine = Machine.powerOn r.machine.random ∧
          (r.loadRom rom).runner.machine.memory.Holds []) ∧
      (r.loadRom rom).runner =
        { r with
          machine := ((Machine.powerOn r.machine.random).load rom).machine
          pending := ClockNumber.ofNat 0 } := by
  rw [loadRom_result, loadRom_runner]
  refine ⟨m.reset_machine, Machine.answers_append_reset, ?_, ?_, ?_, rfl⟩
  · intro h
    obtain ⟨hok, hmem⟩ := Machine.load_powerOn_ok m.random h
    have hreset : m.reset.machine = Machine.powerOn m.random := m.reset_machine m.random
    rw [hreset]
    exact ⟨hok, hmem, fun _ => rfl⟩
  · intro h
    obtain ⟨hok, hmem⟩ := Machine.load_powerOn_ok r.machine.random h
    exact ⟨hok, hmem, fun _ => rfl⟩
  · intro h
    rw [Machine.load_of_lt h]
    exact ⟨rfl, rfl, Memory.holds_font⟩

/-- A program that overwrites the font with a random byte and calls itself leaves nothing behind, in a machine
that is reset no more than in a paused runner with time in its account. -/
theorem restart_as_new_overwritten :
    let m := (Machine.withSeed 0).afterAll
      [.load [0xA0, 0x50, 0xC0, 0xFF, 0xF0, 0x55, 0x22, 0x00], .putKey 3 true, .cycle, .cycle, .cycle, .cycle]
    let r : Runner Float := { Runner.new m 1000 with paused := true, pending := 0.5 }
    let large := List.replicate 3585 0xAA
    m.Reachable ∧ m.memory[0x50]? = some 0x7F ∧ m.stack = [0x208] ∧
      (m.reset.machine.load [0x12, 0x00]).machine.memory[0x50]? = some 0xF0 ∧
      (m.reset.machine.load [0x12, 0x00]).machine.memory[0x202]? = some 0 ∧
      (r.loadRom large).result = .error (.programTooLarge 3585 3584) ∧
      (r.loadRom large).runner.machine.memory[0x200]? = some 0 ∧ (r.loadRom large).runner.machine.stack = [] ∧
      (r.loadRom large).runner.paused = true := by
  intro m r large
  have hm : m.Reachable := Machine.reachable_iff.2 ⟨_, _, rfl⟩
  have hused : m.memory[0x50]? = some 0x7F ∧ m.stack = [0x208] := by decide +kernel
  have hlarge : large.length = 3585 := List.length_replicate
  obtain ⟨-, -, hfits, -, -, -⟩ := restart_as_new m r [0x12, 0x00]
  obtain ⟨-, -, -, -, hrefused, hrunner⟩ := restart_as_new m r large
  obtain ⟨-, hmem, -⟩ := hfits (by decide)
  obtain ⟨hresult, hmachine, hblank⟩ := hrefused (by rw [hlarge]; decide)
  rw [hlarge] at hresult
  refine ⟨hm, hused.1, hused.2, ?_, ?_, hresult, ?_, ?_, ?_⟩
  · rw [hmem.font 0x50 (by decide) (by decide)]
    rfl
  · exact hmem.elsewhere 0x202 (by decide) (by decide) (by decide)
  · exact hblank.elsewhere 0x200 (by decide) (by decide) (by decide)
  · rw [hmachine]
    rfl
  · rw [hrunner]

end Runner

end Chip8
