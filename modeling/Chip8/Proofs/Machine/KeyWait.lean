import Chip8.Proofs.Machine.ControlFlow
import Chip8.Proofs.Machine.Countdown

/-!
# Waiting for a key

A wait is a cycle that leads back to its own instruction. `Machine.Polled` says what a number of such cycles leaves of
a machine: the timers have ticked and the word is recorded, and apart from the keys nothing is different. One poll
adds one to the number (`Polled.poll`) and a key event leaves it as it is (`Polled.putKey`), so a history of cycles
and key events goes on waiting as long as its cycles find all keys up (`Polled.afterAll`).
-/

namespace Chip8

/-- Whether a request presses or releases a key, or is refused as one that does. -/
def Request.isKeyEvent : Request → Bool
  | .putKey .. => true
  | _ => false

namespace Machine

variable {m m' s : Machine} {x : Nibble} {rs : List Request}

/-- The machine is at an instruction that waits for a key. -/
structure AtWait (m : Machine) (x : Nibble) : Prop where
  fetched : m.pc.toNat + 2 ≤ memorySize
  instruction : m.nextOpcode = .waitForKey x

def AllUp (m : Machine) : Prop := ∀ key, m.keypad.get key = false

/-- `key` is down, and every key below it is up. -/
structure LowestDown (m : Machine) (key : Nibble) : Prop where
  down : m.keypad.get key = true
  below : ∀ k < key, m.keypad.get k = false

/-- A history of cycles and key events whose cycles all find every key up. -/
structure Idle (m : Machine) (rs : List Request) : Prop where
  requests : ∀ r ∈ rs, r = .cycle ∨ r.isKeyEvent = true
  allUp : ∀ before after, rs = before ++ .cycle :: after → (m.afterAll before).AllUp

/-- What `n` polls leave of the machine `m`, whatever happens to the keys between them. -/
structure Polled (m : Machine) (n : Nat) (s : Machine) : Prop where
  machine : s =
    { m with
      keypad := s.keypad
      word := s.word
      delayTimer := s.delayTimer
      soundTimer := s.soundTimer }
  word : s.word = if n = 0 then m.word else m.nextWord
  delayTimer : s.delayTimer.toNat = m.delayTimer.toNat - n
  soundTimer : s.soundTimer.toNat = m.soundTimer.toNat - n

/-! ## Keys -/

theorem firstKeyDown?_eq_some_iff {key : Nibble} : m.firstKeyDown? = some key ↔ m.LowestDown key := by
  rw [firstKeyDown?, List.find?_eq_some_iff_getElem]
  constructor
  · rintro ⟨hdown, i, hi, rfl, hbelow⟩
    refine ⟨hdown, ?_⟩
    intro k hk
    rw [List.getElem_finRange] at hk
    have hup := hbelow k.val hk
    rw [List.getElem_finRange] at hup
    rwa [Bool.not_eq_true'] at hup
  · intro h
    refine ⟨h.down, key.val, by simp, by simp, ?_⟩
    intro j hj
    have hup := h.below ⟨j, Nat.lt_trans hj key.isLt⟩ hj
    rwa [List.getElem_finRange, Bool.not_eq_true']

/-- If any key is down, one of them is the lowest. -/
theorem exists_lowestDown (h : ∃ key, m.keypad.get key = true) : ∃ key, m.LowestDown key := by
  cases hkey : m.firstKeyDown? with
  | none =>
    obtain ⟨key, hdown⟩ := h
    rw [firstKeyDown?_eq_none_iff.1 hkey key] at hdown
    cases hdown
  | some key => exact ⟨key, firstKeyDown?_eq_some_iff.1 hkey⟩

theorem keypad_putKey_congr (h : m.keypad = m'.keypad) (key : UInt8) (down : Bool) :
    (m.putKey key down).machine.keypad = (m'.putKey key down).machine.keypad := by
  unfold putKey
  split
  · exact congrArg (fun keypad => Nibble.Table.put keypad _ down) h
  · exact h

/-- Cycles alone leave the keypad as it is. -/
theorem keypad_replicate (n : Nat) : (m.afterAll (List.replicate n .cycle)).keypad = m.keypad := by
  induction n generalizing m with
  | zero => rfl
  | succ n ih => exact ih.trans m.cycle_keypad

/-- Among cycles and key events, the keypad follows the key events alone. -/
theorem keypad_afterAll (hrs : ∀ r ∈ rs, r = .cycle ∨ r.isKeyEvent = true) (h : m.keypad = m'.keypad) :
    (m.afterAll rs).keypad = (m'.afterAll (rs.filter Request.isKeyEvent)).keypad := by
  induction rs generalizing m m' with
  | nil => exact h
  | cons r rs ih =>
    obtain ⟨hr, hlater⟩ := List.forall_mem_cons.1 hrs
    cases r with
    | cycle => exact ih hlater (m.cycle_keypad.trans h)
    | putKey key down => exact ih hlater (keypad_putKey_congr h key down)
    | load rom | reset => rcases hr with hr | hr <;> cases hr

namespace Idle

theorem tail {r : Request} (h : m.Idle (r :: rs)) : (m.after r).Idle rs := by
  refine ⟨fun q hq => h.requests q (List.mem_cons_of_mem r hq), ?_⟩
  rintro before after rfl
  exact h.allUp (r :: before) after rfl

/-- Whatever comes before a cycle of an idle history is idle. -/
theorem before_cycle {before after : List Request} (h : m.Idle (before ++ .cycle :: after)) : m.Idle before := by
  refine ⟨fun r hr => h.requests r (List.mem_append_left _ hr), ?_⟩
  rintro earlier later rfl
  apply h.allUp earlier (later ++ .cycle :: after)
  rw [List.append_assoc, List.cons_append]

/-- Keys that are all up stay so when nothing happens but cycles. -/
theorem replicate (hup : m.AllUp) (n : Nat) : m.Idle (List.replicate n .cycle) := by
  refine ⟨fun r hr => .inl (List.eq_of_mem_replicate hr), ?_⟩
  intro before after heq key
  have hbefore : before = List.replicate before.length .cycle := by
    apply List.eq_replicate_of_mem
    intro r hr
    apply List.eq_of_mem_replicate
    rw [heq]
    exact List.mem_append_left _ hr
  rw [hbefore, keypad_replicate]
  exact hup key

end Idle

/-! ## One cycle -/

/-- A poll that finds all keys up leads back to itself. -/
theorem AtWait.cycle_of_allUp (h : m.AtWait x) (hup : m.AllUp) :
    m.cycle.result = .ok .waitingForKey ∧
      m.cycle.machine =
        { m with
          word := m.nextWord
          delayTimer := UInt8.ofNat (m.delayTimer.toNat - 1)
          soundTimer := UInt8.ofNat (m.soundTimer.toNat - 1) } := by
  have hnone : m.poised.firstKeyDown? = none := firstKeyDown?_eq_none_iff.2 hup
  have hok : m.cycle.result = .ok .waitingForKey := by
    rw [cycle_ok_of_selfContained h.fetched (by rw [h.instruction]; rfl), h.instruction, outcome, hnone]
    rfl
  have hpc : m.poised.nextPc (.waitForKey x) = m.pc := by
    rw [nextPc, hnone]
    exact m.instructionAddress_poised
  have hregisters : m.poised.nextRegisters (.waitForKey x) = m.registers := by
    rw [nextRegisters, waitForKey, hnone]
    rfl
  refine ⟨hok, ?_⟩
  rw [cycle_machine_of_ok hok, h.instruction, hpc, hregisters]
  rfl

/-- A poll that finds a key down stores the lowest one and goes on. -/
theorem AtWait.cycle_of_lowestDown (h : m.AtWait x) {key : Nibble} (hkey : m.LowestDown key) :
    m.cycle.result = .ok .proceed ∧
      m.cycle.machine =
        { m with
          registers := m.registers.put x key.toByte
          pc := m.pc + 2
          word := m.nextWord
          delayTimer := UInt8.ofNat (m.delayTimer.toNat - 1)
          soundTimer := UInt8.ofNat (m.soundTimer.toNat - 1) } := by
  have hsome : m.poised.firstKeyDown? = some key := firstKeyDown?_eq_some_iff.2 ⟨hkey.down, hkey.below⟩
  have hok : m.cycle.result = .ok .proceed := by
    rw [cycle_ok_of_selfContained h.fetched (by rw [h.instruction]; rfl), h.instruction, outcome, hsome]
    rfl
  have hpc : m.poised.nextPc (.waitForKey x) = m.pc + 2 := by
    rw [nextPc, hsome]
    rfl
  have hregisters : m.poised.nextRegisters (.waitForKey x) = m.registers.put x key.toByte := by
    rw [nextRegisters, waitForKey, hsome]
    rfl
  refine ⟨hok, ?_⟩
  rw [cycle_machine_of_ok hok, h.instruction, hpc, hregisters]
  rfl

/-! ## A wait -/

namespace Polled

variable {n : Nat}

theorem refl (m : Machine) : m.Polled 0 m := ⟨rfl, rfl, rfl, rfl⟩

/-- The word at the counter is still the same. -/
theorem nextWord (h : m.Polled n s) : s.nextWord = m.nextWord := by
  rw [h.machine]
  rfl

theorem atWait (h : m.Polled n s) (hwait : m.AtWait x) : s.AtWait x := by
  have hpc : s.pc = m.pc := by rw [h.machine]
  refine ⟨by rw [hpc]; exact hwait.fetched, ?_⟩
  rw [nextOpcode, h.nextWord]
  exact hwait.instruction

theorem poll (h : m.Polled n s) (hwait : m.AtWait x) (hup : s.AllUp) : m.Polled (n + 1) s.cycle.machine := by
  obtain ⟨-, hcycle⟩ := (h.atWait hwait).cycle_of_allUp hup
  constructor
  case machine =>
    rw [hcycle, h.machine]
  case word =>
    rw [hcycle, if_neg (Nat.succ_ne_zero n)]
    exact h.nextWord
  case delayTimer =>
    rw [hcycle]
    show (UInt8.ofNat (s.delayTimer.toNat - 1)).toNat = _
    rw [Timer.toNat_pred, h.delayTimer]
    omega
  case soundTimer =>
    rw [hcycle]
    show (UInt8.ofNat (s.soundTimer.toNat - 1)).toNat = _
    rw [Timer.toNat_pred, h.soundTimer]
    omega

theorem putKey (h : m.Polled n s) (key : UInt8) (down : Bool) : m.Polled n (s.putKey key down).machine := by
  rw [putKey_writes]
  refine ⟨?_, h.word, h.delayTimer, h.soundTimer⟩
  rw [h.machine]

theorem afterAll (h : m.Polled n s) (hwait : m.AtWait x) (hidle : s.Idle rs) :
    m.Polled (n + rs.count .cycle) (s.afterAll rs) := by
  induction rs generalizing s n with
  | nil => exact h
  | cons r rs ih =>
    have hr := hidle.requests r List.mem_cons_self
    cases r with
    | cycle =>
      rw [List.count_cons_self, ← Nat.add_assoc, Nat.add_right_comm]
      exact ih (h.poll hwait (hidle.allUp [] rs rfl)) hidle.tail
    | putKey key down =>
      rw [List.count_cons_of_ne (by simp)]
      exact ih (h.putKey key down) hidle.tail
    | load rom | reset => rcases hr with hr | hr <;> cases hr

end Polled

/-- A wait polls once a cycle until a cycle finds a key down: the timers tick, and nothing but they and the recorded
word is different from before. Keys may come and go meanwhile. That cycle stores the lowest key down and leaves the
instruction; the word it records is the one every poll before it has recorded. -/
theorem waits_for_key (hwait : m.AtWait x) (hup : m.AllUp) :
    (∀ k,
      (m.afterAll (List.replicate k .cycle)).cycle.result = .ok .waitingForKey ∧
        m.Polled k (m.afterAll (List.replicate k .cycle)) ∧
        (m.afterAll (List.replicate k .cycle)).keypad = m.keypad) ∧
      ∀ rs, m.Idle rs →
        (∀ before after, rs = before ++ .cycle :: after →
          (m.afterAll before).cycle.result = .ok .waitingForKey) ∧
        m.Polled (rs.count .cycle) (m.afterAll rs) ∧
        (m.afterAll rs).keypad = (m.afterAll (rs.filter Request.isKeyEvent)).keypad ∧
        ((∃ key, (m.afterAll rs).keypad.get key = true) →
          ∃ key, (m.afterAll rs).LowestDown key ∧
            (m.afterAll rs).cycle.result = .ok .proceed ∧
            (m.afterAll rs).cycle.machine =
              { m.afterAll rs with
                registers := m.registers.put x key.toByte
                pc := m.pc + 2
                word := m.nextWord
                delayTimer := UInt8.ofNat ((m.afterAll rs).delayTimer.toNat - 1)
                soundTimer := UInt8.ofNat ((m.afterAll rs).soundTimer.toNat - 1) } ∧
            (m.pc + 2).toNat = m.pc.toNat + 2 ∧
            (rs.count .cycle ≠ 0 → (m.afterAll rs).word = m.nextWord)) := by
  have hpolled : ∀ rs, m.Idle rs → m.Polled (rs.count .cycle) (m.afterAll rs) := by
    intro rs hidle
    have h := (Polled.refl m).afterAll hwait hidle
    rwa [Nat.zero_add] at h
  constructor
  case left =>
    intro k
    have hk := hpolled _ (Idle.replicate hup k)
    rw [List.count_replicate_self] at hk
    have hkeypad : (m.afterAll (List.replicate k .cycle)).keypad = m.keypad := keypad_replicate k
    have hstill : (m.afterAll (List.replicate k .cycle)).AllUp := fun key => by rw [hkeypad]; exact hup key
    exact ⟨((hk.atWait hwait).cycle_of_allUp hstill).1, hk, hkeypad⟩
  case right =>
    intro rs hidle
    have hs := hpolled rs hidle
    refine ⟨?_, hs, keypad_afterAll hidle.requests rfl, ?_⟩
    · rintro before after rfl
      have hbefore := hpolled before hidle.before_cycle
      exact ((hbefore.atWait hwait).cycle_of_allUp (hidle.allUp before after rfl)).1
    · intro hdown
      obtain ⟨key, hkey⟩ := exists_lowestDown hdown
      obtain ⟨hresult, hmachine⟩ := (hs.atWait hwait).cycle_of_lowestDown hkey
      have hregisters : (m.afterAll rs).registers = m.registers := by rw [hs.machine]
      have hpc : (m.afterAll rs).pc = m.pc := by rw [hs.machine]
      rw [hregisters, hpc, hs.nextWord] at hmachine
      refine ⟨key, hkey, hresult, hmachine, ?_, ?_⟩
      · exact toNat_addTwo (by have := hwait.fetched; omega)
      · intro hpoll
        rw [hs.word, if_neg hpoll]

/-- Two keys tapped and one that does not exist, and then two held down. -/
theorem waits_for_key_held :
    let m := (withSeed 7).afterAll [.load [0x61, 0x02, 0xF1, 0x15, 0xF3, 0x0A], .cycle, .cycle]
    let rs : List Request :=
      [.cycle, .putKey 0xC true, .putKey 2 true, .putKey 0xC false, .putKey 2 false, .putKey 0x10 true, .cycle,
        .putKey 0xC true, .putKey 9 true]
    m.Reachable ∧ m.AtWait 3 ∧ m.AllUp ∧ m.Idle rs ∧ m.delayTimer = 1 ∧
      (∀ k, (m.afterAll (List.replicate k .cycle)).cycle.result = .ok .waitingForKey) ∧
      (m.afterAll rs).pc = m.pc ∧ (m.afterAll rs).delayTimer.toNat = 0 ∧
      (m.afterAll rs).cycle.result = .ok .proceed ∧ (m.afterAll rs).cycle.machine.reg 3 = 9 ∧
      (m.afterAll rs).cycle.machine.pc.toNat = m.pc.toNat + 2 := by
  intro m rs
  have hm : m.Reachable := reachable_iff.2 ⟨_, _, rfl⟩
  obtain ⟨hpc, hop, hup, hdelay, hcycles, hlowest⟩ : m.pc.toNat + 2 ≤ memorySize ∧ m.nextOpcode = .waitForKey 3 ∧
      (∀ key, m.keypad.get key = false) ∧ m.delayTimer = 1 ∧
      (∀ i < rs.length, rs[i]? = some .cycle → ∀ key, (m.afterAll (rs.take i)).keypad.get key = false) ∧
      (m.afterAll rs).firstKeyDown? = some 9 := by
    decide +kernel
  have hwait : m.AtWait 3 := ⟨hpc, hop⟩
  have hidle : m.Idle rs := by
    refine ⟨by decide, ?_⟩
    intro before after heq
    have htake : rs.take before.length = before := by rw [heq, List.take_left]
    have hup := hcycles before.length (by simp [heq]) (by simp [heq])
    rwa [htake] at hup
  have hnine := firstKeyDown?_eq_some_iff.1 hlowest
  obtain ⟨hpolls, hhistory⟩ := waits_for_key hwait hup
  obtain ⟨-, hpolled, -, hpressed⟩ := hhistory rs hidle
  obtain ⟨key, hkey, hresult, hmachine, hback, -⟩ := hpressed ⟨9, hnine.down⟩
  obtain rfl : key = 9 := by
    rw [← firstKeyDown?_eq_some_iff, hlowest] at hkey
    exact (Option.some.inj hkey).symm
  refine ⟨hm, hwait, hup, hidle, hdelay, fun k => (hpolls k).1, ?_, ?_, hresult, ?_, ?_⟩
  · rw [hpolled.machine]
  · rw [hpolled.delayTimer, hdelay]
    rfl
  · rw [hmachine, reg, Nibble.Table.get_put, if_pos rfl]
    rfl
  · rw [hmachine]
    exact hback

end Machine

end Chip8
