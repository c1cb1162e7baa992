import Mathlib.Control.Monad.Basic
import Chip8.Proofs.Machine.KeyWait

/-!
# Keys between cycles

Three instructions look at the keypad. Any other cycle goes the same way whatever keys are down
(`cycle_withKeypad`), and no cycle touches the keypad, so a key event may come before it or after it. Two histories of
cycles and key events that differ only in when the keys come therefore lead to the same machine
(`Machine.key_events_commute`): apart from the keypad a machine follows its cycles (`SameButKeys.afterAll`), and a key
follows the events on it (`keypad_get_afterAll`).
-/

namespace Chip8

/-- The instructions that look at the keypad. -/
def Opcode.readsKeys : Opcode → Bool
  | .skipIfPressed _ | .skipIfNotPressed _ | .waitForKey _ => true
  | _ => false

namespace Request

/-- Whether a request presses or releases the key of a number. -/
def isOn (key : UInt8) : Request → Bool
  | .putKey key' _ => key' == key
  | _ => false

/-- Histories of the same number of cycles, with the same events on each key in the same order. -/
structure Reordered (rs rs' : List Request) : Prop where
  requests : ∀ r ∈ rs, r = .cycle ∨ r.isKeyEvent = true
  requests' : ∀ r ∈ rs', r = .cycle ∨ r.isKeyEvent = true
  cycles : rs'.count .cycle = rs.count .cycle
  keys : ∀ key, rs'.filter (isOn key) = rs.filter (isOn key)

end Request

def Machine.withKeypad (m : Machine) (keypad : Nibble.Table Bool) : Machine := { m with keypad := keypad }

/-- The same step of a machine with other keys down. -/
def Step.withKeypad (t : Step Outcome) (keypad : Nibble.Table Bool) : Step Outcome :=
  { t with machine := t.machine.withKeypad keypad }

namespace Machine

/-- The cycle of the machine does not look at the keypad: it fetches no word, or that of another instruction. -/
def KeyBlind (m : Machine) : Prop := memorySize < m.pc.toNat + 2 ∨ m.nextOpcode.readsKeys = false

/-- The results of the cycles of a history, in their order. -/
def cycleResults (m : Machine) : List Request → List (Except Fault Outcome)
  | [] => []
  | r :: rs =>
    if r = .cycle then m.cycle.result :: (m.after r).cycleResults rs else (m.after r).cycleResults rs

/-- Two machines that differ in their keypads at most. -/
def SameButKeys (m s : Machine) : Prop := ∃ keypad, s = m.withKeypad keypad

variable {m m' s : Machine} {rs rs' : List Request}

/-! ## Cycles that do not look at the keypad -/

section

variable (m : Machine) (keypad : Nibble.Table Bool)

theorem ret_withKeypad : (m.withKeypad keypad).ret = m.ret.withKeypad keypad := by
  have hstack : (m.withKeypad keypad).stack = m.stack := rfl
  unfold ret
  rw [hstack]
  cases m.stack <;> rfl

theorem call_withKeypad (nnn : Address) : (m.withKeypad keypad).call nnn = (m.call nnn).withKeypad keypad := by
  have hstack : (m.withKeypad keypad).stack = m.stack := rfl
  unfold call
  rw [hstack]
  split <;> rfl

theorem draw_withKeypad (x y n : Nibble) :
    (m.withKeypad keypad).draw x y n = (m.draw x y n).withKeypad keypad := by
  have hsprite : (m.withKeypad keypad).sprite x y n = m.sprite x y n := rfl
  unfold draw
  rw [hsprite]
  cases m.sprite x y n <;> rfl

theorem store_withKeypad (bs : List UInt8) : (m.withKeypad keypad).store bs = (m.store bs).withKeypad keypad := by
  have hwrite : (m.withKeypad keypad).memory.write? (m.withKeypad keypad).index bs = m.memory.write? m.index bs := rfl
  unfold store
  rw [hwrite]
  cases m.memory.write? m.index bs <;> rfl

theorem loadRegisters_withKeypad (x : Nibble) :
    (m.withKeypad keypad).loadRegisters x = (m.loadRegisters x).withKeypad keypad := by
  have hread : (m.withKeypad keypad).memory.read? (m.withKeypad keypad).index (x.val + 1) =
      m.memory.read? m.index (x.val + 1) := rfl
  unfold loadRegisters
  rw [hread]
  cases m.memory.read? m.index (x.val + 1) <;> rfl

/-- An instruction that does not look at the keypad does the same whatever keys are down. -/
theorem execute_withKeypad {op : Opcode} (h : op.readsKeys = false) :
    (m.withKeypad keypad).execute op = (m.execute op).withKeypad keypad := by
  cases op with
  | skipIfPressed | skipIfNotPressed | waitForKey => cases h
  | skipRegEqualImm | skipRegNotEqualImm | skipRegEqualReg | skipRegNotEqualReg =>
    simp only [execute, skipIf_eq]
    rfl
  | alu x y op => cases op <;> rfl
  | ret => exact m.ret_withKeypad keypad
  | call nnn => exact m.call_withKeypad keypad nnn
  | draw x y n => exact m.draw_withKeypad keypad x y n
  | bcd x | storeRegs x => exact m.store_withKeypad keypad _
  | loadRegs x => exact m.loadRegisters_withKeypad keypad x
  | _ => rfl

end

theorem cycle_withKeypad (h : m.KeyBlind) (keypad : Nibble.Table Bool) :
    (m.withKeypad keypad).cycle = m.cycle.withKeypad keypad := by
  by_cases hle : m.pc.toNat + 2 ≤ memorySize
  · have hop : m.nextOpcode.readsKeys = false := h.resolve_left (Nat.not_lt.2 hle)
    have hexecute : ((m.withKeypad keypad).fetched m.nextWord).execute (Opcode.decode m.nextWord) =
        ((m.fetched m.nextWord).execute (Opcode.decode m.nextWord)).withKeypad keypad :=
      execute_withKeypad (m.fetched m.nextWord) keypad hop
    have hfetch : (m.withKeypad keypad).fetch = .ok m.nextWord := fetch_of_le (m := m) hle
    simp only [cycle, hfetch, fetch_of_le hle, hexecute]
    obtain ⟨result, after, reports⟩ := (m.fetched m.nextWord).execute (Opcode.decode m.nextWord)
    cases result <;> rfl
  · rw [cycle_of_lt (Nat.not_le.1 hle), cycle_of_lt (m := m.withKeypad keypad) (Nat.not_le.1 hle)]
    rfl

theorem putKey_eq_withKeypad (key : UInt8) (down : Bool) :
    (m.putKey key down).machine = m.withKeypad (m.putKey key down).machine.keypad :=
  m.putKey_writes key down

/-- A cycle that does not look at the keypad may trade places with a key event. -/
theorem cycle_putKey (h : m.KeyBlind) (key : UInt8) (down : Bool) :
    (m.putKey key down).machine.cycle =
        ⟨m.cycle.result, (m.cycle.machine.putKey key down).machine, m.cycle.reports⟩ ∧
      (m.cycle.machine.putKey key down).result = (m.putKey key down).result := by
  constructor
  · have hkeypad : (m.cycle.machine.putKey key down).machine.keypad = (m.putKey key down).machine.keypad :=
      keypad_putKey_congr m.cycle_keypad key down
    rw [putKey_eq_withKeypad, cycle_withKeypad h, putKey_eq_withKeypad (m := m.cycle.machine), hkeypad]
    rfl
  · unfold putKey
    cases Nibble.ofByte? key <;> rfl

/-! ## Histories -/

theorem cycleResults_cons_cycle : m.cycleResults (.cycle :: rs) = m.cycle.result :: m.cycle.machine.cycleResults rs :=
  if_pos rfl

/-- Of the instructions that look at the keypad none faults, so a cycle that is not listed as carried out is none of
them. -/
theorem keyBlind_of_executed (h : ∀ s ∈ m.executed (.cycle :: rs), s.nextOpcode.readsKeys = false) : m.KeyBlind := by
  by_cases he : m.executes .cycle = true
  · refine .inr (h m ?_)
    rw [executed_cons_of_executes he]
    exact List.mem_cons_self
  · by_cases hle : m.pc.toNat + 2 ≤ memorySize
    · refine .inr (Bool.eq_false_iff.2 fun hop => he ?_)
      have hself : m.nextOpcode.selfContained = true := by
        generalize m.nextOpcode = op at hop
        cases op with
        | skipIfPressed | skipIfNotPressed | waitForKey => rfl
        | _ => cases hop
      exact executes_iff.2 ⟨rfl, _, cycle_ok_of_selfContained hle hself⟩
    · exact .inl (Nat.not_le.1 hle)

namespace SameButKeys

theorem cycle (h : m.SameButKeys s) (hblind : m.KeyBlind) :
    m.cycle.machine.SameButKeys s.cycle.machine ∧ s.cycle.result = m.cycle.result := by
  obtain ⟨keypad, rfl⟩ := h
  rw [cycle_withKeypad hblind]
  exact ⟨⟨keypad, rfl⟩, rfl⟩

theorem putKey_right (h : m.SameButKeys s) (key : UInt8) (down : Bool) : m.SameButKeys (s.putKey key down).machine := by
  obtain ⟨keypad, rfl⟩ := h
  exact ⟨_, putKey_eq_withKeypad (m := m.withKeypad keypad) key down⟩

theorem putKey_left (h : m.SameButKeys s) (key : UInt8) (down : Bool) : (m.putKey key down).machine.SameButKeys s := by
  obtain ⟨keypad, rfl⟩ := h
  rw [putKey_eq_withKeypad]
  exact ⟨keypad, rfl⟩

/-- Key events alone change no more than the keypad. -/
theorem afterAll_right (h : m.SameButKeys s) (hkeys : ∀ r ∈ rs, r.isKeyEvent = true) :
    m.SameButKeys (s.afterAll rs) ∧ ∀ later, s.cycleResults (rs ++ later) = (s.afterAll rs).cycleResults later := by
  induction rs generalizing s with
  | nil => exact ⟨h, fun _ => rfl⟩
  | cons r rs ih =>
    obtain ⟨hr, hrest⟩ := List.forall_mem_cons.1 hkeys
    cases r with
    | putKey key down => exact ih (h.putKey_right key down) hrest
    | cycle | load | reset => cases hr

/-- Apart from the keypad, a machine follows its cycles alone, as long as they do not look at the keypad. -/
theorem afterAll (h : m.SameButKeys s) (hrs : ∀ r ∈ rs, r = .cycle ∨ r.isKeyEvent = true)
    (hrs' : ∀ r ∈ rs', r = .cycle ∨ r.isKeyEvent = true) (hcount : rs'.count .cycle = rs.count .cycle)
    (hblind : ∀ t ∈ m.executed rs, t.nextOpcode.readsKeys = false) :
    (m.afterAll rs).SameButKeys (s.afterAll rs') ∧ s.cycleResults rs' = m.cycleResults rs := by
  induction rs generalizing m s rs' with
  | nil =>
    have hnone : Request.cycle ∉ rs' := List.count_eq_zero.1 hcount
    have hkeys : ∀ r ∈ rs', r.isKeyEvent = true := fun r hr => (hrs' r hr).resolve_left fun he => hnone (he ▸ hr)
    obtain ⟨hsame, hresults⟩ := h.afterAll_right hkeys
    refine ⟨hsame, ?_⟩
    have := hresults []
    rwa [List.append_nil] at this
  | cons r rs ih =>
    obtain ⟨hr, hrest⟩ := List.forall_mem_cons.1 hrs
    have hlater : ∀ t ∈ (m.after r).executed rs, t.nextOpcode.readsKeys = false :=
      fun t ht => hblind t (mem_executed_cons ht)
    cases r with
    | putKey key down =>
      rw [List.count_cons_of_ne (by simp)] at hcount
      exact ih (h.putKey_left key down) hrest hrs' hcount hlater
    | cycle =>
      -- the first cycle of the other history comes behind some key events
      have hmem : Request.cycle ∈ rs' := by
        rw [← List.count_pos_iff, hcount, List.count_cons_self]
        exact Nat.succ_pos _
      obtain ⟨keys, rest, rfl, hnone⟩ := List.eq_append_cons_of_mem hmem
      have hkeys : ∀ r ∈ keys, r.isKeyEvent = true :=
        fun r hr => (hrs' r (List.mem_append_left _ hr)).resolve_left fun he => hnone (he ▸ hr)
      have hrest' : ∀ r ∈ rest, r = .cycle ∨ r.isKeyEvent = true :=
        fun r hr => hrs' r (List.mem_append_right _ (List.mem_cons_of_mem _ hr))
      rw [List.count_append, List.count_eq_zero.2 hnone, List.count_cons_self, List.count_cons_self] at hcount
      obtain ⟨hsame, hresults⟩ := h.afterAll_right hkeys
      obtain ⟨hnext, hresult⟩ := hsame.cycle (keyBlind_of_executed hblind)
      obtain ⟨hend, hends⟩ := ih hnext hrest hrest' (by omega) hlater
      have hrun : s.afterAll (keys ++ .cycle :: rest) = (s.afterAll keys).cycle.machine.afterAll rest :=
        List.foldl_append
      rw [hrun, hresults, cycleResults_cons_cycle, cycleResults_cons_cycle, hresult, hends]
      exact ⟨hend, rfl⟩
    | load | reset => rcases hr with hr | hr <;> cases hr

end SameButKeys

theorem keypad_get_putKey (key : UInt8) (down : Bool) (k : Nibble) :
    (m.putKey key down).machine.keypad.get k = if key = k.toByte then down else m.keypad.get k := by
  unfold putKey
  cases hkey : Nibble.ofByte? key with
  | some j =>
    have hj : key = k.toByte ↔ j = k := by
      constructor
      · rintro rfl
        rw [Nibble.ofByte?_toByte] at hkey
        exact (Option.some.inj hkey).symm
      · rintro rfl
        have htoByte := Nibble.ofByte?_eq_some_iff.1 (Nibble.ofByte?_toByte j)
        exact UInt8.toNat_inj.1 ((Nibble.ofByte?_eq_some_iff.1 hkey).trans htoByte.symm)
    simp only [Nibble.Table.get_put, hj]
  | none =>
    rw [if_neg]
    rintro rfl
    rw [Nibble.ofByte?_toByte] at hkey
    cases hkey

/-- A key follows the events on it. -/
theorem keypad_get_afterAll (hrs : ∀ r ∈ rs, r = .cycle ∨ r.isKeyEvent = true) {k : Nibble}
    (h : m.keypad.get k = m'.keypad.get k) :
    (m.afterAll rs).keypad.get k = (m'.afterAll (rs.filter (Request.isOn k.toByte))).keypad.get k := by
  induction rs generalizing m m' with
  | nil => exact h
  | cons r rs ih =>
    obtain ⟨hr, hrest⟩ := List.forall_mem_cons.1 hrs
    cases r with
    | cycle => exact ih hrest ((congrArg (fun v => Vector.get v k) m.cycle_keypad).trans h)
    | putKey key down =>
      by_cases hkey : key = k.toByte
      · rw [List.filter_cons_of_pos (by simp [Request.isOn, hkey])]
        refine ih hrest ?_
        show (m.putKey key down).machine.keypad.get k = (m'.putKey key down).machine.keypad.get k
        rw [keypad_get_putKey, keypad_get_putKey, if_pos hkey, if_pos hkey]
      · rw [List.filter_cons_of_neg (by simp [Request.isOn, hkey])]
        refine ih hrest ?_
        show (m.putKey key down).machine.keypad.get k = m'.keypad.get k
        rw [keypad_get_putKey, if_neg hkey, h]
    | load | reset => rcases hr with hr | hr <;> cases hr

/-- A key event does the same before and after a cycle that does not look at the keypad, and so does the cycle. Hence,
as long as no instruction that is carried out looks at it, only the number of cycles and the order of the events on
each key matter: any two histories that agree in these lead to the same machine, by cycles with the same results. -/
theorem key_events_commute :
    (m.KeyBlind → ∀ key down,
        (m.putKey key down).machine.cycle.result = m.cycle.result ∧
          (m.cycle.machine.putKey key down).result = (m.putKey key down).result ∧
          (m.putKey key down).machine.cycle.machine = (m.cycle.machine.putKey key down).machine) ∧
      ∀ rs rs', Request.Reordered rs rs' → (∀ s ∈ m.executed rs, s.nextOpcode.readsKeys = false) →
        m.afterAll rs' = m.afterAll rs ∧ m.cycleResults rs' = m.cycleResults rs := by
  constructor
  · intro hblind key down
    obtain ⟨hcycle, hresult⟩ := cycle_putKey hblind key down
    rw [hcycle]
    exact ⟨rfl, hresult, rfl⟩
  · intro rs rs' h hblind
    obtain ⟨⟨keypad, hsame⟩, hresults⟩ :=
      SameButKeys.afterAll (m := m) (s := m) ⟨m.keypad, rfl⟩ h.requests h.requests' h.cycles hblind
    refine ⟨?_, hresults⟩
    have hkeypad : keypad = (m.afterAll rs).keypad := by
      refine Vector.ext fun k hk => ?_
      have hrs := keypad_get_afterAll (m := m) h.requests (k := ⟨k, hk⟩) rfl
      have hrs' := keypad_get_afterAll (m := m) h.requests' (k := ⟨k, hk⟩) rfl
      rw [h.keys, ← hrs, hsame] at hrs'
      exact hrs'
    rw [hsame, hkeypad]
    rfl

/-- A program that draws and then returns from nowhere, with two keys tapped and one that does not exist. -/
theorem key_events_commute_tapped :
    let m := (withSeed 7).afterAll [.load [0x61, 0x05, 0xD1, 0x15, 0x00, 0xEE]]
    let rs : List Request :=
      [.putKey 3 true, .cycle, .cycle, .putKey 3 false, .putKey 0x10 true, .cycle, .putKey 0xA true]
    let rs' : List Request :=
      [.cycle, .putKey 0xA true, .putKey 3 true, .putKey 3 false, .cycle, .cycle, .putKey 0x10 true]
    m.Reachable ∧ Request.Reordered rs rs' ∧ (∀ s ∈ m.executed rs, s.nextOpcode.readsKeys = false) ∧ m.KeyBlind ∧
      (m.putKey 3 true).machine.cycle.machine = (m.cycle.machine.putKey 3 true).machine ∧
      m.afterAll rs' = m.afterAll rs ∧ (m.afterAll rs').keypad.get 3 = false ∧ (m.afterAll rs').keypad.get 0xA = true ∧
      m.cycleResults rs' = [.ok .proceed, .ok .displayUpdated, .error (.stackUnderflow 0x204 0x00EE)] := by
  intro m rs rs'
  have hm : m.Reachable := reachable_iff.2 ⟨_, _, rfl⟩
  obtain ⟨hexecuted, hop, hup, hdown, hresults⟩ :
      (∀ s ∈ m.executed rs, s.nextOpcode.readsKeys = false) ∧ m.nextOpcode.readsKeys = false ∧
      (m.afterAll rs).keypad.get 3 = false ∧ (m.afterAll rs).keypad.get 0xA = true ∧
      m.cycleResults rs = [.ok .proceed, .ok .displayUpdated, .error (.stackUnderflow 0x204 0x00EE)] := by
    decide +kernel
  have hreordered : Request.Reordered rs rs' := by
    refine ⟨by decide, by decide, by decide, fun key => ?_⟩
    by_cases hthree : (3 : UInt8) = key
    · subst hthree
      rfl
    · by_cases hten : (0xA : UInt8) = key
      · subst hten
        rfl
      · simp [rs, rs', Request.isOn, List.filter_cons, hthree, hten]
  obtain ⟨hswap, hhistories⟩ := key_events_commute (m := m)
  obtain ⟨-, -, hstep⟩ := hswap (.inr hop) 3 true
  obtain ⟨hend, hends⟩ := hhistories rs rs' hreordered hexecuted
  rw [hend]
  exact ⟨hm, hreordered, hexecuted, .inr hop, hstep, rfl, hup, hdown, hends.trans hresults⟩

end Machine

end Chip8
