import Chip8.Proofs.Machine.Atomicity

/-!
# What a cycle logs

The log owes a cycle a line for the word that it fetched, a line if this word is none that the machine knows,
and a warning if a fault ends it (`Machine.owedLines`). A cycle that fetches its word pays all of this. One
whose counter has left memory ends before anything is reported: its warning is missing, and so is that of
every later cycle up to the next reset. `Machine.log_complete_iff_fetched` says that these are the only lines
that a log ever lacks.
-/

namespace Chip8

/-- A line of a log. -/
structure Line where
  level : Level
  text : String
  deriving DecidableEq, Repr

def Report.line (r : Report) : Line := ⟨r.level, r.text⟩

namespace Opcode

/-- The word of an instruction that the machine does not know. -/
def unknown? : Opcode → Option UInt16
  | .unknown w => some w
  | _ => none

/-- An unknown word stands for itself. -/
theorem eq_of_unknown?_decode {w v : UInt16} (h : (decode w).unknown? = some v) : v = w := by
  -- each family either knows the word or keeps it
  unfold decode decodeSystem decodeAlu decodeKey decodeMisc at h
  (repeat' split at h) <;> cases h <;> rfl

end Opcode

namespace Machine

/-- The lines that the next cycle logs. -/
def loggedLines (m : Machine) : List Line := m.cycle.reports.map Report.line

/-- The lines owed to a fetch: one that names the address, the word and its meaning, and one more if it has no
meaning. -/
def fetchLines (m : Machine) : Except Fault UInt16 → List Line
  | .ok w =>
    ⟨.trace, s!"{Text.address m.pc}: {Text.word w} {(Opcode.decode w).text}"⟩ ::
      if (Opcode.decode w).unknown?.isSome then
        [⟨.debug, s!"Ignoring unknown opcode {Text.address w} at {Text.address m.pc}"⟩]
      else []
  | .error _ => []

/-- The lines owed to the end of a cycle. -/
def abortLines : Except Fault Outcome → List Line
  | .ok _ => []
  | .error f => [⟨.warn, s!"Cycle aborted: {f.message}"⟩]

/-- The lines that a log owes to the next cycle. -/
def owedLines (m : Machine) : List Line := m.fetchLines m.fetch ++ abortLines m.cycle.result

theorem store_reports (m : Machine) (bs : List UInt8) : (m.store bs).reports = [] := by
  unfold store
  split <;> rfl

/-- Only an instruction that the machine does not know is reported by itself. -/
theorem execute_reports (m : Machine) (op : Opcode) :
    (m.execute op).reports = (op.unknown?.map fun w => .unknownOpcode w m.instructionAddress).toList := by
  cases op with
  | ret => cases hs : m.stack <;> simp only [execute, ret, hs] <;> rfl
  | call nnn => by_cases hs : m.stack.length < stackDepth <;> simp only [execute, call, hs] <;> rfl
  | waitForKey x => cases hk : m.firstKeyDown? <;> simp only [execute, waitForKey, hk] <;> rfl
  | draw x y n => cases hs : m.sprite x y n <;> simp only [execute, draw, hs] <;> rfl
  | bcd x | storeRegs x => exact m.store_reports _
  | loadRegs x => cases hs : m.memory.read? m.index (x.val + 1) <;> simp only [execute, loadRegisters, hs] <;> rfl
  | _ => rfl

/-! ## One cycle -/

variable {m : Machine} {n : Nat}

theorem unknown?_of_faults {op : Opcode} {f : Fault} (h : m.Faults op f) : op.unknown? = none := by
  cases op with
  | unknown w =>
    rw [← execute_error_iff] at h
    cases h
  | _ => rfl

/-- What is reported between a fetch and the end of the cycle. -/
theorem map_line_executing (m : Machine) (w : UInt16) :
    (Report.executing m.pc w (Opcode.decode w) ::
      ((Opcode.decode w).unknown?.map fun v => .unknownOpcode v m.pc).toList).map Report.line =
      m.fetchLines (.ok w) := by
  rw [fetchLines]
  cases hop : (Opcode.decode w).unknown? with
  | none => rfl
  | some v =>
    rw [Opcode.eq_of_unknown?_decode hop]
    rfl

/-- A cycle that has a word to fetch logs all that it owes. -/
theorem loggedLines_of_le (h : m.pc.toNat + 2 ≤ memorySize) : m.loggedLines = m.owedLines := by
  rw [loggedLines, owedLines, fetch_of_le h, ← map_line_executing]
  by_cases hf : ∃ f, m.poised.Faults m.nextOpcode f
  · obtain ⟨f, hf⟩ := hf
    have hknown : (Opcode.decode m.nextWord).unknown? = none := unknown?_of_faults hf
    rw [cycle_of_faults h hf, hknown]
    rfl
  · rw [cycle_of_not_faults h fun f hf' => hf ⟨f, hf'⟩, execute_reports, instructionAddress_poised,
      abortLines, List.append_nil]
    rfl

/-- A cycle without a word to fetch logs nothing, though it owes a warning. -/
theorem loggedLines_of_lt (h : memorySize < m.pc.toNat + 2) :
    m.loggedLines = [] ∧ m.owedLines = abortLines (.error (Memory.outOfBounds m.pc)) := by
  rw [loggedLines, owedLines, cycle_of_lt h, fetch_of_lt h]
  exact ⟨rfl, rfl⟩

theorem loggedLines_eq_owedLines_iff : m.loggedLines = m.owedLines ↔ m.pc.toNat + 2 ≤ memorySize := by
  refine ⟨fun h => Nat.not_lt.1 fun hlt => ?_, loggedLines_of_le⟩
  obtain ⟨hlogged, howed⟩ := loggedLines_of_lt hlt
  rw [hlogged, howed] at h
  cases h

theorem level_of_mem_fetchLines {r : Except Fault UInt16} {l : Line} (h : l ∈ m.fetchLines r) :
    l.level = .trace ∨ l.level = .debug := by
  cases r with
  | error f => cases h
  | ok w =>
    rcases List.mem_cons.1 h with rfl | h
    · exact .inl rfl
    · split at h
      · rw [List.mem_singleton.1 h]
        exact .inr rfl
      · cases h

/-- A cycle that succeeds logs no warning. -/
theorem level_ne_warn_of_ok {o : Outcome} (h : m.cycle.result = .ok o) {l : Line} (hl : l ∈ m.loggedLines) :
    l.level ≠ .warn := by
  rw [loggedLines_of_le (cycle_ok h).1, owedLines, h, abortLines, List.append_nil] at hl
  rcases level_of_mem_fetchLines hl with hlevel | hlevel
  · rw [hlevel]
    nofun
  · rw [hlevel]
    nofun

/-! ## A run of cycles -/

/-- Where a run of cycles still has a word to fetch, it had one from the start. -/
theorem le_of_le_afterAll (h : (m.afterAll (List.replicate n .cycle)).pc.toNat + 2 ≤ memorySize) :
    m.pc.toNat + 2 ≤ memorySize := by
  refine Nat.not_lt.1 fun hlt => ?_
  have hreset : Request.reset ∉ List.replicate n Request.cycle := fun h => nomatch List.eq_of_mem_replicate h
  rw [pc_afterAll_of_lt hlt hreset] at h
  omega

/-- The log of a run of cycles is complete if that of its last one is. -/
theorem map_loggedLines_eq_iff :
    (m.trace (List.replicate n .cycle)).map loggedLines = (m.trace (List.replicate n .cycle)).map owedLines ↔
      (m.afterAll (List.replicate n .cycle)).pc.toNat + 2 ≤ memorySize := by
  induction n generalizing m with
  | zero =>
    show [m.loggedLines] = [m.owedLines] ↔ m.pc.toNat + 2 ≤ memorySize
    rw [List.cons.injEq, loggedLines_eq_owedLines_iff, and_iff_left rfl]
  | succ n ih =>
    have hrest := ih (m := m.cycle.machine)
    constructor
    · intro h
      exact hrest.1 (List.cons.inj h).2
    · intro h
      have hfirst : m.loggedLines = m.owedLines := loggedLines_of_le (le_of_le_afterAll (n := n + 1) h)
      exact List.cons_eq_cons.2 ⟨hfirst, hrest.2 h⟩

/-- A cycle logs what it owes exactly if its word lies in memory, and so does a run of cycles if the word of
the last of them does; a cycle that succeeds logs no warning. A cycle whose word does not lie in memory owes
one warning, but nothing is logged from there on until the machine is reset. -/
theorem log_complete_iff_fetched (m : Machine) (n : Nat) :
    (m.loggedLines = m.owedLines ↔ m.pc.toNat + 2 ≤ memorySize) ∧
      ((m.trace (List.replicate n .cycle)).map loggedLines = (m.trace (List.replicate n .cycle)).map owedLines ↔
        (m.afterAll (List.replicate n .cycle)).pc.toNat + 2 ≤ memorySize) ∧
      (∀ o, m.cycle.result = .ok o → ∀ l ∈ m.loggedLines, l.level ≠ .warn) ∧
      (memorySize < m.pc.toNat + 2 →
        m.owedLines = [⟨.warn, s!"Cycle aborted: {(Memory.outOfBounds m.pc).message}"⟩] ∧
          ∀ rs : List Request, Request.reset ∉ rs → (m.afterAll rs).loggedLines = []) := by
  refine ⟨loggedLines_eq_owedLines_iff, map_loggedLines_eq_iff, fun o h l => level_ne_warn_of_ok h, ?_⟩
  intro h
  refine ⟨(loggedLines_of_lt h).2, ?_⟩
  intro rs hrs
  rw [loggedLines, cycle_afterAll_of_lt h hrs]
  rfl

/-- A jump to the last byte of memory: the cycle behind it fails, and its warning is missing. -/
theorem log_incomplete_past_last_word :
    let m := ((withSeed 7).load [0x1F, 0xFF]).machine.cycle.machine
    m.Reachable ∧ m.cycle.result = .error (.memoryOutOfBounds 0x1000) ∧ m.loggedLines = [] ∧
      m.owedLines = [⟨.warn, "Cycle aborted: Memory access out of bounds at address 0x1000"⟩] := by
  intro m
  have hm : m.Reachable := ((Reachable.powerOn _).after (.load [0x1F, 0xFF])).after .cycle
  have hpc : m.pc = 0xFFF := by decide +kernel
  have hlt : memorySize < m.pc.toNat + 2 := by
    rw [hpc]
    decide
  obtain ⟨hlogged, howed⟩ := loggedLines_of_lt hlt
  rw [cycle_of_lt hlt, howed, hpc]
  exact ⟨hm, rfl, hlogged, by decide⟩

end Machine

end Chip8
