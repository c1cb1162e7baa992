import Chip8.Proofs.Machine.Invariant

/-!
# When a cycle faults

`Machine.CycleFaults` lists the faults of a cycle in terms of the machine before it: the word and the
instruction at the counter, the stack, and the bytes that the instruction reads or writes from I on.
`Reachable.cycle_faults_exactly` says that a cycle of a reachable machine faults in these cases and in
no others, and what the address of such a fault is.
-/

namespace Chip8

namespace Memory

/-- The address `a` is the first of the `len` addresses from `start` on that lies outside memory. -/
structure FirstMissing (start len a : Nat) : Prop where
  accessed : start ≤ a ∧ a < start + len
  missing : memorySize ≤ a
  first : ∀ k, start ≤ k → k < start + len → memorySize ≤ k → a ≤ k

theorem firstMissing_max {start len : Nat} (hlen : 0 < len) (h : memorySize < start + len) :
    FirstMissing start len (max start memorySize) := by
  refine ⟨⟨by omega, by omega⟩, by omega, ?_⟩
  intro k hk _ hmiss
  omega

theorem outOfBounds_eq (a : UInt16) :
    outOfBounds a = .memoryOutOfBounds (UInt16.ofNat (max a.toNat memorySize)) := by
  unfold outOfBounds
  split
  · rw [Nat.max_eq_right (by omega)]
  · rw [Nat.max_eq_left (by omega), UInt16.ofNat_toNat]

theorem toNat_max (a : UInt16) : (UInt16.ofNat (max a.toNat memorySize)).toNat = max a.toNat memorySize := by
  have := a.toNat_lt
  rw [UInt16.toNat_ofNat']
  simp only [memorySize]
  omega

end Memory

namespace Machine

/-- The faults of a cycle, by what the machine lacks before it. -/
inductive CycleFaults (m : Machine) : Fault → Prop where
  /-- The second byte of the word at the counter lies outside memory. -/
  | fetch (hpc : memorySize ≤ m.pc.toNat + 1) :
      CycleFaults m (.memoryOutOfBounds (UInt16.ofNat (max m.pc.toNat memorySize)))
  | emptyStack (hpc : m.pc.toNat + 1 < memorySize) (hop : m.nextOpcode = .ret) (hs : m.stack = []) :
      CycleFaults m (.stackUnderflow m.pc m.nextWord)
  | fullStack {nnn : Address} (hpc : m.pc.toNat + 1 < memorySize) (hop : m.nextOpcode = .call nnn)
      (hs : m.stack.length = stackDepth) : CycleFaults m (.stackOverflow m.pc m.nextWord)
  /-- A draw reads a byte for each of its rows above the bottom edge. -/
  | draw {x y n : Nibble} (hpc : m.pc.toNat + 1 < memorySize) (hop : m.nextOpcode = .draw x y n)
      (hi : memorySize < m.index.toNat + min n.val (displayHeight - (m.reg y).toNat % displayHeight)) :
      CycleFaults m (.memoryOutOfBounds (UInt16.ofNat (max m.index.toNat memorySize)))
  | bcd {x : Nibble} (hpc : m.pc.toNat + 1 < memorySize) (hop : m.nextOpcode = .bcd x)
      (hi : memorySize < m.index.toNat + 3) :
      CycleFaults m (.memoryOutOfBounds (UInt16.ofNat (max m.index.toNat memorySize)))
  | storeRegs {x : Nibble} (hpc : m.pc.toNat + 1 < memorySize) (hop : m.nextOpcode = .storeRegs x)
      (hi : memorySize < m.index.toNat + x.val + 1) :
      CycleFaults m (.memoryOutOfBounds (UInt16.ofNat (max m.index.toNat memorySize)))
  | loadRegs {x : Nibble} (hpc : m.pc.toNat + 1 < memorySize) (hop : m.nextOpcode = .loadRegs x)
      (hi : memorySize < m.index.toNat + x.val + 1) :
      CycleFaults m (.memoryOutOfBounds (UInt16.ofNat (max m.index.toNat memorySize)))

/-- The instruction at the counter faults as the list says. -/
theorem CycleFaults.of_faults {m : Machine} (hpc : m.pc.toNat + 1 < memorySize)
    (hd : m.stack.length ≤ stackDepth) {f : Fault} (h : m.poised.Faults m.nextOpcode f) :
    m.CycleFaults f := by
  generalize hop : m.nextOpcode = op at h
  cases h with
  | emptyStack hs =>
    rw [instructionAddress_poised]
    exact .emptyStack hpc hop hs
  | fullStack hs =>
    rw [instructionAddress_poised]
    exact .fullStack hpc hop (Nat.le_antisymm hd hs)
  | access hacc hlen =>
    rw [Memory.outOfBounds_eq]
    cases op with
    | draw x y n => cases hacc; exact .draw hpc hop hlen
    | bcd x => cases hacc; exact .bcd hpc hop hlen
    | storeRegs x => cases hacc; exact .storeRegs hpc hop hlen
    | loadRegs x => cases hacc; exact .loadRegs hpc hop hlen
    | _ => cases hacc

theorem CycleFaults.faults {m : Machine} (hpc : m.pc.toNat + 1 < memorySize) {f : Fault}
    (h : m.CycleFaults f) : m.poised.Faults m.nextOpcode f := by
  cases h with
  | fetch hpc' => omega
  | emptyStack _ hop hs =>
    rw [hop, ← m.instructionAddress_poised]
    exact .emptyStack hs
  | fullStack _ hop hs =>
    rw [hop, ← m.instructionAddress_poised]
    exact .fullStack (Nat.le_of_eq hs.symm)
  | draw _ hop hi =>
    rw [hop, ← Memory.outOfBounds_eq]
    exact .access rfl hi
  | bcd _ hop hi | storeRegs _ hop hi | loadRegs _ hop hi =>
    rw [hop, ← Memory.outOfBounds_eq]
    exact .access rfl hi

theorem cycle_error_iff_cycleFaults {m : Machine} (hd : m.stack.length ≤ stackDepth) {f : Fault} :
    m.cycle.result = .error f ↔ m.CycleFaults f := by
  rw [cycle_error_iff]
  constructor
  · rintro (⟨hlt, rfl⟩ | ⟨hle, hf⟩)
    · rw [Memory.outOfBounds_eq]
      exact .fetch (by omega)
    · exact .of_faults (by omega) hd hf
  · intro h
    by_cases hpc : m.pc.toNat + 1 < memorySize
    · exact .inr ⟨by omega, h.faults hpc⟩
    · cases h with
      | fetch hpc' => exact .inl ⟨by omega, (Memory.outOfBounds_eq m.pc).symm⟩
      | emptyStack hpc' | fullStack hpc' | draw hpc' | bcd hpc' | storeRegs hpc' | loadRegs hpc' => omega

/-- The address of a fault is the first missing one of an access that is not empty. -/
theorem CycleFaults.firstMissing {m : Machine} {a : UInt16} (h : m.CycleFaults (.memoryOutOfBounds a)) :
    memorySize ≤ m.pc.toNat + 1 ∧ Memory.FirstMissing m.pc.toNat 2 a.toNat ∨
      m.pc.toNat + 1 < memorySize ∧ ∃ len, m.accessLength? m.nextOpcode = some len ∧
        (0 < len → Memory.FirstMissing m.index.toNat len a.toNat) := by
  cases h with
  | fetch hpc =>
    rw [Memory.toNat_max]
    exact .inl ⟨hpc, Memory.firstMissing_max (by decide) (by omega)⟩
  | draw hpc hop hi =>
    rw [Memory.toNat_max, hop]
    exact .inr ⟨hpc, _, rfl, fun hlen => Memory.firstMissing_max hlen hi⟩
  | bcd hpc hop hi | storeRegs hpc hop hi | loadRegs hpc hop hi =>
    rw [Memory.toNat_max, hop]
    exact .inr ⟨hpc, _, rfl, fun hlen => Memory.firstMissing_max hlen hi⟩

/-- A cycle of a reachable machine faults as `CycleFaults` lists and succeeds in every other case. The
address of a memory fault is the first of the access that does not exist, and a draw of no rows faults
only where I itself lies outside memory. -/
theorem Reachable.cycle_faults_exactly {m : Machine} (h : m.Reachable) :
    (∀ f, m.cycle.result = .error f ↔ m.CycleFaults f) ∧
      ((∀ f, ¬m.CycleFaults f) → ∃ o, m.cycle.result = .ok o) ∧
      (∀ key, m.cycle.result ≠ .error (.invalidKey key)) ∧
      (∀ size maxSize, m.cycle.result ≠ .error (.programTooLarge size maxSize)) ∧
      (∀ a, m.cycle.result = .error (.memoryOutOfBounds a) →
        memorySize ≤ m.pc.toNat + 1 ∧ Memory.FirstMissing m.pc.toNat 2 a.toNat ∨
          m.pc.toNat + 1 < memorySize ∧ ∃ len, m.accessLength? m.nextOpcode = some len ∧
            (0 < len → Memory.FirstMissing m.index.toNat len a.toNat)) ∧
      (∀ x y n, m.pc.toNat + 1 < memorySize → m.nextOpcode = .draw x y n → n.val = 0 →
        ((∃ f, m.cycle.result = .error f) ↔ memorySize < m.index.toNat)) := by
  have hiff (f : Fault) : m.cycle.result = .error f ↔ m.CycleFaults f :=
    cycle_error_iff_cycleFaults h.wellFormed.depth
  refine ⟨hiff, ?_, ?_, ?_, ?_, ?_⟩
  · intro hok
    cases hr : m.cycle.result with
    | ok o => exact ⟨o, rfl⟩
    | error f => exact absurd ((hiff f).1 hr) (hok f)
  · intro key hr
    cases (hiff _).1 hr
  · intro size maxSize hr
    cases (hiff _).1 hr
  · intro a hr
    exact ((hiff _).1 hr).firstMissing
  · intro x y n hpc hop hn
    constructor
    · rintro ⟨f, hr⟩
      cases (hiff f).1 hr with
      | fetch hpc' => omega
      | draw _ hop' hi =>
        rw [hop] at hop'
        cases hop'
        omega
      | emptyStack _ hop' | fullStack _ hop' | bcd _ hop' | storeRegs _ hop' | loadRegs _ hop' =>
        rw [hop] at hop'
        cases hop'
    · intro hi
      exact ⟨_, (hiff _).2 (.draw hpc hop (by omega))⟩

/-- A return is the first instruction of a program. -/
theorem cycle_faults_return :
    let m := ((Machine.withSeed 7).load [0x00, 0xEE]).machine
    m.Reachable ∧ m.CycleFaults (.stackUnderflow 0x200 0x00EE) ∧
      m.cycle.result = .error (.stackUnderflow 0x200 0x00EE) := by
  intro m
  have hm : m.Reachable := (Reachable.powerOn _).after (.load [0x00, 0xEE])
  have hw : m.nextWord = 0x00EE := nextWord_load (by decide) rfl
  have hop : m.nextOpcode = .ret := by
    rw [nextOpcode, hw]
    rfl
  have hf : m.CycleFaults (.stackUnderflow 0x200 0x00EE) := hw ▸ .emptyStack (by decide) hop rfl
  exact ⟨hm, hf, (hm.cycle_faults_exactly.1 _).2 hf⟩

end Machine

end Chip8
