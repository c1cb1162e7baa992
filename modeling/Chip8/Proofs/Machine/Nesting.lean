import Chip8.Proofs.Machine.ControlFlow

/-!
# Nested calls

A request other than a reset puts at most one address on the stack or takes at most one from it. So a
machine whose stack never gets shorter than it was keeps all of it (`Machine.suffix_trace`), whatever calls,
returns and faults lie between, and a call finds its way back (`Machine.call_nests`).
-/

namespace Chip8.Machine

variable {m : Machine}

/-- Only a reset changes the stack by more than one address. -/
theorem stack_after_cases (m : Machine) {r : Request} (hr : r ≠ .reset) :
    (m.after r).stack = m.stack ∨ (∃ a, (m.after r).stack = a :: m.stack) ∨
      ∃ a, m.stack = a :: (m.after r).stack := by
  cases r with
  | cycle =>
    rcases m.cycle_cases with hlt | ⟨hle, ⟨f, hf⟩ | hf⟩
    · rw [after, cycle_of_lt hlt]
      exact .inl rfl
    · rw [after, cycle_of_faults hle hf]
      exact .inl rfl
    · rw [after, cycle_of_not_faults hle hf, tick, execute_stack]
      rcases m.poised.nextStack_cases m.nextOpcode with h | ⟨nnn, -, h⟩ | ⟨-, a, h⟩
      · exact .inl h
      · exact .inr (.inl ⟨_, h⟩)
      · exact .inr (.inr ⟨a, h⟩)
  | load rom =>
    rw [after, load_writes]
    exact .inl rfl
  | reset => exact absurd rfl hr
  | putKey key down =>
    rw [after, putKey_writes]
    exact .inl rfl

/-- A request that leaves the stack long enough keeps its lower part. -/
theorem suffix_after {base : List UInt16} (h : base <:+ m.stack) {r : Request} (hr : r ≠ .reset)
    (hlen : base.length ≤ (m.after r).stack.length) : base <:+ (m.after r).stack := by
  rcases m.stack_after_cases hr with hs | ⟨a, hs⟩ | ⟨a, hs⟩
  · rw [hs]
    exact h
  · rw [hs]
    exact h.trans (List.suffix_cons a m.stack)
  · -- the address taken off lies above `base`, or the stack would be too short now
    rw [hs] at h
    rcases List.suffix_cons_iff.1 h with rfl | h
    · rw [List.length_cons] at hlen
      omega
    · exact h

theorem mem_trace_self (m : Machine) (rs : List Request) : m ∈ m.trace rs := by
  cases rs with
  | nil => exact List.mem_singleton_self m
  | cons r rs => exact List.mem_cons_self

theorem afterAll_mem_trace (m : Machine) (rs : List Request) : m.afterAll rs ∈ m.trace rs := by
  induction rs generalizing m with
  | nil => exact List.mem_singleton_self m
  | cons r rs ih => exact List.mem_cons_of_mem m (ih (m.after r))

/-- As long as it is not reset and its stack does not get shorter, a machine keeps the stack that it had. -/
theorem suffix_trace {base : List UInt16} (h : base <:+ m.stack) {rs : List Request}
    (hrs : Request.reset ∉ rs) (hdeep : ∀ s ∈ m.trace rs, base.length ≤ s.stack.length) :
    ∀ s ∈ m.trace rs, base <:+ s.stack := by
  -- `base` stays fixed while the machine that the rest starts from moves on
  induction rs generalizing m with
  | nil =>
    intro s hs
    cases List.mem_singleton.1 hs
    exact h
  | cons r rs ih =>
    obtain ⟨hr, hrs⟩ := List.ne_and_not_mem_of_not_mem_cons hrs
    have hrest : ∀ s ∈ (m.after r).trace rs, base.length ≤ s.stack.length :=
      fun s hs => hdeep s (List.mem_cons_of_mem m hs)
    have hnext : base <:+ (m.after r).stack :=
      suffix_after h (Ne.symm hr) (hrest _ (mem_trace_self _ rs))
    intro s hs
    rcases List.mem_cons.1 hs with rfl | hs
    · exact h
    · exact ih hnext hrs hrest s hs

/-- A return from a stack with an entry succeeds and takes the latest entry. -/
theorem cycle_of_ret (hpc : m.pc.toNat + 2 ≤ memorySize) (hop : m.nextOpcode = .ret) {a : UInt16}
    {rest : List UInt16} (hs : m.stack = a :: rest) :
    m.cycle.result = .ok .proceed ∧ m.cycle.machine.pc = a ∧ m.cycle.machine.stack = rest := by
  have hfaults (f : Fault) : ¬m.poised.Faults m.nextOpcode f := by
    rw [hop]
    rintro (hempty | _ | ⟨haccess, -⟩)
    · cases hs.symm.trans hempty
    · cases haccess
  have hok : m.cycle.result = .ok .proceed := by
    rw [cycle_of_not_faults hpc hfaults, hop]
    rfl
  obtain ⟨ha, hrest⟩ := List.cons.inj (hs.symm.trans ((goesOn_cycle hok).ret hop))
  exact ⟨hok, ha.symm, hrest.symm⟩

/-- After a call, and as long as the machine is not reset and the stack does not get shorter than the call
left it, the way back stays where the call put it, on top of the stack before. A return from there leads
behind the call and leaves that stack. -/
theorem call_nests {nnn : Address} {o : Outcome} (hop : m.nextOpcode = .call nnn)
    (hok : m.cycle.result = .ok o) {rs : List Request} (hrs : Request.reset ∉ rs)
    (hdeep : ∀ s ∈ m.cycle.machine.trace rs, m.stack.length + 1 ≤ s.stack.length) :
    (m.pc + 2).toNat = m.pc.toNat + 2 ∧
      (∀ s ∈ m.cycle.machine.trace rs, (m.pc + 2) :: m.stack <:+ s.stack) ∧
      ∀ s, s = m.cycle.machine.afterAll rs → s.pc.toNat + 2 ≤ memorySize → s.nextOpcode = .ret →
        s.stack.length = m.stack.length + 1 →
          s.cycle.result = .ok .proceed ∧ s.cycle.machine.pc = m.pc + 2 ∧ s.cycle.machine.stack = m.stack := by
  obtain ⟨hle, -, -⟩ := cycle_ok hok
  have hback : (m.pc + 2).toNat = m.pc.toNat + 2 := toNat_addTwo (by omega)
  obtain ⟨-, a, ha, hstack⟩ := (goesOn_cycle hok).call nnn hop
  obtain rfl : a = m.pc + 2 := UInt16.toNat_inj.1 (ha.trans hback.symm)
  have hkept : ∀ s ∈ m.cycle.machine.trace rs, (m.pc + 2) :: m.stack <:+ s.stack :=
    suffix_trace (hstack ▸ List.suffix_refl _) hrs hdeep
  refine ⟨hback, hkept, ?_⟩
  rintro s rfl hpc hret hlen
  -- of this length, the stack is the part that was kept and nothing above it
  have hs := (hkept _ (afterAll_mem_trace _ rs)).eq_of_length hlen.symm
  exact cycle_of_ret hpc hret hs.symm

/-- A subroutine that calls another one, goes on past a fault and returns. -/
theorem call_nests_fault :
    let program := [0x22, 0x06, 0x12, 0x02, 0x00, 0xEE, 0x22, 0x04, 0xAF, 0xFF, 0xF1, 0x55, 0x00, 0xEE]
    let m := ((Machine.withSeed 7).load program).machine
    let rs : List Request := [.cycle, .cycle, .putKey 5 true, .cycle, .cycle]
    m.Reachable ∧ m.nextOpcode = .call 0x206 ∧
      (∀ s ∈ m.cycle.machine.trace rs, m.stack.length + 1 ≤ s.stack.length) ∧
      (m.cycle.machine.afterAll rs).pc = 0x20C ∧ (m.cycle.machine.afterAll rs).nextOpcode = .ret ∧
      (m.cycle.machine.afterAll rs).cycle.result = .ok .proceed ∧
      (m.cycle.machine.afterAll rs).cycle.machine.pc = 0x202 ∧
      (m.cycle.machine.afterAll rs).cycle.machine.stack = [] := by
  intro program m rs
  have hm : m.Reachable := (Reachable.powerOn _).after (.load program)
  have hop : m.nextOpcode = .call 0x206 := nextOpcode_load (by decide) rfl
  have hfaults (f : Fault) : ¬m.poised.Faults m.nextOpcode f := by
    rw [hop]
    rintro (_ | hfull | ⟨haccess, -⟩)
    · exact absurd hfull (by decide)
    · cases haccess
  have hok : m.cycle.result = .ok .proceed := by
    rw [cycle_of_not_faults (m := m) (by decide) hfaults, hop]
    rfl
  have hruns : (∀ s ∈ m.cycle.machine.trace rs, m.stack.length + 1 ≤ s.stack.length) ∧
      (m.cycle.machine.afterAll rs).pc = 0x20C ∧ (m.cycle.machine.afterAll rs).nextOpcode = .ret ∧
      (m.cycle.machine.afterAll rs).stack.length = m.stack.length + 1 := by
    decide +kernel
  obtain ⟨hdeep, hpc, hret, hlen⟩ := hruns
  have hreset : Request.reset ∉ rs := by decide
  obtain ⟨-, -, hback⟩ := call_nests hop hok hreset hdeep
  obtain ⟨hresult, hpc', hstack⟩ := hback _ rfl (by rw [hpc]; decide) hret hlen
  exact ⟨hm, hop, hdeep, hpc, hret, hresult, hpc', hstack⟩

end Chip8.Machine
