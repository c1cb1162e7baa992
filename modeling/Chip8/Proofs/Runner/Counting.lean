import Chip8.Proofs.Runner.Rounding
import Chip8.Proofs.Runner.SpeedRange
import Chip8.Proofs.Machine.Execution

/-!
# Counting

Whether an update comes back, and with a count. Its loop takes a step out of the account at every turn, and `Float`
rounds what is left. A drain comes back if its account leads down to less than a step in as many turns as it has room
for (`drain_returns`), and overruns if it does not (`drain_overruns`). How far an account is from the one or the other
follows from the error of one turn. As long as there are no more turns left than can be counted, this is small against
a step. In an account of more than `2 ^ 53` steps or so it takes the place of the step, and the loop goes round with the
same account for ever.

A loop that could count any number of turns is one that has any `room`.
-/

namespace Chip8

open Binary64

/-! ## Machines that loop -/

namespace Machine

/-- The instruction at the counter is a jump to itself. -/
structure Looping (m : Machine) : Prop where
  fetched : m.pc.toNat + 2 ≤ memorySize
  jump : ∃ nnn, m.nextOpcode = .jump nnn ∧ m.pc = UInt16.ofNat nnn.val

theorem Looping.cycle {m : Machine} (h : m.Looping) : m.cycle.result = .ok .proceed ∧ m.cycle.machine.Looping := by
  obtain ⟨hle, nnn, hop, hpc⟩ := h
  have hok : m.cycle.result = .ok .proceed := by
    rw [cycle_ok_of_selfContained hle (by rw [hop]; rfl), hop]
    rfl
  have hpc' : m.cycle.machine.pc = m.pc := by
    rw [cycle_machine_of_ok hok, hop, hpc]
    rfl
  have hmemory : m.cycle.machine.memory = m.memory := by
    rw [cycle_machine_of_ok hok, hop]
    rfl
  refine ⟨hok, by rw [hpc']; exact hle, nnn, ?_, hpc'.trans hpc⟩
  rw [nextOpcode, nextWord, hpc', hmemory]
  exact hop

theorem Looping.cycles {m m' : Machine} {os : List Outcome} (h : m.Looping) (hcycles : m.Cycles os m') :
    m'.Looping := by
  induction hcycles with
  | none => exact h
  | more _ _ ih => exact ih h.cycle.2

end Machine

namespace Runner

section Drain

variable {τ : Type} [Sub τ] [LE τ] [DecidableLE τ]
variable {step : τ} {room : Nat} {status status' : Status} {reports : Array Report} {r : Runner τ}

/-- A drain counts no more cycles than it has room for. -/
theorem drain_cycles_le (h : (drain step room status reports r).result = .ok status') :
    status'.cycles ≤ status.cycles + room := by
  fun_induction drain step room status reports r with
  | case1 => cases h
  | case2 => cases h
  | case3 status reports machine speed paused pending hle left o m new room hc status₁ ih =>
    have hrest : status'.cycles ≤ status.cycles + 1 + room := ih h
    omega
  | case4 =>
    cases h
    exact Nat.le_add_right _ _

/-- A drain comes back if its account is down to less than a step after `room` turns. -/
theorem drain_returns {P : Nat → τ → Prop} (hspend : ∀ k x, P (k + 1) x → step ≤ x → P k (x - step))
    (hspent : ∀ x, P 0 x → ¬step ≤ x) (h : P room r.pending) :
    (∃ status', (drain step room status reports r).result = .ok status') ∨
      ∃ e, (drain step room status reports r).result = .error (.fault e) := by
  fun_induction drain step room status reports r with
  | case1 room status reports machine speed paused pending hle left e => exact .inr ⟨e, rfl⟩
  | case2 status reports machine speed paused pending hle => exact absurd hle (hspent _ h)
  | case3 status reports machine speed paused pending hle left o m new room hc status₁ ih =>
    exact ih (hspend room _ h hle)
  | case4 room status => exact .inl ⟨status, rfl⟩

/-- A drain overruns if its account still holds a step after `room` turns. -/
theorem drain_overruns {P : Nat → τ → Prop} (hspend : ∀ k x, P (k + 1) x → step ≤ x ∧ P k (x - step))
    (h : P (room + 1) r.pending) :
    (drain step room status reports r).result = .error .overrun ∨
      ∃ e, (drain step room status reports r).result = .error (.fault e) := by
  fun_induction drain step room status reports r with
  | case1 room status reports machine speed paused pending hle left e => exact .inr ⟨e, rfl⟩
  | case2 => exact .inl rfl
  | case3 status reports machine speed paused pending hle left o m new room hc status₁ ih =>
    exact ih (hspend (room + 1) _ h).2
  | case4 _ status reports machine speed paused pending hle => exact absurd (hspend _ _ h).1 hle

theorem updateWithin_of_running [ClockNumber τ] [Add τ] [Div τ] {dt : τ} (h : r.paused = false) :
    r.updateWithin room dt =
      drain (ClockNumber.ofNat 1 / r.speed) room ⟨0, false⟩ #[] { r with pending := r.pending + dt } := by
  obtain ⟨machine, speed, paused, pending⟩ := r
  cases h
  rfl

end Drain

/-! ## Turns of the loop

In units of the last place of a step, of which a step is between `2 ^ 52` and `2 ^ 53`. -/

section Turns

variable {step : Float} {n : Nat} {f : Int} {room : Nat} {status : Status} {reports : Array Report} {r : Runner Float}

/-- A turn takes out a step but for `2 ^ 31` units, as long as there are no more turns left than can be counted. -/
theorem spend_few (hs : Normal step n f) {k a : Nat} (hk : k < 2 ^ 32) (hle : n ≤ a)
    (hlt : a < (k + 1) * (n - 2 ^ 31)) : rounded (a - n) < k * (n - 2 ^ 31) := by
  obtain ⟨hnlo, hnhi⟩ := hs.bounds
  have hmul : (k + 1) * (n - 2 ^ 31) ≤ 2 ^ 32 * 2 ^ 53 := Nat.mul_le_mul hk (by omega)
  have hround := (rounded_bounds (q := a - n) (j := 32) (by omega)).1
  have hsucc : (k + 1) * (n - 2 ^ 31) = k * (n - 2 ^ 31) + (n - 2 ^ 31) := Nat.add_one_mul k _
  omega

theorem drain_returns_of_few (hs : Normal step n f) (hroom : room < 2 ^ 32)
    (hfew : ¬AtLeast r.pending ((room + 1) * ((1 - 1 / 2 ^ 21) * value step))) :
    (∃ status', (drain step room status reports r).result = .ok status') ∨
      ∃ e, (drain step room status reports r).result = .error (.fault e) := by
  obtain ⟨hnlo, hnhi⟩ := hs.bounds
  apply drain_returns (P := fun k x =>
    step ≤ x → ∃ a, Measures f x a ∧ k < 2 ^ 32 ∧ a < (k + 1) * (n - 2 ^ 31))
  · intro k x hx hle _
    obtain ⟨a, ha, hk, hlt⟩ := hx hle
    have hna : n ≤ a := (hs.le_iff ha).1 hle
    exact ⟨_, hs.sub ha hna, by omega, spend_few hs hk hna hlt⟩
  · intro x hx hle
    obtain ⟨a, ha, -, hlt⟩ := hx hle
    have hna : n ≤ a := (hs.le_iff ha).1 hle
    omega
  · intro hle
    rcases hs.cases_of_le hle with hinf | ⟨a, ha⟩
    · exact absurd (.inl hinf) hfew
    · refine ⟨a, ha, hroom, ?_⟩
      have hunits : ((1 - 1 / 2 ^ 21) * n : ℚ) ≤ (n - 2 ^ 31 : Nat) := by
        have hn : (2 ^ 52 : ℚ) ≤ n := by exact_mod_cast hnlo
        rw [Nat.cast_sub (by omega)]
        push_cast
        linarith
      have hlt : (a * 2 ^ f : ℚ) < (room + 1) * (n - 2 ^ 31 : Nat) * 2 ^ f :=
        calc (a * 2 ^ f : ℚ) < (room + 1) * ((1 - 1 / 2 ^ 21) * value step) := ha.lt_of_not_atLeast hfew
          _ = (room + 1) * ((1 - 1 / 2 ^ 21) * n) * 2 ^ f := by
            rw [hs.value_eq]
            ring
          _ ≤ (room + 1) * (n - 2 ^ 31 : Nat) * 2 ^ f := by
            apply mul_le_mul_of_nonneg_right _ (zpow_pos two_pos f).le
            exact mul_le_mul_of_nonneg_left hunits (Nat.cast_add_one_pos room).le
      exact_mod_cast lt_of_mul_lt_mul_right hlt (zpow_pos two_pos f).le

/-- A turn takes out no more than a step and `2 ^ 32` units, as long as there are no more turns left than can be
counted. -/
theorem spend_many (hs : Normal step n f) {k : Nat} (hk : k < 2 ^ 32) :
    k * (n + 2 ^ 32) ≤ rounded ((k + 1) * (n + 2 ^ 32) - n) := by
  obtain ⟨hnlo, hnhi⟩ := hs.bounds
  obtain ⟨u, hu⟩ : ∃ u, u = n + 2 ^ 32 := ⟨_, rfl⟩
  rw [← hu]
  have hmul : (k + 1) * u ≤ 2 ^ 32 * 2 ^ 54 := Nat.mul_le_mul hk (by omega)
  have hround := (rounded_bounds (q := (k + 1) * u - n) (j := 33) (by omega)).2
  have hsucc : (k + 1) * u = k * u + u := Nat.add_one_mul k u
  omega

theorem drain_overruns_of_many (hs : Normal step n f) (hroom : room < 2 ^ 32)
    (hmany : AtLeast r.pending ((room + 1) * ((1 + 1 / 2 ^ 20) * value step))) :
    (drain step room status reports r).result = .error .overrun ∨
      ∃ e, (drain step room status reports r).result = .error (.fault e) := by
  obtain ⟨hnlo, hnhi⟩ := hs.bounds
  have hholds (k : Nat) : n ≤ (k + 1) * (n + 2 ^ 32) := by
    rw [Nat.add_one_mul k]
    omega
  apply drain_overruns (P := fun k x => k ≤ 2 ^ 32 ∧ Covers f x (k * (n + 2 ^ 32)))
  · rintro k x ⟨hk, hx⟩
    refine ⟨hs.le_of_covers (hx.mono (hholds k)), by omega, ?_⟩
    exact (hs.covers_sub hx (hholds k)).mono (spend_many hs hk)
  · refine ⟨hroom, covers_of_atLeast (hnlo.trans (hholds room)) (hmany.mono ?_)⟩
    have hunits : ((n + 2 ^ 32 : Nat) : ℚ) ≤ (1 + 1 / 2 ^ 20) * n := by
      have hn : (2 ^ 52 : ℚ) ≤ n := by exact_mod_cast hnlo
      push_cast
      linarith
    rw [hs.value_eq, ← mul_assoc, ← mul_assoc, mul_assoc ((room : ℚ) + 1), Nat.cast_mul, Nat.cast_add_one]
    apply mul_le_mul_of_nonneg_right _ (zpow_pos two_pos f).le
    exact mul_le_mul_of_nonneg_left hunits (Nat.cast_add_one_pos room).le

/-- In an account of so many powers of two that are greater than half a step, every turn takes out something. -/
theorem rounded_sub_lt {a j : Nat} (hn : 2 ^ j < 2 * n) (hle : n ≤ a) (hlt : a < 2 ^ 53 * 2 ^ j + n) :
    rounded (a - n) < a := by
  have hround := (rounded_bounds (q := a - n) (j := j) (by rw [Nat.pow_add]; omega)).1
  omega

/-- Such an account is used up in the end. -/
theorem drain_returns_finally (hs : Normal step n f) {j : Nat} (hn : 2 ^ j < 2 * n)
    (hless : ¬AtLeast r.pending (2 ^ 53 * 2 ^ (f + j) + value step)) :
    ∃ room, (∃ status', (drain step room status reports r).result = .ok status') ∨
      ∃ e, (drain step room status reports r).result = .error (.fault e) := by
  by_cases hle : step ≤ r.pending
  · rcases hs.cases_of_le hle with hinf | ⟨a, ha⟩
    · exact absurd (.inl hinf) hless
    have hlt : a < 2 ^ 53 * 2 ^ j + n := by
      rw [hs.value_eq, two_zpow_add, ← mul_assoc, ← add_mul] at hless
      exact_mod_cast lt_of_mul_lt_mul_right (ha.lt_of_not_atLeast hless) (zpow_pos two_pos f).le
    refine ⟨a, drain_returns (P := fun k x => ∃ a, Measures f x a ∧ a ≤ k ∧ a < 2 ^ 53 * 2 ^ j + n) ?_ ?_
      ⟨a, ha, le_rfl, hlt⟩⟩
    · rintro k x ⟨a, ha, hak, hlt⟩ hle
      have hna : n ≤ a := (hs.le_iff ha).1 hle
      have hdown := rounded_sub_lt hn hna hlt
      exact ⟨_, hs.sub ha hna, by omega, hdown.trans hlt⟩
    · rintro x ⟨a, ha, hak, -⟩ hle
      have hna : n ≤ a := (hs.le_iff ha).1 hle
      have hpos := hs.pos
      omega
  · exact ⟨0, drain_returns (P := fun _ x => ¬step ≤ x) (fun _ x hx hle => absurd hle hx) (fun x hx => hx) hle⟩

/-- Four more of these powers, and no turn takes out anything. -/
theorem drain_never_returns (hs : Normal step n f) {j : Nat} (hn : n ≤ 2 ^ j)
    (hmore : AtLeast r.pending ((2 ^ 53 + 4) * 2 ^ (f + j))) (room : Nat) :
    (drain step room status reports r).result = .error .overrun ∨
      ∃ e, (drain step room status reports r).result = .error (.fault e) := by
  obtain ⟨hnlo, hnhi⟩ := hs.bounds
  have hholds : n ≤ (2 ^ 53 + 4) * 2 ^ j := by omega
  apply drain_overruns (P := fun _ x => Covers f x ((2 ^ 53 + 4) * 2 ^ j))
  · intro k x hx
    exact ⟨hs.le_of_covers (hx.mono hholds), (hs.covers_sub hx hholds).mono (le_rounded_sub hn)⟩
  · apply covers_of_atLeast (hnlo.trans hholds)
    rw [two_zpow_add, ← mul_assoc] at hmore
    exact_mod_cast hmore

end Turns

/-! ## Whole updates -/

variable {r : Runner Float}

/-- Every runner takes steps with full mantissas out of its account. -/
theorem Reachable.normal_step (hr : r.Reachable) : ∃ n f, Normal (1 / r.speed) n f := by
  obtain ⟨wish, hwish⟩ := hr.speed_eq_clamp
  have husable : Speed.Usable r.speed := by
    rw [hwish]
    exact Speed.usable_clamp wish
  have hs : Full (-45) (-40) r.speed.toModel.unpack :=
    full_of_le Speed.full_least Speed.full_greatest (by decide) husable.least_le husable.le_greatest
  obtain ⟨n, f, hn, hunpack, hlog, hlo, -⟩ := Speed.full_one.div hs (by decide) (by decide)
  exact ⟨n, f, hn, hunpack, hlog, by omega⟩

theorem maxCycles_add_one : (maxCycles + 1 : ℚ) = 2 ^ 32 := by norm_num [maxCycles, UInt32.size]

/-- An update counts the cycles that it runs. It comes back with the count, or with the fault of a cycle, if its account
holds fewer than `2 ^ 32 - 2 ^ 11` steps. From `2 ^ 32 + 2 ^ 12` steps on it runs more cycles than it can count. Its
loop would come to an end without the count, if its account holds less than a step more than `2 ^ 53` times the power of
two that is next to a step. From `2 ^ 53 + 4` times this power on it never does, unless a cycle faults. -/
theorem update_comes_back (hr : r.Reachable) (hrun : r.paused = false) (dt : Float) :
    let step := 1 / r.speed
    let account := r.pending + dt
    (∀ status, (r.update dt).result = .ok status →
        ∃ os, r.machine.Cycles os (r.update dt).runner.machine ∧ status.cycles = os.length ∧ os.length < 2 ^ 32) ∧
      (¬AtLeast account ((2 ^ 32 - 2 ^ 11) * value step) →
        (∃ status, (r.update dt).result = .ok status) ∨ ∃ e, (r.update dt).result = .error (.fault e)) ∧
      (AtLeast account ((2 ^ 32 + 2 ^ 12) * value step) →
        (r.update dt).result = .error .overrun ∨ ∃ e, (r.update dt).result = .error (.fault e)) ∧
      ∃ p : Int, value step ≤ 2 ^ p ∧ 2 ^ p < 2 * value step ∧
        (¬AtLeast account (2 ^ 53 * 2 ^ p + value step) → ∃ room,
          (∃ status, (r.updateWithin room dt).result = .ok status) ∨
            ∃ e, (r.updateWithin room dt).result = .error (.fault e)) ∧
        (AtLeast account ((2 ^ 53 + 4) * 2 ^ p) → ∀ room,
          (r.updateWithin room dt).result = .error .overrun ∨
            ∃ e, (r.updateWithin room dt).result = .error (.fault e)) := by
  intro step account
  obtain ⟨n, f, hs⟩ := hr.normal_step
  obtain ⟨j, hlo, hhi, hstep, hpower⟩ := hs.exists_power
  have hupdate (room : Nat) : r.updateWithin room dt =
      drain step room ⟨0, false⟩ #[] { r with pending := account } := updateWithin_of_running hrun
  refine ⟨?_, ?_, ?_, f + j, hstep, hpower, ?_, ?_⟩
  · intro status hok
    obtain ⟨os, hcycles, hcount, -⟩ := update_ok hok
    rw [update, hupdate] at hok
    have hle := drain_cycles_le hok
    rw [hcount, Nat.zero_add] at hle
    exact ⟨os, hcycles, hcount, Nat.lt_succ_of_le hle⟩
  · intro hfew
    have heq : ((2 ^ 32 - 2 ^ 11) * value step : ℚ) = (maxCycles + 1) * ((1 - 1 / 2 ^ 21) * value step) := by
      rw [maxCycles_add_one]
      ring
    rw [heq] at hfew
    rw [update, hupdate]
    apply drain_returns_of_few hs (by decide)
    exact hfew
  · intro hmany
    have heq : ((2 ^ 32 + 2 ^ 12) * value step : ℚ) = (maxCycles + 1) * ((1 + 1 / 2 ^ 20) * value step) := by
      rw [maxCycles_add_one]
      ring
    rw [heq] at hmany
    rw [update, hupdate]
    apply drain_overruns_of_many hs (by decide)
    exact hmany
  · intro hless
    simp only [hupdate]
    exact drain_returns_finally hs hhi hless
  · intro hmore room
    rw [hupdate]
    apply drain_never_returns hs hlo
    exact hmore

/-- A runner of a program that is a single jump, to itself. -/
def looping : Runner Float := ((Runner.new (Machine.withSeed 7) 400).loadRom [0x12, 0x00]).runner

theorem looping_reachable : looping.Reachable := (Reachable.new _ _).after (.loadRom _)

theorem looping_ne_fault (dt : Float) (room : Nat) :
    ¬∃ e, (looping.updateWithin room dt).result = .error (.fault e) := by
  have hop : looping.machine.nextOpcode = .jump 0x200 := Machine.nextOpcode_load (by decide) rfl
  have hloops : looping.machine.Looping := ⟨by decide, 0x200, hop, rfl⟩
  rw [updateWithin_of_running rfl]
  rintro ⟨e, he⟩
  obtain ⟨os, m, hcycles, hfault, -⟩ := drain_fault he
  rw [(hloops.cycles hcycles).cycle.1] at hfault
  cases hfault

theorem looping_step : Normal (1 / looping.speed) 5764607523034235 (-61) := by
  have hstep : 1 / looping.speed = 0.0025 := by decide +kernel
  rw [hstep]
  exact ⟨by decide, rfl, by decide, by decide⟩

theorem looping_account_short :
    (looping.pending + 0.01).toModel.unpack = .finite .positive 5764607523034235 (-59) (by decide) := by
  have haccount : looping.pending + 0.01 = 0.01 := by decide +kernel
  rw [haccount]
  rfl

theorem looping_account_long :
    (looping.pending + 16777216).toModel.unpack = .finite .positive (2 ^ 52) (-28) (by decide) := by
  have haccount : looping.pending + 16777216 = 16777216 := by decide +kernel
  rw [haccount]
  rfl

theorem looping_account_longer :
    (looping.pending + 140737488355328).toModel.unpack = .finite .positive (2 ^ 52) (-5) (by decide) := by
  have haccount : looping.pending + 140737488355328 = 140737488355328 := by decide +kernel
  rw [haccount]
  rfl

/-- A jump to itself, for ten milliseconds and for four million years. -/
theorem update_comes_back_looping :
    looping.Reachable ∧ looping.paused = false ∧ (∃ status, (looping.update 0.01).result = .ok status) ∧
      ∀ room, (looping.updateWithin room 140737488355328).result = .error .overrun := by
  obtain ⟨-, hshort, -⟩ := update_comes_back looping_reachable rfl 0.01
  obtain ⟨-, -, -, p, -, hpower, -, hlonger⟩ := update_comes_back looping_reachable rfl 140737488355328
  rw [atLeast_iff_of_unpack looping_account_short, looping_step.value_eq] at hshort
  rw [atLeast_iff_of_unpack looping_account_longer] at hlonger
  rw [looping_step.value_eq] at hpower
  refine ⟨looping_reachable, rfl, ?_, ?_⟩
  · exact (hshort (by norm_num)).resolve_right (looping_ne_fault 0.01 maxCycles)
  · intro room
    have hmore : ((2 ^ 53 + 4) * 2 ^ p : ℚ) ≤ (2 ^ 52 : Nat) * 2 ^ (-5 : Int) := by
      norm_num at hpower ⊢
      linarith
    exact (hlonger hmore room).resolve_right (looping_ne_fault _ room)

/-- A turn of the loop takes nothing out of `2 ^ 47` seconds. In the end the turns take out `2 ^ 24` seconds, but there
are more of them than an update can count. -/
theorem looping_never_comes_back :
    looping.Reachable ∧ looping.paused = false ∧
      (Float.isFinite 140737488355328 = true ∧ (0 : Float) ≤ 140737488355328 ∧
        ∀ room, (looping.updateWithin room 140737488355328).result = .error .overrun) ∧
      Float.isFinite 16777216 = true ∧ (0 : Float) ≤ 16777216 ∧
        (looping.update 16777216).result = .error .overrun ∧
        ∃ room status, (looping.updateWithin room 16777216).result = .ok status := by
  have hupdate (room : Nat) (dt : Float) : looping.updateWithin room dt =
      drain (1 / looping.speed) room ⟨0, false⟩ #[] { looping with pending := looping.pending + dt } :=
    updateWithin_of_running rfl
  have hnever (room : Nat) : (looping.updateWithin room 140737488355328).result = .error .overrun ∨
      ∃ e, (looping.updateWithin room 140737488355328).result = .error (.fault e) := by
    rw [hupdate]
    apply drain_never_returns looping_step (j := 53) (by decide)
    rw [atLeast_iff_of_unpack looping_account_longer]
    norm_num
  have hmany : (looping.updateWithin maxCycles 16777216).result = .error .overrun ∨
      ∃ e, (looping.updateWithin maxCycles 16777216).result = .error (.fault e) := by
    rw [hupdate]
    apply drain_overruns_of_many looping_step (by decide)
    rw [atLeast_iff_of_unpack looping_account_long, maxCycles_add_one, looping_step.value_eq]
    norm_num
  have hfinally : ∃ room, (∃ status, (looping.updateWithin room 16777216).result = .ok status) ∨
      ∃ e, (looping.updateWithin room 16777216).result = .error (.fault e) := by
    simp only [hupdate]
    apply drain_returns_finally looping_step (j := 53) (by decide)
    rw [atLeast_iff_of_unpack looping_account_long, looping_step.value_eq]
    norm_num
  obtain ⟨room, hroom⟩ := hfinally
  refine ⟨looping_reachable, rfl, ⟨by decide +kernel, by decide +kernel, ?_⟩, by decide +kernel, by decide +kernel,
    hmany.resolve_right (looping_ne_fault _ maxCycles), room, hroom.resolve_right (looping_ne_fault _ room)⟩
  intro room
  exact (hnever room).resolve_right (looping_ne_fault _ room)

end Runner

end Chip8
