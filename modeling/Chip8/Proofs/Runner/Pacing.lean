import Mathlib
import Chip8.Proofs.Runner.Slicing

/-!
# Pacing

Over exact numbers, updates lose no time and invent none. What the loop of one update subtracts step by step is
the time of all the cycles that the account pays for (`drain_exact`), so an update runs as many cycles as whole
steps fit into the account and leaves the remainder (`updateWithin_exact`). Along a list of updates the remainders
add up (`updatesWithin_exact`): the number of cycles depends on the time that has passed and not on how it was cut.

How many cycles an update may count is a parameter here. `Runner.update` has room for `maxCycles`, and with that much
room these updates are those of `Runner.Updates` (`updates_of_updatesWithin`).
-/

namespace Chip8

/-- Exact numbers, to which the rounding of a clock is compared. -/
instance : ClockNumber ℚ where
  ofNat n := n
  isNaN _ := false
  text q := toString q

theorem Speed.clamp_pos (v : ℚ) : 0 < Speed.clamp v := by
  have hleast : Speed.least ℚ = 200 := rfl
  have hgreatest : Speed.greatest ℚ = 5000 := rfl
  have hnumber : ClockNumber.isNaN v = false := rfl
  unfold Speed.clamp
  rw [hnumber, hleast, hgreatest, if_neg Bool.false_ne_true]
  split
  · norm_num
  · split
    · norm_num
    · linarith

namespace Runner

section Updates

variable {τ : Type} [ClockNumber τ] [Add τ] [Sub τ] [Div τ] [LE τ] [DecidableLE τ]

/-- Updates one after the other, up to the first that does not come to its end: the number of cycles that they
ran, and the runner behind them. -/
def updatesWithin (room : Nat) (r : Runner τ) : List τ → Except Stop (Nat × Runner τ)
  | [] => .ok (0, r)
  | dt :: dts =>
    match r.updateWithin room dt with
    | ⟨.error stop, _, _⟩ => .error stop
    | ⟨.ok status, after, _⟩ => (after.updatesWithin room dts).map fun total => (status.cycles + total.1, total.2)

/-- With the room that an update has, they are updates that come to their end one after the other. -/
theorem updates_of_updatesWithin {r last : Runner τ} {dts : List τ} {n : Nat}
    (h : r.updatesWithin maxCycles dts = .ok (n, last)) :
    ∃ statuses, r.Updates dts statuses last ∧ totalCycles statuses = n := by
  induction dts generalizing r n with
  | nil =>
    cases h
    exact ⟨[], .none _, rfl⟩
  | cons dt dts ih =>
    rw [updatesWithin] at h
    cases hfirst : r.updateWithin maxCycles dt with
    | mk result after reports =>
      have hupdate : r.update dt = ⟨result, after, reports⟩ := hfirst
      rw [hfirst] at h
      cases result with
      | error stop => cases h
      | ok status =>
        simp only at h
        cases hrest : after.updatesWithin maxCycles dts with
        | error stop =>
          rw [hrest] at h
          cases h
        | ok total =>
          rw [hrest] at h
          cases h
          obtain ⟨statuses, hupdates, htotal⟩ := ih hrest
          refine ⟨status :: statuses, .more (by rw [hupdate]) (by rw [hupdate]; exact hupdates), ?_⟩
          rw [totalCycles, htotal]

end Updates

/-! ## Whole steps and the remainder -/

section Floor

variable {s p : ℚ}

/-- As many steps as fit, and no more. -/
theorem floor_bounds (hs : 0 < s) (hp : 0 ≤ p) :
    (⌊s * p⌋₊ : ℚ) / s ≤ p ∧ p < (⌊s * p⌋₊ + 1 : ℚ) / s := by
  have hlo := Nat.floor_le (mul_nonneg hs.le hp)
  have hhi := Nat.lt_floor_add_one (s * p)
  constructor
  · rw [div_le_iff₀ hs, mul_comm p]
    exact hlo
  · rw [lt_div_iff₀ hs, mul_comm p]
    exact hhi

theorem floor_eq_zero (hs : 0 < s) (hp : p < 1 / s) : ⌊s * p⌋₊ = 0 := by
  rw [Nat.floor_eq_zero, mul_comm]
  exact (lt_div_iff₀ hs).1 hp

/-- The steps that fit into some time are those that fit into its first part and those that fit into what is then
left of the whole. -/
theorem floor_split {rest : ℚ} (hs : 0 < s) (hrest : 0 ≤ rest) :
    ⌊s * p⌋₊ + ⌊s * (p - ⌊s * p⌋₊ / s + rest)⌋₊ = ⌊s * (p + rest)⌋₊ := by
  have hle : ⌊s * p⌋₊ ≤ ⌊s * (p + rest)⌋₊ := by
    apply Nat.floor_mono
    apply mul_le_mul_of_nonneg_left _ hs.le
    linarith
  have hleft : s * (p - ⌊s * p⌋₊ / s + rest) = s * (p + rest) - ⌊s * p⌋₊ := by
    field_simp
    ring
  rw [hleft, Nat.floor_sub_natCast]
  omega

end Floor

/-! ## The loop -/

/-- If as many cycles succeed as whole steps fit into the account, a drain runs just these and leaves the
remainder. -/
theorem drain_exact {step : ℚ} {m m' : Machine} {os : List Outcome} (hstep : 0 < step)
    (hcycles : m.Cycles os m') (speed : ℚ) (paused : Bool) {pending : ℚ} {room : Nat} (status : Status)
    (reports : Array Report) (hroom : os.length ≤ room) (hlo : os.length * step ≤ pending)
    (hhi : pending < (os.length + 1) * step) :
    ∃ drawn new, drain step room status reports ⟨m, speed, paused, pending⟩ =
      ⟨.ok ⟨status.cycles + os.length, drawn⟩, ⟨m', speed, paused, pending - os.length * step⟩, new⟩ := by
  induction hcycles generalizing room status reports pending with
  | none m =>
    have hless : ¬step ≤ pending := by
      simp only [List.length_nil, Nat.cast_zero, zero_add, one_mul] at hhi
      exact not_le.2 hhi
    refine ⟨status.displayUpdated, reports, ?_⟩
    rw [drain, if_neg hless]
    simp
  | @more m m' o os hc rest ih =>
    simp only [List.length_cons, Nat.cast_add, Nat.cast_one] at hlo hhi
    have hnonneg : 0 ≤ os.length * step := mul_nonneg (Nat.cast_nonneg _) hstep.le
    have hpays : step ≤ pending := by linarith
    obtain ⟨room, rfl⟩ : ∃ k, room = k + 1 := Nat.exists_eq_succ_of_ne_zero (by simp at hroom; omega)
    rw [drain, if_pos hpays]
    cases hcycle : m.cycle with
    | mk result after new =>
      rw [hcycle] at hc ih
      cases hc
      simp only
      have hlo' : os.length * step ≤ pending - step := by linarith
      have hhi' : pending - step < (os.length + 1) * step := by linarith
      obtain ⟨drawn, new', hrest⟩ := ih ⟨status.cycles + 1, status.displayUpdated || o = .displayUpdated⟩
        (reports ++ new) (Nat.le_of_succ_le_succ hroom) hlo' hhi'
      refine ⟨drawn, new', ?_⟩
      have hcount : status.cycles + 1 + os.length = status.cycles + (os.length + 1) := by omega
      have hleft : pending - step - os.length * step = pending - (os.length + 1) * step := by ring
      rw [hrest, hcount, hleft]
      simp only [List.length_cons, Nat.cast_add, Nat.cast_one]

/-! ## Updates -/

variable {r : Runner ℚ} {room : Nat} {os : List Outcome} {m : Machine}

/-- An update runs as many cycles as whole steps fit into the account, and leaves the remainder. -/
theorem updateWithin_exact {dt : ℚ} (hspeed : 0 < r.speed) (hrunning : r.paused = false)
    (hpending : 0 ≤ r.pending + dt) (hroom : os.length ≤ room) (hcycles : r.machine.Cycles os m)
    (hlen : os.length = ⌊r.speed * (r.pending + dt)⌋₊) :
    ∃ drawn new, r.updateWithin room dt =
      ⟨.ok ⟨os.length, drawn⟩,
        { r with machine := m, pending := r.pending + dt - os.length / r.speed }, new⟩ := by
  obtain ⟨machine, speed, paused, pending⟩ := r
  cases hrunning
  simp only at hspeed hpending hlen ⊢
  have hone : (ClockNumber.ofNat 1 : ℚ) = 1 := Nat.cast_one
  obtain ⟨hlo, hhi⟩ := floor_bounds hspeed hpending
  rw [← hlen, ← mul_one_div] at hlo hhi
  obtain ⟨drawn, new, hdrain⟩ :=
    drain_exact (one_div_pos.2 hspeed) hcycles speed false ⟨0, false⟩ #[] hroom hlo hhi
  refine ⟨drawn, new, ?_⟩
  rw [updateWithin, hone, hdrain, Nat.zero_add, mul_one_div]

/-- Updates run as many cycles as whole steps fit into the account and all the time that passes, and leave the
remainder. -/
theorem updatesWithin_exact {dts : List ℚ} (hspeed : 0 < r.speed) (hrunning : r.paused = false)
    (hpending : 0 ≤ r.pending) (hsmall : r.pending < 1 / r.speed) (hdts : ∀ dt ∈ dts, 0 ≤ dt)
    (hroom : ∀ dt ∈ dts, r.speed * dt ≤ room) (hcycles : r.machine.Cycles os m)
    (hlen : os.length = ⌊r.speed * (r.pending + dts.sum)⌋₊) :
    r.updatesWithin room dts =
      .ok (os.length, { r with machine := m, pending := r.pending + dts.sum - os.length / r.speed }) := by
  induction dts generalizing r os with
  | nil =>
    rw [List.sum_nil, add_zero, floor_eq_zero hspeed hsmall] at hlen
    cases List.length_eq_zero_iff.1 hlen
    cases hcycles
    simp [updatesWithin]
  | cons dt dts ih =>
    obtain ⟨hdt, hdts⟩ := List.forall_mem_cons.1 hdts
    obtain ⟨hroom', hroom⟩ := List.forall_mem_cons.1 hroom
    have hsum : 0 ≤ dts.sum := List.sum_nonneg hdts
    have hpaid : 0 ≤ r.pending + dt := by linarith
    -- the cycles of the first update, and those of the others
    rw [List.sum_cons, ← add_assoc] at hlen ⊢
    have hparts := floor_split (p := r.pending + dt) hspeed hsum
    rw [← hlen] at hparts
    obtain ⟨os₁, os₂, m₁, h₁, h₂, hlen₁, hlens⟩ := hcycles.split (Nat.le.intro hparts)
    have hroom₁ : os₁.length ≤ room := by
      rw [hlen₁, ← Nat.lt_succ_iff, Nat.floor_lt (mul_nonneg hspeed.le hpaid), mul_add]
      have hone : r.speed * r.pending < 1 := by
        rw [mul_comm]
        exact (lt_div_iff₀ hspeed).1 hsmall
      push_cast
      linarith
    obtain ⟨drawn, new, hfirst⟩ := updateWithin_exact hspeed hrunning hpaid hroom₁ h₁ hlen₁
    obtain ⟨hlo, hhi⟩ := floor_bounds hspeed hpaid
    rw [← hlen₁] at hlo hhi hparts
    have hlen₂ : os₂.length = ⌊r.speed * (r.pending + dt - os₁.length / r.speed + dts.sum)⌋₊ := by omega
    have hleft : r.pending + dt - os₁.length / r.speed < 1 / r.speed := by
      rw [add_div] at hhi
      linarith
    have hrest := ih (r := { r with machine := m₁, pending := r.pending + dt - os₁.length / r.speed }) hspeed
      hrunning (sub_nonneg.2 hlo) hleft hdts hroom h₂ hlen₂
    have htotal : (os.length : ℚ) = os₁.length + os₂.length := by
      rw [← hlens]
      push_cast
      rfl
    rw [updatesWithin, hfirst]
    simp only [hrest, Except.map, hlens]
    congr 3
    rw [htotal, add_div]
    ring

/-- A change of the speed keeps the account, and whatever it holds, the next update leaves less in it than a cycle
takes at the new speed. -/
theorem setSpeed_updateWithin (v : ℚ) {dt : ℚ} (hrunning : r.paused = false) (hpending : 0 ≤ r.pending)
    (hdt : 0 ≤ dt) (hroom : Speed.clamp v * (r.pending + dt) ≤ room) (hcycles : r.machine.Cycles os m)
    (hlen : os.length = ⌊Speed.clamp v * (r.pending + dt)⌋₊) :
    ∃ drawn new, (r.setSpeed v).1.updateWithin room dt =
        ⟨.ok ⟨os.length, drawn⟩,
          { r with
            machine := m
            speed := Speed.clamp v
            pending := r.pending + dt - os.length / Speed.clamp v }, new⟩ ∧
      0 ≤ r.pending + dt - os.length / Speed.clamp v ∧
      r.pending + dt - os.length / Speed.clamp v < 1 / Speed.clamp v := by
  have hspeed := Speed.clamp_pos v
  have hpaid : 0 ≤ r.pending + dt := add_nonneg hpending hdt
  have hcount : os.length ≤ room := by
    rw [hlen]
    exact Nat.floor_le_of_le hroom
  obtain ⟨hlo, hhi⟩ := floor_bounds hspeed hpaid
  rw [← hlen] at hlo hhi
  rw [add_div] at hhi
  obtain ⟨drawn, new, hupdate⟩ :=
    updateWithin_exact (r := (r.setSpeed v).1) hspeed hrunning hpaid hcount hcycles hlen
  exact ⟨drawn, new, hupdate, sub_nonneg.2 hlo, by linarith⟩

/-- Exact time, cut into updates in any way: a runner that goes on with less than the time of a cycle in its account
runs exactly the cycles that the account and all the time pay for, as long as none of them faults and each update has
room to count them. After each of the updates the account holds the time that has passed less that of the cycles so
far, and never that of a whole cycle. So it makes no difference how the time is cut. A change of the speed loses
nothing either: the account stays, and the next update brings it below the time of a cycle at the new speed. -/
theorem updates_keep_time {dts : List ℚ} (hspeed : 0 < r.speed) (hrunning : r.paused = false)
    (hpending : 0 ≤ r.pending ∧ r.pending < 1 / r.speed) (hdts : ∀ dt ∈ dts, 0 ≤ dt)
    (hroom : ∀ dt ∈ dts, r.speed * dt ≤ room) (hcycles : r.machine.Cycles os m)
    (hlen : os.length = ⌊r.speed * (r.pending + dts.sum)⌋₊) :
    (∃ last, r.updatesWithin room dts = .ok (⌊r.speed * (r.pending + dts.sum)⌋₊, last) ∧ last.machine = m ∧
        (room = maxCycles → ∃ statuses, r.Updates dts statuses last ∧
          totalCycles statuses = ⌊r.speed * (r.pending + dts.sum)⌋₊)) ∧
      (∀ before after, dts = before ++ after → ∃ n last, r.updatesWithin room before = .ok (n, last) ∧
        n = ⌊r.speed * (r.pending + before.sum)⌋₊ ∧ last.speed = r.speed ∧ last.paused = false ∧
        last.pending = r.pending + before.sum - n / r.speed ∧ 0 ≤ last.pending ∧ last.pending < 1 / r.speed) ∧
      (∀ dts' room', (∀ dt ∈ dts', 0 ≤ dt) → (∀ dt ∈ dts', r.speed * dt ≤ (room' : Nat)) → dts'.sum = dts.sum →
        r.updatesWithin room' dts' = r.updatesWithin room dts) ∧
      ∀ v, (r.setSpeed v).1.pending = r.pending ∧
        ∀ dt os' m' room', 0 ≤ dt → Speed.clamp v * (r.pending + dt) ≤ (room' : Nat) →
          r.machine.Cycles os' m' → os'.length = ⌊Speed.clamp v * (r.pending + dt)⌋₊ →
            ∃ status last new, (r.setSpeed v).1.updateWithin room' dt = ⟨.ok status, last, new⟩ ∧
              status.cycles = os'.length ∧ last.machine = m' ∧
              last.pending = r.pending + dt - status.cycles / Speed.clamp v ∧
              0 ≤ last.pending ∧ last.pending < 1 / Speed.clamp v := by
  obtain ⟨hnonneg, hsmall⟩ := hpending
  have hall := updatesWithin_exact hspeed hrunning hnonneg hsmall hdts hroom hcycles hlen
  refine ⟨?_, ?_, ?_, ?_⟩
  · rw [← hlen]
    refine ⟨_, hall, rfl, ?_⟩
    rintro rfl
    exact updates_of_updatesWithin hall
  · rintro before after rfl
    obtain ⟨hbefore, hafter⟩ := List.forall_mem_append.1 hdts
    have hsum : 0 ≤ before.sum := List.sum_nonneg hbefore
    have hpaid : 0 ≤ r.pending + before.sum := add_nonneg hnonneg hsum
    have hfirst : ⌊r.speed * (r.pending + before.sum)⌋₊ ≤ os.length := by
      rw [hlen, List.sum_append]
      apply Nat.floor_mono
      apply mul_le_mul_of_nonneg_left _ hspeed.le
      linarith [List.sum_nonneg hafter]
    obtain ⟨os₁, -, m₁, h₁, -, hlen₁, -⟩ := hcycles.split hfirst
    have hexact := updatesWithin_exact hspeed hrunning hnonneg hsmall hbefore
      (List.forall_mem_append.1 hroom).1 h₁ hlen₁
    obtain ⟨hlo, hhi⟩ := floor_bounds hspeed hpaid
    rw [← hlen₁] at hlo hhi
    rw [add_div] at hhi
    exact ⟨_, _, hexact, hlen₁, rfl, hrunning, rfl, sub_nonneg.2 hlo, by simp only; linarith⟩
  · intro dts' room' hdts' hroom' hsum
    rw [hall, ← hsum]
    rw [← hsum] at hlen
    exact updatesWithin_exact hspeed hrunning hnonneg hsmall hdts' hroom' hcycles hlen
  · intro v
    refine ⟨rfl, ?_⟩
    intro dt os' m' room' hdt hroom' hcycles' hlen'
    obtain ⟨drawn, new, hupdate, hlo, hhi⟩ :=
      setSpeed_updateWithin v hrunning hnonneg hdt hroom' hcycles' hlen'
    exact ⟨_, _, new, hupdate, rfl, rfl, rfl, hlo, hhi⟩

/-- A runner whose program jumps to itself. -/
def idling : Runner ℚ := ((Runner.new (Machine.withSeed 1) 400).loadRom [0x12, 0x00]).runner

/-- Two cycles run in the second and the third of three updates, as they would in one, and a fifth of the time of
another is left. -/
theorem updates_keep_time_idling :
    ∃ statuses last, idling.Updates [1 / 1000, 1 / 500, 1 / 400] statuses last ∧ totalCycles statuses = 2 ∧
      last.pending = 1 / 2000 ∧ idling.updatesWithin maxCycles [11 / 2000] = .ok (2, last) := by
  have hspeed : idling.speed = 400 := by decide +kernel
  have hrunning : idling.paused = false := rfl
  have hpending : idling.pending = 0 := rfl
  have hfirst : idling.machine.cycle.result = .ok .proceed := by decide +kernel
  have hsecond : idling.machine.cycle.machine.cycle.result = .ok .proceed := by decide +kernel
  have hcount : ⌊idling.speed * (idling.pending + [1 / 1000, 1 / 500, 1 / 400].sum)⌋₊ = 2 := by
    rw [hspeed, hpending, Nat.floor_eq_iff (by norm_num)]
    norm_num
  have hdts : ∀ dt ∈ [1 / 1000, 1 / 500, (1 / 400 : ℚ)], 0 ≤ dt := by norm_num
  have hroom : ∀ dt ∈ [1 / 1000, 1 / 500, (1 / 400 : ℚ)], idling.speed * dt ≤ (maxCycles : Nat) := by
    rw [hspeed]
    norm_num [maxCycles, UInt32.size]
  obtain ⟨⟨last, hlast, -, hupdates⟩, hsplits, hcuts, -⟩ := updates_keep_time (by rw [hspeed]; norm_num) hrunning
    (by rw [hspeed, hpending]; norm_num) hdts hroom (.more hfirst (.more hsecond (.none _))) hcount.symm
  obtain ⟨statuses, hrun, htotal⟩ := hupdates rfl
  rw [hcount] at hlast htotal
  refine ⟨statuses, last, hrun, htotal, ?_, ?_⟩
  · obtain ⟨n, last', hall, -, -, -, hleft, -⟩ := hsplits _ [] (List.append_nil _).symm
    obtain ⟨rfl, rfl⟩ := Prod.mk.inj (Except.ok.inj (hlast.symm.trans hall))
    rw [hleft, hspeed, hpending]
    norm_num
  · have hcut := hcuts [11 / 2000] maxCycles (by norm_num)
      (by rw [hspeed]; norm_num [maxCycles, UInt32.size]) (by norm_num)
    exact hcut.trans hlast

end Runner

end Chip8
