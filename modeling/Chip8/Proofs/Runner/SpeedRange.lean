import Chip8.Proofs.Host.Request
import Chip8.Proofs.Runner.Binary64

/-!
# The range of speeds

Every way in which a runner gets a speed goes through `Speed.clamp` (`Reachable.speed_eq_clamp`). On the numbers
this is the nearest point of a range (`rank_clamp`), and what is no number becomes a number in the range. So a runner
always has a speed that paces it (`Speed.Usable`), whatever was asked for, and clamping it once more does nothing.
-/

namespace Chip8

namespace Speed

open Binary64

/-- A speed in range, at which a cycle takes a positive and finite time. -/
structure Usable (s : Float) : Prop where
  isNumber : s.isNaN = false
  least_le : 200 ≤ s
  le_greatest : s ≤ 5000
  pos : 0 < s
  step_pos : 0 < 1 / s
  step_finite : (1 / s).isFinite = true

theorem full_least : Full (-45) (-45) (200 : Float).toModel.unpack :=
  ⟨200 * 2 ^ 45, -45, by decide, rfl, by decide, by decide, by decide⟩

theorem full_greatest : Full (-40) (-40) (5000 : Float).toModel.unpack :=
  ⟨5000 * 2 ^ 40, -40, by decide, rfl, by decide, by decide, by decide⟩

theorem full_one : Full (-52) (-52) (1 : Float).toModel.unpack :=
  ⟨2 ^ 52, -52, by decide, rfl, by decide, by decide, by decide⟩

/-- The bounds are all that is needed: between them a speed has a full mantissa, and so has its inverse. -/
theorem usable_of_le {s : Float} (hlo : 200 ≤ s) (hhi : s ≤ 5000) : Usable s := by
  have hs : Full (-45) (-40) s.toModel.unpack := full_of_le full_least full_greatest (by decide) hlo hhi
  have hstep := full_one.div hs (by decide) (by decide)
  exact ⟨hs.isNaN, hlo, hhi, hs.pos, hstep.pos, hstep.isFinite⟩

variable {s : Float}

theorem clamp_of_isNaN (h : s.isNaN = true) : clamp s = 400 := if_pos h

theorem clamp_of_isNumber (h : s.isNaN = false) :
    clamp s = if s < 200 then 200 else if 5000 < s then 5000 else s :=
  if_neg (Bool.eq_false_iff.1 h)

theorem isNaN_clamp (s : Float) : (clamp s).isNaN = false := by
  cases hs : s.isNaN with
  | true =>
    rw [clamp_of_isNaN hs]
    decide +kernel
  | false =>
    rw [clamp_of_isNumber hs]
    split
    · decide +kernel
    · split
      · decide +kernel
      · exact hs

theorem rank_least_le_greatest : rank 200 ≤ rank 5000 := (le_iff.1 (by decide +kernel)).2.2

/-- Clamping goes to the nearest place in the range. -/
theorem rank_clamp (hs : s.isNaN = false) : rank (clamp s) = max (rank 200) (min (rank s) (rank 5000)) := by
  have hleast : Float.isNaN 200 = false := by decide +kernel
  have hgreatest : Float.isNaN 5000 = false := by decide +kernel
  rw [clamp_of_isNumber hs]
  split
  · rename_i hlow
    have hbelow := (lt_iff.1 hlow).2.2
    rw [max_eq_left ((min_le_left _ _).trans hbelow.le)]
  · rename_i hlow
    have hleast : rank 200 ≤ rank s := not_lt.1 fun h => hlow (lt_iff.2 ⟨hs, hleast, h⟩)
    split
    · rename_i hhigh
      have habove := (lt_iff.1 hhigh).2.2
      rw [min_eq_right habove.le, max_eq_right rank_least_le_greatest]
    · rename_i hhigh
      have hgreatest : rank s ≤ rank 5000 := not_lt.1 fun h => hhigh (lt_iff.2 ⟨hgreatest, hs, h⟩)
      rw [min_eq_left hgreatest, max_eq_right hleast]

theorem least_le_clamp (s : Float) : 200 ≤ clamp s := by
  cases hs : s.isNaN with
  | true =>
    rw [clamp_of_isNaN hs]
    decide +kernel
  | false =>
    refine le_iff.2 ⟨by decide +kernel, isNaN_clamp s, ?_⟩
    rw [rank_clamp hs]
    exact le_max_left _ _

theorem clamp_le_greatest (s : Float) : clamp s ≤ 5000 := by
  cases hs : s.isNaN with
  | true =>
    rw [clamp_of_isNaN hs]
    decide +kernel
  | false =>
    refine le_iff.2 ⟨isNaN_clamp s, by decide +kernel, ?_⟩
    rw [rank_clamp hs]
    exact max_le rank_least_le_greatest (min_le_right _ _)

theorem usable_clamp (s : Float) : Usable (clamp s) := usable_of_le (least_le_clamp s) (clamp_le_greatest s)

theorem clamp_of_usable (h : Usable s) : clamp s = s := by
  have hlow : ¬s < 200 := fun hlt => absurd (le_iff.1 h.least_le).2.2 (not_le.2 (lt_iff.1 hlt).2.2)
  have hhigh : ¬5000 < s := fun hlt => absurd (le_iff.1 h.le_greatest).2.2 (not_le.2 (lt_iff.1 hlt).2.2)
  rw [clamp_of_isNumber h.isNumber, if_neg hlow, if_neg hhigh]

theorem clamp_mono {a b : Float} (h : a ≤ b) : clamp a ≤ clamp b := by
  obtain ⟨ha, hb, hrank⟩ := le_iff.1 h
  refine le_iff.2 ⟨isNaN_clamp a, isNaN_clamp b, ?_⟩
  rw [rank_clamp ha, rank_clamp hb]
  exact max_le_max le_rfl (min_le_min hrank le_rfl)

end Speed

namespace Runner

section Reachable

variable {τ : Type} [ClockNumber τ] [Add τ] [Sub τ] [Div τ] [LT τ] [DecidableLT τ] [LE τ] [DecidableLE τ]

/-- Whatever a runner has been through, its speed is one that was asked for, clamped. -/
theorem Reachable.speed_eq_clamp {r : Runner τ} (h : r.Reachable) : ∃ wish, r.speed = Speed.clamp wish := by
  induction h with
  | new machine speed => exact ⟨speed, rfl⟩
  | @after r _ q ih =>
    cases q with
    | update dt =>
      show ∃ wish, (r.update dt).runner.speed = Speed.clamp wish
      rw [update_writes]
      exact ih
    | setSpeed speed => exact ⟨speed, rfl⟩
    -- the rest does not touch the speed
    | loadRom rom | pause | resume | machine q => exact ih

end Reachable

end Runner

namespace Host

/-- What a host asks of its runner are requests like any other. -/
theorem handle_reachable {h : Host} (hr : h.runner.Reachable) (d : Delivery) :
    (h.handle d.event d.now d.outside).host.runner.Reachable := by
  show (Turn.mk d h).after.runner.Reachable
  rw [Turn.after_runner]
  exact hr.afterAll _

theorem start_reachable {options : Options} {source : RandomSource} {rom : List UInt8} {now : Nat} {h : Host}
    {reports : Array Report} (hstart : start options source rom now = (.ok h, reports)) : h.runner.Reachable := by
  obtain ⟨-, random, rfl⟩ := start_ok hstart
  exact Runner.Reachable.after (.new _ _) (.loadRom rom)

end Host

/-- Every runner has a speed that paces it, and clamping that speed leaves it as it is. Neither a host's start nor
its keys get around this, whatever speed it starts with and whatever else is asked of its runner. Clamping keeps
the order of numbers. -/
theorem Runner.speeds_usable :
    (∀ r : Runner Float, r.Reachable → Speed.Usable r.speed ∧ Speed.clamp r.speed = r.speed) ∧
      (∀ (options : Options) (source : RandomSource) (rom : List UInt8) (now : Nat) (h : Host) (started : Array Report),
        Host.start options source rom now = (.ok h, started) → h.runner.Reachable) ∧
      (∀ h : Host, h.runner.Reachable → ∀ (calls : List Call) (reports : Array Report) (ds : List Delivery),
        ∀ e ∈ (h.handleAll calls reports ds).1,
          e.host.runner.Reachable ∧ Speed.Usable e.host.runner.speed ∧
            Speed.clamp e.host.runner.speed = e.host.runner.speed) ∧
      ∀ a b : Float, a ≤ b → Speed.clamp a ≤ Speed.clamp b := by
  have hreachable (r : Runner Float) (hr : r.Reachable) :
      Speed.Usable r.speed ∧ Speed.clamp r.speed = r.speed := by
    obtain ⟨wish, hwish⟩ := hr.speed_eq_clamp
    have husable : Speed.Usable r.speed := by
      rw [hwish]
      exact Speed.usable_clamp wish
    exact ⟨husable, Speed.clamp_of_usable husable⟩
  refine ⟨hreachable, ?_, ?_, fun a b => Speed.clamp_mono⟩
  · intro options source rom now h started
    exact Host.start_reachable
  · intro h hr calls reports ds e he
    have hrun : e.host.runner.Reachable :=
      Host.forall_mem_handleAll (P := fun h => h.runner.Reachable) (Q := fun _ h => h.runner.Reachable)
        (fun h d hr _ => ⟨Host.handle_reachable hr d, fun _ => Host.handle_reachable hr d⟩) hr calls reports ds e he
    exact ⟨hrun, hreachable _ hrun⟩

/-- Speeds that are no use come in at every door: with a new runner, with a request, and with a host at the upper
end of the range on which Equal is struck. -/
theorem Runner.speeds_usable_nan :
    let wishes : List Float := [0 / 0, 1 / 0, -1 / 0, 0, 5e-324, -7]
    let r (wish : Float) := (Runner.new (Machine.withSeed 1) wish).afterAll [.update 0.01, .setSpeed (wish - wish)]
    let outside : Outside := ⟨.ok, none, none, none⟩
    let equal : Event := .keyboard ⟨some .equal, false, true, false⟩
    let events := [⟨.resumed, 0, outside⟩, ⟨equal, 5, outside⟩]
    wishes.map (fun wish => (Runner.new (Machine.withSeed 1) wish).speed) = [400, 5000, 200, 200, 200, 200] ∧
      wishes.map (fun wish => (r wish).speed) = [400, 400, 400, 200, 200, 200] ∧
      (∀ wish ∈ wishes, Speed.Usable (r wish).speed ∧ Speed.clamp (r wish).speed = (r wish).speed) ∧
      (∃ h started, Host.start ⟨"program", 1 / 0, some 7, 8⟩ (.ofSeed 0) [0x12, 0x00] 0 = (.ok h, started) ∧
        ∃ e ∈ (h.handleAll [] #[] events).1, e.event = equal ∧ e.host.runner.speed = 5000 ∧
          Speed.Usable e.host.runner.speed) ∧
      Speed.clamp (-1 / 0) ≤ Speed.clamp 5e-324 := by
  intro wishes r outside equal events
  obtain ⟨hreachable, hstart, hrun, hmono⟩ := Runner.speeds_usable
  refine ⟨by decide +kernel, by decide +kernel, ?_, ?_, hmono _ _ (by decide +kernel)⟩
  · intro wish _
    exact hreachable _ (Reachable.afterAll (.new _ _) _)
  · have hs : Host.start ⟨"program", 1 / 0, some 7, 8⟩ (.ofSeed 0) [0x12, 0x00] 0 = (.ok _, _) := rfl
    have hlast {e₁ e₂ : Entry} : e₂ ∈ [e₁, e₂] := by simp
    refine ⟨_, _, hs, _, hlast, rfl, by decide +kernel, ?_⟩
    exact (hrun _ (hstart _ _ _ _ _ _ hs) [] #[] events _ hlast).2.1

end Chip8
