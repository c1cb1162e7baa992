import Chip8.Proofs.Runner.Batch
import Chip8.Runner.Run

/-!
# Pausing

A pause empties the account, and nothing fills it before the runner goes on (`after_settled`). A paused runner
takes no notice of the time that passes, so a history without a `resume` leaves it as the same history without its
updates does (`afterAll_filter`), whatever else is asked of the runner in between.
-/

namespace Chip8.Runner

variable {τ : Type} [ClockNumber τ] [Add τ] [Sub τ] [Div τ] [LT τ] [DecidableLT τ] [LE τ] [DecidableLE τ]
variable {r : Runner τ} {q : Request τ} {qs : List (Request τ)}

/-- Whether a request lets time pass. -/
def Request.passesTime : Request τ → Bool
  | .update _ => true
  | _ => false

/-- While paused, the account is empty. -/
def Settled (r : Runner τ) : Prop := r.paused = true → r.pending = ClockNumber.ofNat 0

/-- No request puts time into the account of a paused runner, and a runner that becomes paused has its account
emptied. -/
theorem after_settled (h : r.Settled) (q : Request τ) : (r.after q).Settled := by
  cases q with
  | update dt =>
    cases hp : r.paused with
    | true =>
      rw [after, update_of_paused hp]
      exact h
    | false =>
      intro hp'
      rw [after, update_writes] at hp'
      cases hp.symm.trans hp'
  | loadRom rom => exact fun _ => rfl
  | pause => exact fun _ => rfl
  | resume => exact nofun
  | setSpeed speed => exact h
  | machine q => exact h

theorem afterAll_settled (h : r.Settled) (qs : List (Request τ)) : (r.afterAll qs).Settled := by
  induction qs generalizing r with
  | nil => exact h
  | cons q qs ih => exact ih (after_settled h q)

theorem Reachable.settled (h : r.Reachable) : r.Settled := by
  induction h with
  | new machine speed => exact nofun
  | after _ q ih => exact after_settled ih q

theorem after_paused (hp : r.paused = true) (hq : q ≠ .resume) : (r.after q).paused = true := by
  cases q with
  | update dt =>
    rw [after, update_of_paused hp]
    exact hp
  | resume => exact absurd rfl hq
  | pause => rfl
  | loadRom rom | setSpeed speed | machine q => exact hp

theorem afterAll_paused (hp : r.paused = true) (hqs : .resume ∉ qs) : (r.afterAll qs).paused = true := by
  induction qs generalizing r with
  | nil => exact hp
  | cons q qs ih =>
    obtain ⟨hq, hqs⟩ := List.ne_and_not_mem_of_not_mem_cons hqs
    exact ih (after_paused hp hq.symm) hqs

/-- As long as a runner stays paused, its updates can be left out of a history. -/
theorem afterAll_filter (hp : r.paused = true) (hqs : .resume ∉ qs) :
    r.afterAll qs = r.afterAll (qs.filter fun q => !q.passesTime) := by
  induction qs generalizing r with
  | nil => rfl
  | cons q qs ih =>
    obtain ⟨hq, hqs⟩ := List.ne_and_not_mem_of_not_mem_cons hqs
    have hrest := ih (after_paused hp hq.symm) hqs
    cases q with
    -- the one request that the filter drops leaves a paused runner as it is
    | update dt =>
      have hsame : r.after (.update dt) = r := congrArg Progress.runner (update_of_paused hp)
      rw [hsame] at hrest
      show (r.after (.update dt)).afterAll qs = _
      rw [hsame]
      exact hrest
    | resume => exact absurd rfl hq
    | pause | loadRom rom | setSpeed speed | machine q => exact hrest

/-- The time that passes while a runner is paused is lost, however much it is and whether it is a number at all.
A paused runner has nothing in its account. From a pause to the `resume` that ends it every update runs no cycle and
leaves the runner as it finds it, so that the runner goes on as if none of them had been made, with an empty
account; requests between the updates have the effect that they have without them. -/
theorem Reachable.pause_discards_time (h : r.Reachable) :
    (r.paused = true → r.pending = ClockNumber.ofNat 0) ∧
      (∀ dts : List τ, (r.pause.afterAll (dts.map .update)).resume = r.pause.resume ∧
        ∀ before dt later, dts = before ++ dt :: later →
          (r.pause.afterAll (before.map .update)).update dt = ⟨.ok ⟨0, false⟩, r.pause, #[]⟩) ∧
      ∀ qs : List (Request τ), .resume ∉ qs →
        (r.pause.afterAll qs).resume = (r.pause.afterAll (qs.filter fun q => !q.passesTime)).resume ∧
        (r.pause.afterAll qs).resume.pending = ClockNumber.ofNat 0 ∧
        ∀ before dt later, qs = before ++ .update dt :: later →
          (r.pause.afterAll before).update dt = ⟨.ok ⟨0, false⟩, r.pause.afterAll before, #[]⟩ := by
  have hupdates (dts : List τ) : r.pause.afterAll (dts.map .update) = r.pause := by
    have hnone : ((dts.map .update).filter fun q : Request τ => !q.passesTime) = [] := by
      simp [Request.passesTime]
    rw [afterAll_filter rfl (by simp), hnone]
    rfl
  refine ⟨h.settled, ?_, ?_⟩
  · intro dts
    refine ⟨by rw [hupdates], ?_⟩
    rintro before dt later rfl
    rw [hupdates]
    exact update_of_paused rfl
  · intro qs hqs
    have hsettled : (r.pause.afterAll qs).Settled := afterAll_settled (fun _ => rfl) qs
    refine ⟨by rw [afterAll_filter rfl hqs], hsettled (afterAll_paused rfl hqs), ?_⟩
    rintro before dt later rfl
    exact update_of_paused (afterAll_paused rfl fun hmem => hqs (List.mem_append_left _ hmem))

/-- The runner has a millisecond in its account when it is paused, two fifths of a cycle. It then sits through numbers
that are no length of time, and through an hour in which its speed changes and a key goes down. -/
theorem pause_discards_time_nan :
    let r := (Runner.new (Machine.withSeed 1) (400 : Float)).afterAll [.loadRom [0x70, 1, 0x12, 0], .update 0.001]
    r.Reachable ∧ 0 < r.pending ∧
      (r.pause.afterAll ([0 / 0, 1 / 0, -1, 3600].map .update)).resume = r.pause.resume ∧
      (r.pause.afterAll [.update 3600, .setSpeed 5000, .update (1 / 0), .machine (.putKey 3 true), .update 1]).resume =
        (r.pause.afterAll [.setSpeed 5000, .machine (.putKey 3 true)]).resume := by
  intro r
  have hr : r.Reachable := Reachable.afterAll (.new _ _) _
  refine ⟨hr, by decide +kernel, ?_, ?_⟩
  · exact (hr.pause_discards_time.2.1 [0 / 0, 1 / 0, -1, 3600]).1
  · exact (hr.pause_discards_time.2.2 [.update 3600, .setSpeed 5000, .update (1 / 0), .machine (.putKey 3 true),
      .update 1] (by simp)).1

end Chip8.Runner
