import Chip8.Proofs.Host.Run

/-!
# Turns of the event loop

A `Turn` is a delivery with the host to which it comes, and `Host.turns` lists the turns of a run up to the one
in which the host leaves or the program panics. But for a panic they are the entries of `Host.handleAll` seen from
the other side (`map_handleAll`), with the clock, the answers of the outside and the host before each event at hand.
`turns_invariant` is the induction over a run for properties that speak of what has been handled so far.
-/

namespace Chip8

/-- A delivery and the host to which it comes. -/
structure Turn extends Delivery where
  host : Host

namespace Turn

/-- The work that the event of a turn asks for. -/
def reaction (t : Turn) : Reaction := t.host.react t.event t.now t.outside

/-- The turn as a whole: a failure is kept, and the host leaves. -/
def outcome (t : Turn) : Reaction := t.host.handle t.event t.now t.outside

/-- The host after a turn. -/
def after (t : Turn) : Host := t.outcome.host

/-- Whether the host comes back from a turn. From a panic nobody does. -/
def returns (t : Turn) : Bool := t.outcome.panic?.isNone

/-- Whether a turn is the last of its run: the host leaves in it, or does not come back. -/
def Last (t : Turn) : Prop := Call.exit ∈ t.outcome.calls ∨ t.returns = false

instance (t : Turn) : Decidable t.Last :=
  inferInstanceAs (Decidable (Call.exit ∈ t.outcome.calls ∨ t.returns = false))

variable {t : Turn}

theorem outcome_of_not_failed (h : ∀ f, t.reaction.cut ≠ some (.failed f)) : t.outcome = t.reaction :=
  Host.handle_of_not_failed h

theorem outcome_of_done (h : t.reaction.cut = none) : t.outcome = t.reaction :=
  outcome_of_not_failed (by rw [h]; exact nofun)

theorem outcome_cut (t : Turn) : t.outcome.cut = t.reaction.cut := t.host.handle_cut t.event t.now t.outside

theorem panic?_eq_some_iff {p : Panic} : t.outcome.panic? = some p ↔ t.reaction.cut = some (.panicked p) := by
  rw [← t.outcome_cut, Reaction.panic?]
  split
  · rename_i q hq
    rw [hq, Option.some.injEq, Option.some.injEq, Cut.panicked.injEq]
  · rename_i hcut
    exact ⟨nofun, fun hp => absurd hp (hcut p)⟩

theorem returns_eq_false_iff : t.returns = false ↔ ∃ p, t.reaction.cut = some (.panicked p) := by
  rw [returns, ← Option.not_isSome, Bool.not_eq_false', Option.isSome_iff_exists]
  exact exists_congr fun p => panic?_eq_some_iff

theorem exit_mem_of_failed {f : Failure} (h : t.reaction.cut = some (.failed f)) : Call.exit ∈ t.outcome.calls := by
  rw [outcome, Host.handle_of_failed h]
  exact List.mem_append_right _ (List.mem_singleton_self _)

/-- What cuts a turn short ends the run. -/
theorem last_of_cut (h : t.reaction.cut ≠ none) : t.Last := by
  obtain ⟨c, hc⟩ := Option.ne_none_iff_exists'.1 h
  cases c with
  | failed f => exact .inl (exit_mem_of_failed hc)
  | panicked p => exact .inr (returns_eq_false_iff.2 ⟨p, hc⟩)

theorem cut_of_not_last (h : ¬t.Last) : t.reaction.cut = none := Classical.not_not.1 (mt last_of_cut h)

/-- Beyond its work, a turn changes nothing but the failure of the host. -/
theorem after_writes (t : Turn) : t.after = { t.reaction.host with failure := t.after.failure } := by
  by_cases hf : ∃ f, t.reaction.cut = some (.failed f)
  · obtain ⟨f, hf⟩ := hf
    rw [after, outcome, Host.handle_of_failed hf]
    rfl
  · rw [after, outcome_of_not_failed (not_exists.1 hf)]

end Turn

namespace Host

/-- The turns of a run, up to the one in which the host leaves or the program panics. -/
def turns (h : Host) : List Delivery → List Turn
  | [] => []
  | d :: ds =>
    let t : Turn := ⟨d, h⟩
    if t.Last then [t] else t :: t.after.turns ds

variable {h : Host} {ds : List Delivery} {t : Turn} {before later : List Turn}

/-- A run that has a turn begins with it, and goes on with its host unless it is the last. -/
theorem turns_cons_cases (h : Host) (d : Delivery) (ds : List Delivery) :
    (Turn.mk d h).Last ∧ h.turns (d :: ds) = [⟨d, h⟩] ∨
      ¬(Turn.mk d h).Last ∧ h.turns (d :: ds) = ⟨d, h⟩ :: (Turn.mk d h).after.turns ds := by
  by_cases hl : (Turn.mk d h).Last
  · exact .inl ⟨hl, if_pos hl⟩
  · exact .inr ⟨hl, if_neg hl⟩

theorem turns_head {d : Delivery} (hts : h.turns (d :: ds) = t :: later) : t = ⟨d, h⟩ := by
  rcases turns_cons_cases h d ds with ⟨-, hd⟩ | ⟨-, hd⟩
  · exact (List.cons.inj (hts.symm.trans hd)).1
  · exact (List.cons.inj (hts.symm.trans hd)).1

/-- A run that has more than one turn goes on with the host after the first. -/
theorem turns_tail {d : Delivery} {b : Turn} (hts : h.turns (d :: ds) = b :: later) (hne : later ≠ []) :
    ¬b.Last ∧ b.after.turns ds = later := by
  rw [turns_head hts]
  rcases turns_cons_cases h d ds with ⟨-, hd⟩ | ⟨hl, hd⟩
  · exact absurd (List.cons.inj (hts.symm.trans hd)).2 hne
  · exact ⟨hl, (List.cons.inj (hd.symm.trans hts)).2⟩

/-- From each of its turns on, a run is the run of the host of that turn with the deliveries that are left. -/
theorem turns_eq_append_cons (hts : h.turns ds = before ++ t :: later) :
    ∃ ds', ds = before.map Turn.toDelivery ++ t.toDelivery :: ds' ∧
      t.host.turns (t.toDelivery :: ds') = t :: later := by
  induction before generalizing h ds with
  | nil =>
    cases ds with
    | nil => cases hts
    | cons d ds =>
      obtain rfl := turns_head hts
      exact ⟨ds, rfl, hts⟩
  | cons b before ih =>
    cases ds with
    | nil => cases hts
    | cons d ds =>
      obtain ⟨-, htail⟩ := turns_tail hts (by simp)
      obtain rfl := turns_head hts
      obtain ⟨ds', rfl, hturns⟩ := ih htail
      exact ⟨ds', rfl, hturns⟩

/-- The deliveries that a run handles come first among all of them. -/
theorem toDelivery_turns (h : Host) (ds : List Delivery) : (h.turns ds).map Turn.toDelivery <+: ds := by
  induction ds generalizing h with
  | nil => exact List.prefix_rfl
  | cons d ds ih =>
    rcases turns_cons_cases h d ds with ⟨-, hd⟩ | ⟨-, hd⟩
    · rw [hd]
      exact ⟨ds, rfl⟩
    · rw [hd, List.map_cons, List.prefix_cons_inj]
      exact ih _

/-- Where a run goes on behind a turn, that is not its last, and the rest is the run of the host after it. -/
theorem turns_later (hts : h.turns ds = before ++ t :: later) :
    t.Last ∧ later = [] ∨ ¬t.Last ∧ ∃ ds', ds = before.map Turn.toDelivery ++ t.toDelivery :: ds' ∧
      t.after.turns ds' = later := by
  obtain ⟨ds', hds, hturns⟩ := turns_eq_append_cons hts
  rcases turns_cons_cases t.host t.toDelivery ds' with ⟨hl, hd⟩ | ⟨hl, hd⟩
  · exact .inl ⟨hl, (List.cons.inj (hturns.symm.trans hd)).2⟩
  · exact .inr ⟨hl, ds', hds, (List.cons.inj (hd.symm.trans hturns)).2⟩

/-- What holds of a host before its first turn and is kept up by every turn but the last holds before each turn, `P`
being told the turns so far. -/
theorem turns_invariant {P : List Turn → Host → Prop} (start : P [] h)
    (step : ∀ before t, P before t.host → ¬t.Last → P (before ++ [t]) t.after)
    (hts : h.turns ds = before ++ t :: later) : P before t.host := by
  induction before generalizing h ds P with
  | nil =>
    cases ds with
    | nil => cases hts
    | cons d ds =>
      rw [turns_head hts]
      exact start
  | cons b before ih =>
    cases ds with
    | nil => cases hts
    | cons d ds =>
      obtain ⟨hl, htail⟩ := turns_tail hts (by simp)
      obtain rfl := turns_head hts
      -- what is handled from here on stands behind this turn
      apply ih (P := fun turns host => P (⟨d, h⟩ :: turns) host) (step [] ⟨d, h⟩ start hl) ?_ htail
      intro before t hP hlast
      exact step (⟨d, h⟩ :: before) t hP hlast

/-! ## Entries -/

section HandleAll

variable {d : Delivery} {calls : List Call} {reports : Array Report}

theorem handleAll_of_panicked {p : Panic} (hp : (Turn.mk d h).reaction.cut = some (.panicked p)) :
    h.handleAll calls reports (d :: ds) =
      ([], .panicked p (calls ++ (Turn.mk d h).outcome.calls) (reports ++ (Turn.mk d h).outcome.reports)) := by
  have hpanic : (h.handle d.event d.now d.outside).panic? = some p := (Turn.panic?_eq_some_iff (t := ⟨d, h⟩)).2 hp
  simp only [handleAll, hpanic]
  rfl

theorem handleAll_of_returns (hr : (Turn.mk d h).returns = true) :
    h.handleAll calls reports (d :: ds) =
      if Call.exit ∈ (Turn.mk d h).outcome.calls then
        ([⟨d.event, (Turn.mk d h).after, calls ++ (Turn.mk d h).outcome.calls,
          reports ++ (Turn.mk d h).outcome.reports⟩], .left (Turn.mk d h).after)
      else
        (⟨d.event, (Turn.mk d h).after, calls ++ (Turn.mk d h).outcome.calls,
          reports ++ (Turn.mk d h).outcome.reports⟩ :: ((Turn.mk d h).after.handleAll [] #[] ds).1,
          ((Turn.mk d h).after.handleAll [] #[] ds).2) := by
  have hpanic : (h.handle d.event d.now d.outside).panic? = none := Option.isNone_iff_eq_none.1 hr
  simp only [handleAll, hpanic]
  rfl

/-- How the handling of events begins, by the first turn: it panics, or the host leaves in it, or goes on. -/
theorem handleAll_cons_cases (h : Host) (calls : List Call) (reports : Array Report) (d : Delivery)
    (ds : List Delivery) :
    (∃ p c r, (Turn.mk d h).reaction.cut = some (.panicked p) ∧ h.turns (d :: ds) = [⟨d, h⟩] ∧
        (Turn.mk d h).returns = false ∧ h.handleAll calls reports (d :: ds) = ([], .panicked p c r)) ∨
      (Turn.mk d h).returns = true ∧
        ((h.turns (d :: ds) = [⟨d, h⟩] ∧ ∃ c r, h.handleAll calls reports (d :: ds) =
            ([⟨d.event, (Turn.mk d h).after, c, r⟩], .left (Turn.mk d h).after)) ∨
          (Turn.mk d h).reaction.cut = none ∧ h.turns (d :: ds) = ⟨d, h⟩ :: (Turn.mk d h).after.turns ds ∧
            ∃ c r, h.handleAll calls reports (d :: ds) =
              (⟨d.event, (Turn.mk d h).after, c, r⟩ :: ((Turn.mk d h).after.handleAll [] #[] ds).1,
                ((Turn.mk d h).after.handleAll [] #[] ds).2)) := by
  cases hr : (Turn.mk d h).returns with
  | false =>
    obtain ⟨p, hp⟩ := Turn.returns_eq_false_iff.1 hr
    exact .inl ⟨p, _, _, hp, if_pos (.inr hr), rfl, handleAll_of_panicked hp⟩
  | true =>
    refine .inr ⟨rfl, ?_⟩
    rw [handleAll_of_returns hr]
    by_cases hexit : Call.exit ∈ (Turn.mk d h).outcome.calls
    · rw [if_pos hexit]
      exact .inl ⟨if_pos (.inl hexit), _, _, rfl⟩
    · have hlast : ¬(Turn.mk d h).Last := by
        rintro (hl | hl)
        · exact hexit hl
        · rw [hr] at hl
          cases hl
      rw [if_neg hexit]
      exact .inr ⟨Turn.cut_of_not_last hlast, if_neg hlast, _, _, rfl⟩

end HandleAll

theorem entries_eq_append_cons {calls : List Call} {reports : Array Report} {es rest : List Entry} {e : Entry}
    (hes : (h.handleAll calls reports ds).1 = es ++ e :: rest) :
    ∃ before t later, h.turns ds = before ++ t :: later ∧ before.map (fun t => t.event) = es.map Entry.event ∧
      t.event = e.event ∧ t.after = e.host := by
  induction es generalizing h ds calls reports with
  | nil =>
    cases ds with
    | nil => cases hes
    | cons d ds =>
      rcases handleAll_cons_cases h calls reports d ds with
        ⟨p, c, r, -, -, -, hall⟩ | ⟨-, ⟨hts, c, r, hall⟩ | ⟨-, hts, c, r, hall⟩⟩
      · rw [hall] at hes
        cases hes
      · rw [hall] at hes
        cases hes
        exact ⟨[], _, _, hts, rfl, rfl, rfl⟩
      · rw [hall] at hes
        cases hes
        exact ⟨[], _, _, hts, rfl, rfl, rfl⟩
  | cons e' es ih =>
    cases ds with
    | nil => cases hes
    | cons d ds =>
      rcases handleAll_cons_cases h calls reports d ds with
        ⟨p, c, r, -, -, -, hall⟩ | ⟨-, ⟨hts, c, r, hall⟩ | ⟨-, hts, c, r, hall⟩⟩
      · rw [hall] at hes
        cases hes
      · rw [hall] at hes
        simp at hes
      · rw [hall, List.cons_append] at hes
        obtain ⟨rfl, hrest⟩ := List.cons.inj hes
        obtain ⟨before, t, later, hlater, hbefore, hevent, hafter⟩ := ih hrest
        refine ⟨⟨d, h⟩ :: before, t, later, ?_, ?_, hevent, hafter⟩
        · rw [hts, hlater, List.cons_append]
        · rw [List.map_cons, List.map_cons, hbefore]

end Host

end Chip8
