import Chip8.Proofs.Host.Request

/-!
# The clock of frames

A frame hands the runner the time since the clock was last marked. `Turn.Marks` says which turns mark it: every
frame, and the creation of a window. From what one turn does (`lastFrame_of_marks`, `lastFrame_of_not_marks`) it
follows by induction over the run that the host always has the latest mark (`latestMark_lastFrame`), and from that
what becomes of the time as a whole: no two frames are handed the same time, the frames behind a new window are
handed all of it, and what lies between a frame and a new window is handed to none (`start_frames_divide_time`).
-/

namespace Chip8

namespace Turn

/-- Whether a turn marks the clock of frames. -/
def Marks (t : Turn) : Prop :=
  t.event = .redrawRequested ∨ t.event = .resumed ∧ t.reaction.cut = none

/-- The time that a turn hands to the runner, from the clock of the host to its own. -/
def interval? (t : Turn) : Option (Nat × Nat) :=
  match t.event with
  | .redrawRequested => some (t.host.lastFrame, t.now)
  | _ => none

variable {t : Turn}

theorem interval?_of_redraw (h : t.event = .redrawRequested) : t.interval? = some (t.host.lastFrame, t.now) := by
  rw [interval?, h]

theorem interval?_eq_some_iff {i : Nat × Nat} :
    t.interval? = some i ↔ t.event = .redrawRequested ∧ i = (t.host.lastFrame, t.now) := by
  unfold interval?
  cases t.event with
  | redrawRequested => simp [eq_comm]
  | _ => simp

theorem lastFrame_of_marks (h : t.Marks) : t.after.lastFrame = t.now := by
  rw [after_writes]
  show t.reaction.host.lastFrame = _
  rcases h with he | ⟨he, hdone⟩
  · rw [reaction, he]
    exact congrArg Host.lastFrame (t.host.onRedraw_writes t.now t.outside).1
  · rw [reaction, he] at hdone ⊢
    exact ((t.host.onResumed_writes t.now t.outside).2.1 hdone).1

theorem lastFrame_of_not_marks (h : ¬t.Marks) : t.after.lastFrame = t.host.lastFrame := by
  rw [after_writes]
  show t.reaction.host.lastFrame = _
  cases he : t.event with
  | resumed =>
    have hcut : t.reaction.cut ≠ none := fun hdone => h (.inr ⟨he, hdone⟩)
    rw [reaction, he] at hcut ⊢
    exact ((t.host.onResumed_writes t.now t.outside).2.2 hcut).1
  | closeRequested => rw [reaction, he]; rfl
  | redrawRequested => exact absurd (.inl he) h
  | resized size =>
    rw [reaction, he]
    exact congrArg Host.lastFrame (t.host.onResized_host size t.outside)
  | keyboard key =>
    rw [reaction, he, Host.react]
    split
    · rfl
    · rw [Host.onKey_writes]
  | other => rw [reaction, he]; rfl

end Turn

/-- The latest mark of the clock among some turns, or its start if there is none. -/
def LatestMark (start : Nat) (turns : List Turn) (c : Nat) : Prop :=
  (∀ t ∈ turns, ¬t.Marks) ∧ c = start ∨
    ∃ earlier t later, turns = earlier ++ t :: later ∧ t.Marks ∧ (∀ t' ∈ later, ¬t'.Marks) ∧ c = t.now

namespace LatestMark

variable {start c : Nat} {turns : List Turn} {t : Turn}

theorem nil : LatestMark start [] start := .inl ⟨List.forall_mem_nil _, rfl⟩

theorem concat_of_marks (h : t.Marks) : LatestMark start (turns ++ [t]) t.now :=
  .inr ⟨turns, t, [], rfl, h, List.forall_mem_nil _, rfl⟩

theorem concat_of_not_marks (hc : LatestMark start turns c) (h : ¬t.Marks) :
    LatestMark start (turns ++ [t]) c := by
  have hlast {l : List Turn} (hl : ∀ t' ∈ l, ¬t'.Marks) : ∀ t' ∈ l ++ [t], ¬t'.Marks := by
    intro t' ht'
    rcases List.mem_append.1 ht' with hmem | hmem
    · exact hl t' hmem
    · rw [List.mem_singleton.1 hmem]
      exact h
  rcases hc with ⟨hnone, rfl⟩ | ⟨earlier, s, later, rfl, hs, hlater, rfl⟩
  · exact .inl ⟨hlast hnone, rfl⟩
  · exact .inr ⟨earlier, s, later ++ [t], by simp, hs, hlast hlater, rfl⟩

/-- While the clock does not go back, the latest mark is at no mark's time before it. -/
theorem le_of_mem (hc : LatestMark start turns c) (hclock : (turns.map fun t => t.now).Pairwise (· ≤ ·))
    (ht : t ∈ turns) (hm : t.Marks) : t.now ≤ c := by
  rcases hc with ⟨hnone, -⟩ | ⟨earlier, s, later, rfl, -, hlater, rfl⟩
  · exact absurd hm (hnone t ht)
  · rw [List.map_append, List.pairwise_append] at hclock
    rcases List.mem_append.1 ht with hmem | hmem
    · exact hclock.2.2 t.now (List.mem_map_of_mem hmem) s.now (by simp)
    · rcases List.mem_cons.1 hmem with rfl | hmem
      · exact Nat.le_refl _
      · exact absurd hm (hlater t hmem)

/-- The latest mark is the start or the time of one of the turns. -/
theorem le_of_forall {b : Nat} (hc : LatestMark start turns c) (hstart : start ≤ b) (hturns : ∀ t ∈ turns, t.now ≤ b) :
    c ≤ b := by
  rcases hc with ⟨-, rfl⟩ | ⟨earlier, s, later, rfl, -, -, rfl⟩
  · exact hstart
  · exact hturns s (by simp)

end LatestMark

namespace Host

variable {h : Host} {ds : List Delivery} {t : Turn} {before later mid : List Turn}

/-- The host before a turn has the latest mark among the turns so far. -/
theorem latestMark_lastFrame (hts : h.turns ds = before ++ t :: later) :
    LatestMark h.lastFrame before t.host.lastFrame := by
  apply turns_invariant (P := fun turns host => LatestMark h.lastFrame turns host.lastFrame) .nil ?_ hts
  intro before t hc _
  by_cases hm : t.Marks
  · rw [Turn.lastFrame_of_marks hm]
    exact .concat_of_marks hm
  · rw [Turn.lastFrame_of_not_marks hm]
    exact hc.concat_of_not_marks hm

/-- The turns of a run keep the order of the deliveries. -/
theorem clock_turns {start : Nat} (hclock : (start :: ds.map Delivery.now).Pairwise (· ≤ ·))
    (hts : h.turns ds = before ++ t :: later) :
    (∀ u ∈ before ++ t :: later, start ≤ u.now) ∧
      ((before ++ t :: later).map fun u => u.now).Pairwise (· ≤ ·) := by
  have hfirst : ((before ++ t :: later).map fun u => u.now) <+: ds.map Delivery.now := by
    rw [← hts]
    have hmap := (toDelivery_turns h ds).map Delivery.now
    rwa [List.map_map] at hmap
  obtain ⟨hstart, horder⟩ := List.pairwise_cons.1 hclock
  refine ⟨?_, horder.sublist hfirst.sublist⟩
  intro u hu
  exact hstart u.now (hfirst.subset (List.mem_map_of_mem hu))

/-- A clock that does not go back never stands before its latest mark. -/
theorem lastFrame_le_now (hclock : (h.lastFrame :: ds.map Delivery.now).Pairwise (· ≤ ·))
    (hts : h.turns ds = before ++ t :: later) : t.host.lastFrame ≤ t.now := by
  obtain ⟨hstart, horder⟩ := clock_turns hclock hts
  rw [List.map_append, List.pairwise_append] at horder
  apply (latestMark_lastFrame hts).le_of_forall (hstart t (by simp))
  intro u hu
  exact horder.2.2 u.now (List.mem_map_of_mem hu) t.now (by simp)

/-- A later turn never reaches behind a mark. -/
theorem now_le_lastFrame (hclock : (h.lastFrame :: ds.map Delivery.now).Pairwise (· ≤ ·))
    (hts : h.turns ds = before ++ t :: later) (hm : t.Marks) {u : Turn} (hu : u ∈ later) :
    t.now ≤ u.host.lastFrame := by
  obtain ⟨mid, rest, rfl⟩ := List.append_of_mem hu
  have hsplit : h.turns ds = (before ++ t :: mid) ++ u :: rest := by simp [hts]
  obtain ⟨-, horder⟩ := clock_turns hclock hsplit
  rw [List.map_append, List.pairwise_append] at horder
  exact (latestMark_lastFrame hsplit).le_of_mem horder.1 (by simp) hm

/-! ## What becomes of the time -/

/-- No frame is handed time that an earlier one was handed. -/
theorem intervals_apart (hclock : (h.lastFrame :: ds.map Delivery.now).Pairwise (· ≤ ·)) :
    ((h.turns ds).filterMap Turn.interval?).Pairwise fun i j => i.2 ≤ j.1 := by
  rw [List.pairwise_filterMap, List.pairwise_iff_forall_sublist]
  intro t u hsub i hi j hj
  obtain ⟨hevent, rfl⟩ := Turn.interval?_eq_some_iff.1 hi
  obtain ⟨-, rfl⟩ := Turn.interval?_eq_some_iff.1 hj
  obtain ⟨front, back, hts, ht, hu⟩ := List.cons_sublist_iff.1 hsub
  obtain ⟨before, mid, rfl⟩ := List.append_of_mem ht
  rw [List.append_assoc, List.cons_append] at hts
  exact now_le_lastFrame hclock hts (.inl hevent) (List.mem_append_right _ (List.singleton_sublist.1 hu))

/-- As long as no window is created, frames hand over all the time since the clock of the host. -/
theorem covered_of_lastFrame_le {x : Nat} (hts : h.turns ds = mid ++ t :: later)
    (hmid : ∀ u ∈ mid, u.event ≠ .resumed) (ht : t.event = .redrawRequested) (hx : h.lastFrame ≤ x)
    (hx' : x < t.now) : ∃ u ∈ mid ++ [t], ∃ i, u.interval? = some i ∧ i.1 ≤ x ∧ x < i.2 := by
  induction mid generalizing h ds with
  | nil =>
    cases ds with
    | nil => cases hts
    | cons d ds =>
      obtain rfl := turns_head hts
      exact ⟨_, List.mem_singleton_self _, _, Turn.interval?_of_redraw ht, hx, hx'⟩
  | cons a mid ih =>
    cases ds with
    | nil => cases hts
    | cons d ds =>
      obtain ⟨-, htail⟩ := turns_tail hts (by simp)
      obtain rfl := turns_head hts
      have hrest := ih htail fun u hu => hmid u (List.mem_cons_of_mem _ hu)
      by_cases hm : (Turn.mk d h).Marks
      · have hredraw : d.event = .redrawRequested := by
          rcases hm with hredraw | ⟨hresumed, -⟩
          · exact hredraw
          · exact absurd hresumed (hmid _ List.mem_cons_self)
        -- the frame that comes first is handed the time up to it, and the others what is left
        rcases Nat.lt_or_ge x d.now with hlt | hge
        · exact ⟨_, List.mem_cons_self, _, Turn.interval?_of_redraw hredraw, hx, hlt⟩
        · rw [Turn.lastFrame_of_marks hm] at hrest
          obtain ⟨u, hu, hi⟩ := hrest hge
          exact ⟨u, List.mem_cons_of_mem _ hu, hi⟩
      · rw [Turn.lastFrame_of_not_marks hm] at hrest
        obtain ⟨u, hu, hi⟩ := hrest hx
        exact ⟨u, List.mem_cons_of_mem _ hu, hi⟩

/-- Frames hand over all the time since a window was created, until another is. -/
theorem covered_of_resumed {r : Turn} {x : Nat} (hts : h.turns ds = before ++ r :: mid ++ t :: later)
    (hr : r.event = .resumed) (hdone : r.reaction.cut = none) (hmid : ∀ u ∈ mid, u.event ≠ .resumed)
    (ht : t.event = .redrawRequested) (hx : r.now ≤ x) (hx' : x < t.now) :
    ∃ u ∈ mid ++ [t], ∃ i, u.interval? = some i ∧ i.1 ≤ x ∧ x < i.2 := by
  rw [List.append_assoc, List.cons_append] at hts
  rcases turns_later hts with ⟨-, hnil⟩ | ⟨-, ds', -, hrest⟩
  · simp at hnil
  · apply covered_of_lastFrame_le hrest hmid ht ?_ hx'
    rw [Turn.lastFrame_of_marks (.inr ⟨hr, hdone⟩)]
    exact hx

/-- The time between a frame and the next window is handed to no frame at all. -/
theorem not_covered_of_resumed {r : Turn} {x : Nat}
    (hclock : (h.lastFrame :: ds.map Delivery.now).Pairwise (· ≤ ·))
    (hts : h.turns ds = before ++ t :: mid ++ r :: later) (hmid : ∀ u ∈ mid, u.event ≠ .redrawRequested)
    (hr : r.event = .resumed) (hx : t.now ≤ x) (hx' : x < r.now) {u : Turn} (hu : u ∈ h.turns ds)
    {i : Nat × Nat} (hi : u.interval? = some i) : ¬(i.1 ≤ x ∧ x < i.2) := by
  obtain ⟨hredraw, rfl⟩ := Turn.interval?_eq_some_iff.1 hi
  obtain ⟨-, horder⟩ := clock_turns hclock hts
  rw [List.map_append, List.pairwise_append] at horder
  rw [hts, List.mem_append, List.mem_append, List.mem_cons, List.mem_cons] at hu
  rintro ⟨hfrom, hto⟩
  rcases hu with (hu | rfl | hu) | rfl | hu
  · -- an earlier frame ends by the time of this one
    have hle : u.now ≤ t.now := by
      have hfront := horder.1
      rw [List.map_append, List.pairwise_append] at hfront
      exact hfront.2.2 u.now (List.mem_map_of_mem hu) t.now (by simp)
    simp only at hto
    omega
  · simp only at hto
    omega
  · exact hmid u hu hredraw
  · rw [hr] at hredraw
    cases hredraw
  · -- a later frame begins with the window at the earliest
    have hmarks : r.Marks := by
      rcases turns_later hts with ⟨-, hnil⟩ | ⟨hlast, -⟩
      · rw [hnil] at hu
        cases hu
      · exact .inr ⟨hr, Turn.cut_of_not_last hlast⟩
    have hge := now_le_lastFrame hclock hts hmarks hu
    simp only at hfrom
    omega

/-- Whatever events follow the start of a host, as long as the clock does not go back: each frame asks the runner
for exactly the time since the latest mark, which is the start, a window that was created or a frame, and nothing
else lets time pass. The clock counts nanoseconds, of which the whole seconds and the rest are converted on their
own. So no time is handed over twice; from the creation of a window to a later frame all of it is,
unless another window is created between them; and from a frame to the next window none of it is. -/
theorem start_frames_divide_time {options : Options} {source : RandomSource} {rom : List UInt8} {now : Nat}
    {h : Host} {started : Array Report} (hstart : start options source rom now = (.ok h, started))
    {ds : List Delivery} (hclock : (now :: ds.map Delivery.now).Pairwise (· ≤ ·)) :
    (∀ before t later, h.turns ds = before ++ t :: later →
        t.after.runner = t.host.runner.afterAll (t.host.requests t.event t.now) ∧
          (t.event = .redrawRequested → ∃ c, LatestMark now before c ∧ c ≤ t.now ∧
            t.interval? = some (c, t.now) ∧
            t.host.requests t.event t.now =
              [.update (Float.ofNat ((t.now - c) / 1000000000) +
                Float.ofNat ((t.now - c) % 1000000000) / 1000000000.0)]) ∧
          (t.event ≠ .redrawRequested →
            t.interval? = none ∧ ∀ dt, .update dt ∉ t.host.requests t.event t.now)) ∧
      (((h.turns ds).filterMap Turn.interval?).Pairwise fun i j => i.2 ≤ j.1) ∧
      (∀ before r mid t later, h.turns ds = before ++ r :: mid ++ t :: later →
        r.event = .resumed → r.reaction.cut = none → (∀ u ∈ mid, u.event ≠ .resumed) →
        t.event = .redrawRequested → ∀ x, r.now ≤ x → x < t.now →
          ∃ u ∈ mid ++ [t], ∃ i, u.interval? = some i ∧ i.1 ≤ x ∧ x < i.2) ∧
      (∀ before t mid r later, h.turns ds = before ++ t :: mid ++ r :: later →
        t.event = .redrawRequested → (∀ u ∈ mid, u.event ≠ .redrawRequested) → r.event = .resumed →
        ∀ x, t.now ≤ x → x < r.now →
          ∀ u ∈ h.turns ds, ∀ i, u.interval? = some i → ¬(i.1 ≤ x ∧ x < i.2)) := by
  obtain rfl : h.lastFrame = now := by
    obtain ⟨-, random, rfl⟩ := start_ok hstart
    rfl
  refine ⟨?_, intervals_apart hclock, ?_, ?_⟩
  · intro before t later hts
    refine ⟨t.after_runner, ?_, ?_⟩
    · intro hredraw
      refine ⟨t.host.lastFrame, latestMark_lastFrame hts, lastFrame_le_now hclock hts,
        Turn.interval?_of_redraw hredraw, ?_⟩
      rw [hredraw]
      rfl
    · intro hother
      refine ⟨?_, fun dt hdt => hother (update_mem_requests_iff.1 hdt).1⟩
      cases hi : t.interval? with
      | none => rfl
      | some i => exact absurd (Turn.interval?_eq_some_iff.1 hi).1 hother
  · intro before r mid t later hts hr hdone hmid ht x hx hx'
    exact covered_of_resumed hts hr hdone hmid ht hx hx'
  · intro before t mid r later hts _ hmid hr x hx hx' u hu i hi
    exact not_covered_of_resumed hclock hts hmid hr hx hx' hu hi

/-- Frames at 9.5, 9.505 and 20.01 seconds around a window that is created anew at 20, the first of them while the user
has paused. What lies between 9.505 and 20 is nobody's. -/
theorem start_frames_divide_time_resumed :
    let outside : Outside := ⟨.ok, none, none, none⟩
    let space : Event := .keyboard ⟨some .space, false, true, false⟩
    let events := [⟨.resumed, 2000000000, outside⟩, ⟨space, 5000000000, outside⟩,
      ⟨.redrawRequested, 9500000000, outside⟩, ⟨space, 9501000000, outside⟩,
      ⟨.redrawRequested, 9505000000, outside⟩, ⟨.resumed, 20000000000, outside⟩,
      ⟨.redrawRequested, 20010000000, outside⟩]
    ∃ h reports,
      start ⟨"program", Speed.default Float, some 7, 8⟩ (.ofSeed 0) [0x12, 0x00] 0 = (.ok h, reports) ∧
        (0 :: events.map Delivery.now).Pairwise (· ≤ ·) ∧
        (∃ t₁ t₂ t₃ t₄ t₅ t₆ t₇, h.turns events = [t₁, t₂, t₃, t₄, t₅, t₆, t₇] ∧
          t₃.after.runner = (t₃.host.runner.update 7.5).runner ∧
          t₅.after.runner = (t₅.host.runner.update 0.005).runner ∧
          t₇.after.runner = (t₇.host.runner.update 0.01).runner) ∧
        ∀ u ∈ h.turns events, ∀ i, u.interval? = some i → ¬(i.1 ≤ 15000000000 ∧ 15000000000 < i.2) := by
  intro outside space events
  obtain ⟨h, reports, hstart, hview⟩ : ∃ h reports,
      start ⟨"program", Speed.default Float, some 7, 8⟩ (.ofSeed 0) [0x12, 0x00] 0 = (.ok h, reports) ∧
        (h.turns events).map (fun t => (t.event, t.now, t.interval?)) =
          [(.resumed, 2000000000, none), (space, 5000000000, none),
            (.redrawRequested, 9500000000, some (2000000000, 9500000000)), (space, 9501000000, none),
            (.redrawRequested, 9505000000, some (9500000000, 9505000000)), (.resumed, 20000000000, none),
            (.redrawRequested, 20010000000, some (20000000000, 20010000000))] :=
    ⟨_, _, rfl, by decide +kernel⟩
  have hclock : (0 :: events.map Delivery.now).Pairwise (· ≤ ·) := by decide
  obtain ⟨hturns, -, -, hnone⟩ := start_frames_divide_time hstart hclock
  refine ⟨h, reports, hstart, hclock, ?_⟩
  generalize h.turns events = turns at hview hturns hnone ⊢
  obtain ⟨t₁, turns, rfl, -, hview⟩ := List.map_eq_cons_iff.1 hview
  obtain ⟨t₂, turns, rfl, -, hview⟩ := List.map_eq_cons_iff.1 hview
  obtain ⟨t₃, turns, rfl, h₃, hview⟩ := List.map_eq_cons_iff.1 hview
  obtain ⟨t₄, turns, rfl, -, hview⟩ := List.map_eq_cons_iff.1 hview
  obtain ⟨t₅, turns, rfl, h₅, hview⟩ := List.map_eq_cons_iff.1 hview
  obtain ⟨t₆, turns, rfl, h₆, hview⟩ := List.map_eq_cons_iff.1 hview
  obtain ⟨t₇, turns, rfl, h₇, hview⟩ := List.map_eq_cons_iff.1 hview
  obtain rfl := List.map_eq_nil_iff.1 hview
  have hframe {t : Turn} {c now : Nat} (dt : Float) (before later : List Turn)
      (hts : [t₁, t₂, t₃, t₄, t₅, t₆, t₇] = before ++ t :: later)
      (ht : (t.event, t.now, t.interval?) = (.redrawRequested, now, some (c, now)))
      (hdt : Float.ofNat ((now - c) / 1000000000) + Float.ofNat ((now - c) % 1000000000) / 1000000000.0 = dt) :
      t.after.runner = (t.host.runner.update dt).runner := by
    simp only [Prod.mk.injEq] at ht
    obtain ⟨hevent, rfl, hinterval⟩ := ht
    obtain ⟨hafter, hredraw, -⟩ := hturns before t later hts
    obtain ⟨c', -, -, hinterval', hrequests⟩ := hredraw hevent
    obtain ⟨rfl, -⟩ := Prod.mk.inj (Option.some.inj (hinterval.symm.trans hinterval'))
    rw [hafter, hrequests, hdt]
    rfl
  refine ⟨⟨t₁, t₂, t₃, t₄, t₅, t₆, t₇, rfl, ?_, ?_, ?_⟩, ?_⟩
  · exact hframe 7.5 [_, _] _ rfl h₃ (by decide +kernel)
  · exact hframe 0.005 [_, _, _, _] _ rfl h₅ (by decide +kernel)
  · exact hframe 0.01 [_, _, _, _, _, _] _ rfl h₇ (by decide +kernel)
  · simp only [Prod.mk.injEq] at h₅ h₆
    obtain ⟨hredraw, hbefore, -⟩ := h₅
    obtain ⟨hresumed, hbehind, -⟩ := h₆
    exact hnone [_, _, _, _] t₅ [] t₆ [_] rfl hredraw (List.forall_mem_nil _) hresumed 15000000000
      (by rw [hbefore]; decide) (by rw [hbehind]; decide)

end Host

end Chip8
