import Chip8.Proofs.Host.Run
import Chip8.Proofs.Runner.Batch

/-!
# The picture

The host paints the display only when it has to. `Host.Current` is what makes that safe: a picture that
does not wait to be painted shows the display as it is. Every event that is not cut short keeps it up,
whether it draws, starts the program again or replaces the picture, so what a frame shows is never out of
date. What a picture shows is said in bytes (`Frame.Shows`).
-/

namespace Chip8

namespace Frame

/-- A picture has the pixels of a machine: red, green, blue and opacity are 00 00 00 FF for one that is lit, and
FF FF FF FF for one that is not. -/
def Shows (f : Frame) (m : Machine) : Prop :=
  ∀ x < 64, ∀ y < 32, f[y * 64 + x]? =
    some (if m.pixel x y then ⟨0x00, 0x00, 0x00, 0xFF⟩ else ⟨0xFF, 0xFF, 0xFF, 0xFF⟩)

theorem getElem?_ofDisplay (d : Display) {x y : Nat} (hx : x < displayWidth) (hy : y < displayHeight) :
    (ofDisplay d)[y * displayWidth + x]? = some (if d.pixel x y then .black else .white) := by
  have hc : y * displayWidth + x < displaySize := (Cell.at ⟨x, hx⟩ ⟨y, hy⟩).isLt
  have hpixel : d.pixel x y = d.lit (Cell.at ⟨x, hx⟩ ⟨y, hy⟩) := dif_pos ⟨hx, hy⟩
  rw [Vector.getElem?_eq_getElem hc, hpixel, Display.lit]
  simp only [ofDisplay, Vector.getElem_map, beq_iff_eq]
  rfl

/-- The painting of a machine's display has the pixels of the machine. -/
theorem shows_ofDisplay (m : Machine) : (ofDisplay m.display).Shows m := fun _ hx _ hy => getElem?_ofDisplay _ hx hy

end Frame

namespace Host

/-- A picture that does not wait to be painted is that of the display. -/
structure Current (h : Host) : Prop where
  /-- Without a picture, painting is still to come. -/
  awaited : h.frame = none → h.needsRepaint = true
  painted : ∀ f, h.frame = some f → h.needsRepaint = false → f = Frame.ofDisplay h.runner.machine.display

variable {h : Host}

/-- While painting is to come, the picture may be anything. -/
theorem Current.of_needsRepaint (hr : h.needsRepaint = true) : h.Current := by
  refine ⟨fun _ => hr, ?_⟩
  intro f _ hn
  rw [hr] at hn
  cases hn

/-- Only the picture, the mark that it waits and the display matter. -/
theorem Current.congr {h' : Host} (hc : h.Current) (hf : h'.frame = h.frame)
    (hn : h'.needsRepaint = h.needsRepaint)
    (hd : h'.runner.machine.display = h.runner.machine.display) : h'.Current := by
  refine ⟨?_, ?_⟩
  · rw [hf, hn]
    exact hc.awaited
  · rw [hf, hn, hd]
    exact hc.painted

/-! ## What each event does to the picture -/

theorem start_current {options : Options} {source : RandomSource} {rom : List UInt8} {now : Nat}
    {reports : Array Report} (hstart : start options source rom now = (.ok h, reports)) : h.Current := by
  obtain ⟨-, random, rfl⟩ := start_ok hstart
  exact .of_needsRepaint rfl

theorem onResumed_current {now : Nat} {outside : Outside} (hr : (h.onResumed now outside).cut = none) :
    (h.onResumed now outside).host.Current := by
  unfold onResumed at hr ⊢
  cases hs : Size.display.scaled? h.scale with
  | none =>
    rw [hs] at hr
    cases hr
  | some asked =>
    simp only [hs, createWindow] at hr ⊢
    split at hr
    · cases hr
    · split at hr
      · cases hr
      · exact .of_needsRepaint rfl

theorem onResized_current (hc : h.Current) (size : Size) (outside : Outside) :
    (h.onResized size outside).host.Current := by
  rw [onResized_host]
  exact hc

theorem hotkey_current (hc : h.Current) {code : KeyCode} (hr : (h.hotkey code).cut = none) :
    (h.hotkey code).host.Current := by
  cases code with
  | space =>
    rw [hotkey]
    split
    · exact hc.congr rfl rfl rfl
    · exact hc.congr rfl rfl rfl
  | equal => exact hc.congr rfl rfl rfl
  | minus => exact hc.congr rfl rfl rfl
  | backspace =>
    unfold hotkey at hr ⊢
    simp only at hr ⊢
    split
    · exact .of_needsRepaint rfl
    · rename_i hl
      rw [hl] at hr
      cases hr
  | _ => exact hc

theorem onKey_current (hc : h.Current) {key : KeyEvent} (hr : (h.onKey key).cut = none) :
    (h.onKey key).host.Current := by
  cases hcode : key.code with
  | none =>
    simp only [onKey, hcode]
    exact hc
  | some code =>
    cases hpad : code.padKey? with
    | some pad =>
      have hd : (h.runner.setKey pad.toByte key.pressed).runner.machine.display = h.runner.machine.display := by
        show (h.runner.machine.putKey pad.toByte key.pressed).machine.display = h.runner.machine.display
        rw [Machine.putKey_writes]
      simp only [onKey, hcode, hpad]
      split
      · exact hc.congr rfl rfl hd
      · exact hc.congr rfl rfl hd
    | none =>
      simp only [onKey, hcode, hpad] at hr ⊢
      split
      · rename_i hp
        rw [if_pos hp] at hr
        exact hotkey_current hc hr
      · exact hc

/-- A frame is cut short or leaves a picture that shows the display and does not wait to be painted. -/
theorem onRedraw_current (hc : h.Current) {now : Nat} {outside : Outside}
    (hr : (h.onRedraw now outside).cut = none) :
    (h.onRedraw now outside).host.Current ∧ (h.onRedraw now outside).host.needsRepaint = false := by
  unfold onRedraw at hr ⊢
  simp only at hr ⊢
  cases hu : (h.runner.update (seconds (h.elapsed now))).result with
  | error stop =>
    rw [hu] at hr
    cases stop <;> cases hr
  | ok status =>
    rw [hu] at hr
    simp only at hr ⊢
    by_cases hp : status.displayUpdated || h.needsRepaint
    · rw [if_pos hp] at hr ⊢
      cases hf : h.frame with
      | none =>
        simp only [paint, hf] at hr
        cases hr
      | some f =>
        simp only [paint, present_host]
        refine ⟨⟨?_, ?_⟩, trivial⟩
        · intro hnone
          cases hnone
        · intro f' hf' _
          exact (Option.some.inj hf').symm
    · rw [if_neg hp]
      simp only [Bool.or_eq_true, not_or, Bool.not_eq_true] at hp
      rw [present_host]
      exact ⟨hc.congr rfl rfl (Runner.update_display hu hp.1), hp.2⟩

/-- An event that is not cut short leaves the picture current, and a frame painted. -/
theorem react_current (hc : h.Current) {event : Event} {now : Nat} {outside : Outside}
    (hr : (h.react event now outside).cut = none) :
    (h.react event now outside).host.Current ∧
      (event = .redrawRequested → (h.react event now outside).host.needsRepaint = false) := by
  cases event with
  | resumed => exact ⟨onResumed_current hr, nofun⟩
  | closeRequested => exact ⟨hc, nofun⟩
  | redrawRequested =>
    obtain ⟨hcurrent, hpainted⟩ := onRedraw_current hc hr
    exact ⟨hcurrent, fun _ => hpainted⟩
  | resized size => exact ⟨onResized_current hc size outside, nofun⟩
  | keyboard key =>
    rw [react] at hr ⊢
    split
    · exact ⟨hc, nofun⟩
    · rename_i he
      rw [if_neg he] at hr
      exact ⟨onKey_current hc hr, nofun⟩
  | other => exact ⟨hc, nofun⟩

/-- After an event that does not panic the host either keeps a failure and leaves, or the picture is current. -/
theorem handle_current (hc : h.Current) {event : Event} {now : Nat} {outside : Outside}
    (hp : (h.handle event now outside).panic? = none) :
    ((h.handle event now outside).host.failure = none →
      (h.handle event now outside).host.Current ∧
        (event = .redrawRequested → (h.handle event now outside).host.needsRepaint = false)) ∧
      (Call.exit ∉ (h.handle event now outside).calls → (h.handle event now outside).host.Current) := by
  cases hr : (h.react event now outside).cut with
  | none =>
    rw [handle_of_not_failed (by rw [hr]; exact nofun)]
    exact ⟨fun _ => react_current hc hr, fun _ => (react_current hc hr).1⟩
  | some c =>
    cases c with
    | failed f =>
      rw [handle_of_failed hr]
      refine ⟨nofun, ?_⟩
      intro hexit
      exact absurd (List.mem_append_right _ (List.mem_singleton_self _)) hexit
    | panicked p =>
      rw [Reaction.panic?, handle_cut, hr] at hp
      cases hp

/-! ## Runs -/

/-- A picture that is current and painted has the pixels of the machine. -/
theorem Current.shows (hc : h.Current) (hn : h.needsRepaint = false) :
    ∃ f, h.frame = some f ∧ f.Shows h.runner.machine := by
  cases hf : h.frame with
  | none =>
    rw [hc.awaited hf] at hn
    cases hn
  | some f =>
    refine ⟨f, rfl, ?_⟩
    rw [hc.painted f hf hn]
    exact Frame.shows_ofDisplay _

/-- Whatever events follow the start of a host, and whenever they come: as long as none of them has
failed, a picture that does not wait to be painted has the pixels of the machine, and after each frame there is a
picture that has them, whether the frame painted it or not. -/
theorem start_picture_current {options : Options} {source : RandomSource} {rom : List UInt8} {now : Nat}
    {started : Array Report} (hstart : start options source rom now = (.ok h, started))
    (calls : List Call) (reports : Array Report) (ds : List Delivery) :
    ∀ e ∈ (h.handleAll calls reports ds).1, e.host.failure = none →
      (∀ f, e.host.frame = some f → e.host.needsRepaint = false → f.Shows e.host.runner.machine) ∧
        (e.event = .redrawRequested → ∃ f, e.host.frame = some f ∧ f.Shows e.host.runner.machine) := by
  intro e he hfailure
  have hcurrent : e.host.Current ∧ (e.event = .redrawRequested → e.host.needsRepaint = false) := by
    refine forall_mem_handleAll
      (Q := fun event host => host.failure = none →
        host.Current ∧ (event = .redrawRequested → host.needsRepaint = false))
      ?_ (start_current hstart) calls reports ds e he hfailure
    intro h d hc hp
    exact handle_current hc hp
  refine ⟨?_, fun hredraw => hcurrent.1.shows (hcurrent.2 hredraw)⟩
  intro f hf hn
  obtain ⟨f', hf', hshows⟩ := hcurrent.1.shows hn
  cases hf.symm.trans hf'
  exact hshows

/-- A program draws a zero in the corner. The first frame paints it, and the second, in which the program only goes
round its loop, leaves the painting alone. -/
theorem start_picture_current_drawn :
    let outside : Outside := ⟨.ok, none, none, none⟩
    let events := [⟨.resumed, 0, outside⟩, ⟨.redrawRequested, 10000000, outside⟩,
      ⟨.redrawRequested, 20000000, outside⟩]
    ∃ h reports, start ⟨"program", 400, some 7, 8⟩ (.ofSeed 0) [0xA0, 0x50, 0xD0, 0x05, 0x12, 0x04] 0 =
        (.ok h, reports) ∧
      ∃ e₁ e₂ e₃ f, (h.handleAll [] #[] events).1 = [e₁, e₂, e₃] ∧ e₁.host.needsRepaint = true ∧
        e₂.host.needsRepaint = false ∧ (e₂.host.runner.update 0.01).result = .ok ⟨4, false⟩ ∧
        e₃.event = .redrawRequested ∧ e₃.host.failure = none ∧ e₃.host.frame = some f ∧
        f.Shows e₃.host.runner.machine ∧ e₃.host.runner.machine.pixel 3 0 = true ∧
        e₃.host.runner.machine.pixel 4 0 = false ∧ f[3]? = some ⟨0x00, 0x00, 0x00, 0xFF⟩ ∧
        f[4]? = some ⟨0xFF, 0xFF, 0xFF, 0xFF⟩ := by
  intro outside events
  obtain ⟨h, reports, hstart, hview⟩ : ∃ h reports,
      start ⟨"program", 400, some 7, 8⟩ (.ofSeed 0) [0xA0, 0x50, 0xD0, 0x05, 0x12, 0x04] 0 = (.ok h, reports) ∧
        (h.handleAll [] #[] events).1.map (fun e => (e.event, (e.host.runner.update 0.01).result.toOption,
          [e.host.failure.isNone, e.host.needsRepaint, e.host.runner.machine.pixel 3 0,
            e.host.runner.machine.pixel 4 0])) =
          [(.resumed, some ⟨3, true⟩, [true, true, false, false]),
            (.redrawRequested, some ⟨4, false⟩, [true, false, true, false]),
            (.redrawRequested, some ⟨4, false⟩, [true, false, true, false])] :=
    ⟨_, _, rfl, by decide +kernel⟩
  have hcurrent := start_picture_current hstart [] #[] events
  refine ⟨h, reports, hstart, ?_⟩
  generalize (h.handleAll [] #[] events).1 = es at hview hcurrent ⊢
  obtain ⟨e₁, es, rfl, h₁, hview⟩ := List.map_eq_cons_iff.1 hview
  obtain ⟨e₂, es, rfl, h₂, hview⟩ := List.map_eq_cons_iff.1 hview
  obtain ⟨e₃, es, rfl, h₃, hview⟩ := List.map_eq_cons_iff.1 hview
  obtain rfl := List.map_eq_nil_iff.1 hview
  simp only [Prod.mk.injEq, List.cons.injEq, Option.isNone_iff_eq_none] at h₁ h₂ h₃
  obtain ⟨-, -, -, hwaits, -⟩ := h₁
  obtain ⟨-, hidle, -, hpainted, -⟩ := h₂
  obtain ⟨hredraw, -, hfailure, -, hlit, hdark, -⟩ := h₃
  have hupdate : (e₂.host.runner.update 0.01).result = .ok ⟨4, false⟩ := by
    cases hr : (e₂.host.runner.update 0.01).result with
    | error stop =>
      rw [hr] at hidle
      cases hidle
    | ok status =>
      rw [hr] at hidle
      cases hidle
      rfl
  obtain ⟨f, hf, hshows⟩ := (hcurrent e₃ (by simp) hfailure).2 hredraw
  have hblack := hshows 3 (by decide) 0 (by decide)
  have hwhite := hshows 4 (by decide) 0 (by decide)
  rw [hlit] at hblack
  rw [hdark] at hwhite
  exact ⟨e₁, e₂, e₃, f, rfl, hwaits, hpainted, hupdate, hredraw, hfailure, hf, hshows, hlit, hdark, hblack, hwhite⟩

end Host

end Chip8
