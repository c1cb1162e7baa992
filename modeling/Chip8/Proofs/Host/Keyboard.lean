import Chip8.Proofs.Host.Request

/-!
# The keyboard

What the keys pressed so far have made of the host. `Event.moves?` and `Event.struck?` say which events count for
the keypad and which act as hotkeys, and `Held` is the state of a pad key in terms of the events alone. The three
step lemmas `keypad_after`, `paused_after` and `speed_after` hold of every turn, since a frame runs cycles and no
cycle touches a key, the pause or the speed; `start_keyboard_follows` carries them along a run.
-/

namespace Chip8

namespace KeyCode

/-- The key codes of the keypad are all different. -/
theorem pad_injective {k k' : Nibble} (h : pad.get k = pad.get k') : k = k' := by
  have hall : ∀ k k' : Nibble, pad.get k = pad.get k' → k = k' := by decide
  exact hall k k' h

theorem padKey?_eq_some_iff {code : KeyCode} {k : Nibble} : code.padKey? = some k ↔ code = pad.get k := by
  constructor
  · intro h
    have hk := List.find?_some h
    simp only [decide_eq_true_eq] at hk
    exact hk.symm
  · rintro rfl
    cases hp : (pad.get k).padKey? with
    | none =>
      have hnone := List.find?_eq_none.1 hp k (List.mem_finRange k)
      simp at hnone
    | some k' =>
      have hk' := List.find?_some hp
      simp only [decide_eq_true_eq] at hk'
      rw [pad_injective hk']

/-- The keys of the keyboard that stand for the pad keys, from 0 on. -/
def padCodes : List KeyCode :=
  [keyX, digit1, digit2, digit3, keyQ, keyW, keyE, keyA, keyS, keyD, keyZ, keyC, digit4, keyR, keyF, keyV]

theorem getElem?_padCodes (k : Nibble) : padCodes[k.val]? = some (pad.get k) := by
  revert k
  decide

/-- The keys that act when they go down and stand for no pad key. -/
def hotkeys : List KeyCode := [space, equal, minus, backspace]

/-- No hotkey stands for a pad key. -/
theorem padKey?_of_mem_hotkeys {code : KeyCode} (h : code ∈ hotkeys) : code.padKey? = none := by
  have hall : ∀ code ∈ hotkeys, code.padKey? = none := by decide
  exact hall code h

end KeyCode

namespace Speed

/-- What becomes of a speed that is wished for: it goes to the nearest one from 200 to 5000, and what is no number
becomes 400. -/
def granted (wish : Float) : Float :=
  if wish.isNaN then 400 else if wish < 200 then 200 else if 5000 < wish then 5000 else wish

theorem clamp_eq_granted (wish : Float) : clamp wish = granted wish := rfl

end Speed

namespace Event

/-- The way a pad key goes with an event, down or up, if it is an event of its key. Repeats count, and Escape
takes an event away from whatever key it comes from. -/
def moves? (k : Nibble) : Event → Option Bool
  | .keyboard key => if key.code = KeyCode.padCodes[k.val]? ∧ key.escape = false then some key.pressed else none
  | _ => none

/-- The key that an event strikes: one that goes down, not for a repeat and not as Escape. -/
def struck? : Event → Option KeyCode
  | .keyboard key => if key.pressed && !key.repeated && !key.escape then key.code else none
  | _ => none

/-- The speed after an event, by the one before. -/
def speedAfter (speed : Float) (e : Event) : Float :=
  match e.struck? with
  | some .equal => Speed.granted (speed + 100.0)
  | some .minus => Speed.granted (speed - 100.0)
  | _ => speed

end Event

/-- Whether a pad key is held after some events: one of them put it down, and none behind that was of its key or
started the program again. -/
def Held (k : Nibble) (events : List Event) : Prop :=
  ∃ before e later, events = before ++ e :: later ∧ e.moves? k = some true ∧
    ∀ e' ∈ later, e'.moves? k = none ∧ e'.struck? ≠ some .backspace

theorem not_held_nil {k : Nibble} : ¬Held k [] := by
  rintro ⟨before, e, later, h, -⟩
  simp at h

/-- The key is held by the first event or by those behind it. -/
theorem held_cons {k : Nibble} {e : Event} {events : List Event} :
    Held k (e :: events) ↔
      (e.moves? k = some true ∧ ∀ e' ∈ events, e'.moves? k = none ∧ e'.struck? ≠ some .backspace) ∨
        Held k events := by
  constructor
  · rintro ⟨before, e', later, hsplit, hdown, hlater⟩
    cases before with
    | nil =>
      cases hsplit
      exact .inl ⟨hdown, hlater⟩
    | cons b before =>
      cases hsplit
      exact .inr ⟨before, e', later, rfl, hdown, hlater⟩
  · rintro (⟨hdown, hlater⟩ | ⟨before, e', later, rfl, hdown, hlater⟩)
    · exact ⟨[], e, events, rfl, hdown, hlater⟩
    · exact ⟨e :: before, e', later, rfl, hdown, hlater⟩

instance Held.decidable (k : Nibble) : (events : List Event) → Decidable (Held k events)
  | [] => .isFalse not_held_nil
  | _ :: events =>
    have := Held.decidable k events
    decidable_of_iff _ held_cons.symm

/-- The last event decides, unless it leaves the key alone. -/
theorem held_concat {k : Nibble} {events : List Event} {e : Event} :
    Held k (events ++ [e]) ↔
      e.moves? k = some true ∨ e.moves? k = none ∧ e.struck? ≠ some .backspace ∧ Held k events := by
  constructor
  · rintro ⟨before, e', later, hsplit, hdown, hlater⟩
    rcases List.eq_nil_or_concat later with rfl | ⟨later', last, rfl⟩
    · obtain ⟨-, he⟩ := List.append_inj' hsplit rfl
      cases he
      exact .inl hdown
    · rw [List.concat_eq_append, ← List.cons_append, ← List.append_assoc] at hsplit
      obtain ⟨rfl, he⟩ := List.append_inj' hsplit rfl
      cases he
      obtain ⟨hmoves, hstruck⟩ := hlater e (by simp)
      refine .inr ⟨hmoves, hstruck, before, e', later', rfl, hdown, ?_⟩
      intro e'' he''
      exact hlater e'' (by simp [he''])
  · rintro (hdown | ⟨hmoves, hstruck, before, e', later, rfl, hdown, hlater⟩)
    · exact ⟨events, e, [], rfl, hdown, by simp⟩
    · refine ⟨before, e', later ++ [e], by simp, hdown, ?_⟩
      intro e'' he''
      rcases List.mem_append.1 he'' with hmem | hmem
      · exact hlater e'' hmem
      · cases List.mem_singleton.1 hmem
        exact ⟨hmoves, hstruck⟩

namespace Event

variable {e : Event} {k k' : Nibble} {down down' : Bool} {code : KeyCode}

theorem moves?_keyboard (k : Nibble) (key : KeyEvent) :
    moves? k (.keyboard key) =
      if key.code = some (KeyCode.pad.get k) ∧ key.escape = false then some key.pressed else none := by
  rw [moves?, KeyCode.getElem?_padCodes]

/-- An event moves one pad key at most. -/
theorem moves?_unique (h : e.moves? k = some down) (h' : e.moves? k' = some down') : k = k' ∧ down = down' := by
  cases e with
  | keyboard key =>
    simp only [moves?_keyboard, Option.ite_none_right_eq_some, Option.some.injEq] at h h'
    obtain ⟨⟨hcode, -⟩, rfl⟩ := h
    obtain ⟨⟨hcode', -⟩, rfl⟩ := h'
    exact ⟨KeyCode.pad_injective (Option.some.inj (hcode.symm.trans hcode')), rfl⟩
  | _ => cases h

/-- What moves a pad key strikes no hotkey. -/
theorem not_mem_hotkeys_of_moves (h : e.moves? k = some down) (hs : e.struck? = some code) :
    code ∉ KeyCode.hotkeys := by
  cases e with
  | keyboard key =>
    simp only [moves?_keyboard, struck?, Option.ite_none_right_eq_some, Option.some.injEq] at h hs
    obtain rfl : KeyCode.pad.get k = code := Option.some.inj (h.1.1.symm.trans hs.2)
    intro hmem
    have hpad := KeyCode.padKey?_of_mem_hotkeys hmem
    rw [KeyCode.padKey?_eq_some_iff.2 rfl] at hpad
    cases hpad
  | _ => cases h

end Event

/-- What an event asks for: it moves a pad key, or strikes another key, or has nothing to say to the keyboard and
may let time pass. -/
theorem Host.requests_cases (h : Host) (e : Event) (now : Nat) :
    (∃ k down, e.moves? k = some down ∧ h.requests e now = [.machine (.putKey k.toByte down)]) ∨
      (∀ k, e.moves? k = none) ∧
        ((∃ code, e.struck? = some code ∧ h.requests e now = h.hotkeyRequests code) ∨
          e.struck? = none ∧ (h.requests e now = [] ∨ ∃ dt, h.requests e now = [.update dt])) := by
  cases e with
  | redrawRequested => exact .inr ⟨fun _ => rfl, .inr ⟨rfl, .inr ⟨_, rfl⟩⟩⟩
  | keyboard key =>
    obtain ⟨code, escape, pressed, repeated⟩ := key
    cases escape with
    | true => exact .inr ⟨fun k => by simp [Event.moves?_keyboard], .inr ⟨by simp [Event.struck?], .inl rfl⟩⟩
    | false =>
      cases code with
      | none => exact .inr ⟨fun k => by simp [Event.moves?_keyboard], .inr ⟨by simp [Event.struck?], .inl rfl⟩⟩
      | some code =>
        cases hpad : code.padKey? with
        | some pad =>
          obtain rfl := KeyCode.padKey?_eq_some_iff.1 hpad
          exact .inl ⟨pad, pressed, by simp [Event.moves?_keyboard], by simp [requests, keyRequests, hpad]⟩
        | none =>
          have hmoves : ∀ k, Event.moves? k (.keyboard ⟨some code, false, pressed, repeated⟩) = none := by
            intro k
            have hne : code ≠ KeyCode.pad.get k := by
              rintro rfl
              rw [KeyCode.padKey?_eq_some_iff.2 rfl] at hpad
              cases hpad
            simp [Event.moves?_keyboard, hne]
          refine .inr ⟨hmoves, ?_⟩
          by_cases hp : (pressed && !repeated) = true
          · exact .inl ⟨code, by simp [Event.struck?, hp], by simp [requests, keyRequests, hpad, hp]⟩
          · exact .inr ⟨by simp [Event.struck?, hp], .inl (by simp [requests, keyRequests, hpad, hp])⟩
  | _ => exact .inr ⟨fun _ => rfl, .inr ⟨rfl, .inl rfl⟩⟩

namespace Runner

variable (r : Runner Float)

theorem update_keypad (dt : Float) : (r.update dt).runner.machine.keypad = r.machine.keypad :=
  update_machine (P := fun m => m.keypad = r.machine.keypad) (fun m hm => (m.cycle_keypad).trans hm) rfl

/-- A program that starts again finds no key down, even if it is refused. -/
theorem loadRom_keypad (rom : List UInt8) (k : Nibble) : (r.loadRom rom).runner.machine.keypad.get k = false := by
  show (r.machine.reset.machine.load rom).machine.keypad.get k = false
  rw [Machine.load_writes]
  exact Vector.getElem_replicate k.isLt

end Runner

namespace Turn

/-! ## What a turn does -/

/-- A pad key goes with its events, comes up when the program starts again, and stays otherwise. -/
theorem keypad_after (t : Turn) (k : Nibble) :
    t.after.runner.machine.keypad.get k = true ↔
      t.event.moves? k = some true ∨
        t.event.moves? k = none ∧ t.event.struck? ≠ some .backspace ∧
          t.host.runner.machine.keypad.get k = true := by
  rw [t.after_runner]
  rcases t.host.requests_cases t.event t.now with ⟨k', down, hmoves, hq⟩ | ⟨hmoves, ⟨code, hs, hq⟩ | ⟨hs, hq⟩⟩
  · have hput : (t.host.runner.afterAll (t.host.requests t.event t.now)).machine.keypad =
        t.host.runner.machine.keypad.put k' down := by
      rw [hq]
      show (t.host.runner.machine.putKey k'.toByte down).machine.keypad = _
      rw [Machine.putKey, Nibble.ofByte?_toByte]
    have hstruck : t.event.struck? ≠ some .backspace := by
      intro hs
      exact Event.not_mem_hotkeys_of_moves hmoves hs (by decide)
    rw [hput, Nibble.Table.get_put]
    by_cases hk : k' = k
    · rw [if_pos hk, ← hk, hmoves]
      simp
    · have hnone : t.event.moves? k = none := by
        cases hk' : t.event.moves? k with
        | none => rfl
        | some down' => exact absurd (Event.moves?_unique hmoves hk').1 hk
      rw [if_neg hk, hnone]
      simp [hstruck]
  · rw [hq, hmoves k, hs]
    cases code with
    | space =>
      simp only [Host.hotkeyRequests, Runner.afterAll, List.foldl_cons, List.foldl_nil]
      split <;> simp [Runner.after, Runner.pause, Runner.resume]
    | backspace => simp [Host.hotkeyRequests, Runner.afterAll, Runner.after, Runner.loadRom_keypad]
    | _ => simp [Host.hotkeyRequests, Runner.afterAll, Runner.after, Runner.setSpeed]
  · rw [hmoves k, hs]
    rcases hq with hq | ⟨dt, hq⟩
    · simp [hq, Runner.afterAll]
    · simp [hq, Runner.afterAll, Runner.after, Runner.update_keypad]

/-- Space pauses and lets go on, by turns. -/
theorem paused_after (t : Turn) :
    t.after.runner.paused = (t.host.runner.paused ^^ decide (t.event.struck? = some .space)) := by
  rw [t.after_runner]
  rcases t.host.requests_cases t.event t.now with ⟨k, down, hmoves, hq⟩ | ⟨-, ⟨code, hs, hq⟩ | ⟨hs, hq⟩⟩
  · have hstruck : t.event.struck? ≠ some .space := by
      intro hs
      exact Event.not_mem_hotkeys_of_moves hmoves hs (by decide)
    simp [hq, hstruck, Runner.afterAll, Runner.after]
  · rw [hq, hs]
    cases code with
    | space => cases hp : t.host.runner.paused <;>
        simp [Host.hotkeyRequests, hp, Runner.afterAll, Runner.after, Runner.pause, Runner.resume]
    | _ => simp [Host.hotkeyRequests, Runner.afterAll, Runner.after, Runner.setSpeed, Runner.loadRom]
  · rcases hq with hq | ⟨dt, hq⟩
    · simp [hq, hs, Runner.afterAll]
    · simp [hq, hs, Runner.afterAll, Runner.after, congrArg Runner.paused Runner.update_writes]

/-- The speed moves by a step with its two keys and not otherwise. -/
theorem speed_after (t : Turn) : t.after.runner.speed = t.event.speedAfter t.host.runner.speed := by
  rw [t.after_runner]
  rcases t.host.requests_cases t.event t.now with ⟨k, down, hmoves, hq⟩ | ⟨-, ⟨code, hs, hq⟩ | ⟨hs, hq⟩⟩
  · rw [hq]
    unfold Event.speedAfter
    split
    · rename_i hs
      exact absurd (by decide) (Event.not_mem_hotkeys_of_moves hmoves hs)
    · rename_i hs
      exact absurd (by decide) (Event.not_mem_hotkeys_of_moves hmoves hs)
    · rfl
  · rw [hq]
    cases code with
    | space =>
      simp only [Event.speedAfter, hs, Host.hotkeyRequests, Runner.afterAll, List.foldl_cons, List.foldl_nil]
      split <;> rfl
    | _ => simp [Event.speedAfter, hs, Host.hotkeyRequests, Host.speedStep, Runner.afterAll, Runner.after,
        Runner.setSpeed, Runner.loadRom, Speed.clamp_eq_granted]
  · rcases hq with hq | ⟨dt, hq⟩
    · simp [hq, hs, Event.speedAfter, Runner.afterAll]
    · simp [hq, hs, Event.speedAfter, Runner.afterAll, Runner.after, congrArg Runner.speed Runner.update_writes]

/-- An event of a pad key moves that key, and nothing else happens. -/
theorem outcome_of_moves {t : Turn} {k : Nibble} {down : Bool} (h : t.event.moves? k = some down) :
    t.outcome = .done { t.host with runner := { t.host.runner with
      machine := { t.host.runner.machine with
        keypad := t.host.runner.machine.keypad.put k down } } } [] #[] := by
  cases he : t.event with
  | keyboard key =>
    rw [he] at h
    simp only [Event.moves?_keyboard, Option.ite_none_right_eq_some, Option.some.injEq] at h
    obtain ⟨⟨hcode, hescape⟩, rfl⟩ := h
    have hreact : t.reaction = t.host.onKey key := by
      rw [reaction, he, Host.react, hescape, if_neg Bool.false_ne_true]
    have hpad : (KeyCode.pad.get k).padKey? = some k := KeyCode.padKey?_eq_some_iff.2 rfl
    have hkey : t.reaction = .done { t.host with runner := { t.host.runner with
        machine := { t.host.runner.machine with
          keypad := t.host.runner.machine.keypad.put k key.pressed } } } [] #[] := by
      rw [hreact]
      simp only [Host.onKey, hcode, hpad, Runner.setKey, Machine.putKey, Nibble.ofByte?_toByte]
    rw [← hkey]
    apply outcome_of_done
    rw [hkey]
    rfl
  | _ =>
    rw [he] at h
    cases h

/-- A hotkey acts when it goes down and not otherwise. -/
theorem outcome_of_hotkey {t : Turn} {key : KeyEvent} {code : KeyCode} (he : t.event = .keyboard key)
    (hescape : key.escape = false) (hcode : key.code = some code) (hmem : code ∈ KeyCode.hotkeys)
    (hidle : key.pressed = false ∨ key.repeated = true) : t.outcome = .done t.host [] #[] := by
  have hpressed : ¬(key.pressed && !key.repeated) = true := by
    rcases hidle with hp | hr
    · simp [hp]
    · simp [hr]
  have hreact : t.reaction = .done t.host [] #[] := by
    rw [reaction, he, Host.react, hescape, if_neg Bool.false_ne_true]
    simp only [Host.onKey, hcode, KeyCode.padKey?_of_mem_hotkeys hmem]
    exact if_neg hpressed
  rw [← hreact]
  apply outcome_of_done
  rw [hreact]
  rfl

end Turn

namespace Host

/-! ## Runs -/

/-- What the keyboard has made of a host that began at some speed, by the events since then. -/
structure Follows (h : Host) (speed : Float) (events : List Event) : Prop where
  keypad : ∀ k, h.runner.machine.keypad.get k = true ↔ Held k events
  paused : h.runner.paused = true ↔ events.countP (fun e => e.struck? = some .space) % 2 = 1
  speed : h.runner.speed = events.foldl Event.speedAfter speed

theorem start_follows {options : Options} {source : RandomSource} {rom : List UInt8} {now : Nat} {h : Host}
    {started : Array Report} (hstart : start options source rom now = (.ok h, started)) :
    h.Follows (Speed.granted options.speed) [] := by
  obtain ⟨-, random, rfl⟩ := start_ok hstart
  refine ⟨?_, by simp [Runner.loadRom, Runner.new], rfl⟩
  intro k
  rw [Runner.loadRom_keypad]
  simp [not_held_nil]

/-- A turn adds its event to those that the host follows. -/
theorem Follows.after {t : Turn} {speed : Float} {events : List Event} (h : t.host.Follows speed events) :
    t.after.Follows speed (events ++ [t.event]) := by
  refine ⟨?_, ?_, ?_⟩
  · intro k
    rw [t.keypad_after, h.keypad, held_concat]
  · have hpaused := h.paused
    rw [t.paused_after, List.countP_append, List.countP_singleton]
    -- one more press of space turns an odd number of them into an even one and back
    by_cases hs : t.event.struck? = some .space
    · simp only [hs, decide_true, Bool.xor_true, if_true, Bool.not_eq_true']
      rw [← Bool.not_eq_true, hpaused]
      omega
    · simp [hs, hpaused]
  · rw [t.speed_after, h.speed, List.foldl_append]
    rfl

/-- Whatever events follow the start of a host, and whenever they come: after each of them a pad key is down
exactly if the keyboard holds it, the runner is paused exactly if Space has been struck an odd number of times,
and the speed is what the strokes of Equal and Minus have made of the one asked for. An event of a pad key only
moves that key, a hotkey that comes up or repeats does nothing, and starting the program again keeps the pause
and the speed. -/
theorem start_keyboard_follows {options : Options} {source : RandomSource} {rom : List UInt8} {now : Nat}
    {h : Host} {started : Array Report} (hstart : start options source rom now = (.ok h, started))
    (calls : List Call) (reports : Array Report) (ds : List Delivery) :
    (∀ es e later, (h.handleAll calls reports ds).1 = es ++ e :: later →
        e.host.Follows (Speed.granted options.speed) ((es ++ [e]).map Entry.event)) ∧
      ∀ t ∈ h.turns ds,
        (∀ k down, t.event.moves? k = some down →
          t.outcome = .done { t.host with runner := { t.host.runner with
            machine := { t.host.runner.machine with
              keypad := t.host.runner.machine.keypad.put k down } } } [] #[]) ∧
        (∀ key code, t.event = .keyboard key → key.escape = false → key.code = some code →
          code ∈ KeyCode.hotkeys → key.pressed = false ∨ key.repeated = true →
            t.outcome = .done t.host [] #[]) ∧
        (t.event.struck? = some .backspace →
          t.after.runner.paused = t.host.runner.paused ∧ t.after.runner.speed = t.host.runner.speed) := by
  refine ⟨?_, ?_⟩
  · intro es e later hes
    obtain ⟨before, t, rest, hts, hbefore, hevent, hafter⟩ := entries_eq_append_cons hes
    have hhost : t.host.Follows (Speed.granted options.speed) (before.map fun t => t.event) := by
      apply turns_invariant (P := fun turns host =>
        host.Follows (Speed.granted options.speed) (turns.map fun t => t.event)) (start_follows hstart) ?_ hts
      intro before t hP _
      rw [List.map_append]
      exact hP.after
    have hturn := hhost.after
    rwa [hbefore, hevent, hafter, ← List.map_singleton, ← List.map_append] at hturn
  · intro t _
    refine ⟨fun k down => Turn.outcome_of_moves, fun key code => Turn.outcome_of_hotkey, ?_⟩
    intro hs
    rw [t.paused_after, t.speed_after, Event.speedAfter, hs]
    exact ⟨Bool.xor_false _, rfl⟩

/-- The program starts again while two pad keys are down and the runner is paused. Of the keys only the one that
the keyboard still repeats is down afterwards. The speed starts at 4950, is stopped at 5000 on its way up, and goes
back from there. -/
theorem start_keyboard_follows_restart :
    let outside : Outside := ⟨.ok, none, none, none⟩
    let press (code : KeyCode) (repeated : Bool) : Event := .keyboard ⟨some code, false, true, repeated⟩
    let events := [⟨.resumed, 0, outside⟩, ⟨press .digit1 false, 5, outside⟩, ⟨press .keyQ false, 6, outside⟩,
      ⟨press .space false, 7, outside⟩, ⟨press .equal false, 8, outside⟩, ⟨press .minus false, 9, outside⟩,
      ⟨press .backspace false, 10, outside⟩, ⟨press .keyQ true, 11, outside⟩]
    ∃ h reports,
      start ⟨"program", 4950, some 7, 8⟩ (.ofSeed 0) [0x12, 0x00] 0 = (.ok h, reports) ∧
        ∃ es e, (h.handleAll [] #[] events).1 = es ++ [e] ∧
          e.host.runner.machine.keypad.get 1 = false ∧ e.host.runner.machine.keypad.get 4 = true ∧
          e.host.runner.paused = true ∧ e.host.runner.speed = 4900 ∧
          ∃ e' ∈ es, e'.event = press .equal false ∧ e'.host.runner.speed = 5000 := by
  intro outside press events
  have hstart : start ⟨"program", 4950, some 7, 8⟩ (.ofSeed 0) [0x12, 0x00] 0 = (.ok _, _) := rfl
  have hfollows := (start_keyboard_follows hstart [] #[] events).1
  obtain ⟨hkeypad, hpaused, hspeed⟩ := hfollows [_, _, _, _, _, _, _] _ [] rfl
  have hspeed' := (hfollows [_, _, _, _] _ [_, _, _] rfl).speed
  refine ⟨_, _, hstart, [_, _, _, _, _, _, _], _, rfl, ?_, (hkeypad 4).2 (by decide), hpaused.2 (by decide),
    hspeed.trans (by decide +kernel), _, List.mem_of_getElem? (i := 4) rfl, rfl, hspeed'.trans (by decide +kernel)⟩
  rw [← Bool.not_eq_true, hkeypad 1]
  decide

end Host

end Chip8
