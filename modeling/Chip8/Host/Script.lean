import Chip8.Host.Session
import Chip8.Text.Numeral

/-!
# Event scripts

Events as text, one a line, for a host without a screen. A line holds the nanoseconds since the
line before and an event: `redraw`, `close`, `escape`, `resumed`, `resize` with two numbers, or
`press`, `hold` and `release` with the name of a key. Other lines are events that mean nothing.
-/

namespace Chip8.Script

/-- An outside without a screen: it grants every window as asked and never fails. -/
def screenless : Outside := ⟨.ok, none, none, none⟩

/-- A key that goes down, repeats or goes up. -/
def key (name : String) (pressed repeated : Bool) : Event :=
  .keyboard ⟨some (KeyCode.ofName name), false, pressed, repeated⟩

/-- The side of a window that a text stands for. -/
def side? (text : String) : Option UInt32 :=
  ((Text.natural? text).bind (Text.below? UInt32.size)).map UInt32.ofFin

/-- The event that a list of words stands for. -/
def event : List String → Event
  | ["redraw"] => .redrawRequested
  | ["close"] => .closeRequested
  | ["resumed"] => .resumed
  | ["escape"] => .keyboard ⟨some .other, true, true, false⟩
  | ["press", name] => key name true false
  | ["hold", name] => key name true true
  | ["release", name] => key name false false
  | ["resize", width, height] =>
    match side? width, side? height with
    | some w, some h => .resized ⟨w, h⟩
    | _, _ => .other
  | _ => .other

/-- The words of a line. -/
def words (line : String) : List String := (line.split Char.isWhitespace).toStringList.filter (· ≠ "")

/-- The deliveries of lines that begin at clock `now`. -/
def deliveries (now : Nat) : List String → List Delivery
  | [] => []
  | line :: rest =>
    let ws := words line
    let now := now + ((ws.head?.bind Text.natural?).getD 0)
    ⟨event ws.tail, now, screenless⟩ :: deliveries now rest

end Chip8.Script
