import Chip8.Nibble

/-!
# Keys of the keyboard

The physical keys that have a code: the sixteen that stand for the keypad, the four hotkeys, and all
the others, which the host does not tell apart.
-/

namespace Chip8

/-- A physical key with a code, named for its legend on a standard keyboard. -/
inductive KeyCode where
  | keyX | digit1 | digit2 | digit3
  | keyQ | keyW | keyE | keyA
  | keyS | keyD | keyZ | keyC
  | digit4 | keyR | keyF | keyV
  | space | equal | minus | backspace
  /-- Any of the other keys. They mean nothing to the host. -/
  | other
  deriving DecidableEq, Repr

namespace KeyCode

/-- The keys that are told apart, with their names. -/
def names : List (String × KeyCode) :=
  [("KeyX", keyX), ("Digit1", digit1), ("Digit2", digit2), ("Digit3", digit3), ("KeyQ", keyQ), ("KeyW", keyW),
    ("KeyE", keyE), ("KeyA", keyA), ("KeyS", keyS), ("KeyD", keyD), ("KeyZ", keyZ), ("KeyC", keyC),
    ("Digit4", digit4), ("KeyR", keyR), ("KeyF", keyF), ("KeyV", keyV), ("Space", space), ("Equal", equal),
    ("Minus", minus), ("Backspace", backspace)]

/-- The key of a name. -/
def ofName (name : String) : KeyCode := (names.lookup name).getD other

/-- The keys that stand for the keypad, by the number of the pad key: four rows of four, laid out
as `1 2 3 C`, `4 5 6 D`, `7 8 9 E` and `A 0 B F` on the left of the keyboard. -/
def pad : Nibble.Table KeyCode :=
  #v[keyX, digit1, digit2, digit3,
    keyQ, keyW, keyE, keyA,
    keyS, keyD, keyZ, keyC,
    digit4, keyR, keyF, keyV]

/-- The pad key that a key stands for. -/
def padKey? (code : KeyCode) : Option Nibble := (List.finRange 16).find? fun k => pad.get k = code

end KeyCode

end Chip8
