import Chip8.Display

/-!
# Frames

The picture that the host hands to the screen: one colour for each cell of the display, black for
a lit cell and white for a dark one.
-/

namespace Chip8

/-- A colour with its opacity. -/
structure Colour where
  red : UInt8
  green : UInt8
  blue : UInt8
  alpha : UInt8
  deriving DecidableEq, Repr

namespace Colour

def black : Colour := ⟨0x00, 0x00, 0x00, 0xFF⟩

def white : Colour := ⟨0xFF, 0xFF, 0xFF, 0xFF⟩

/-- The colour of a picture that nothing was painted on. -/
def clear : Colour := ⟨0x00, 0x00, 0x00, 0x00⟩

end Colour

/-- A picture of the display, cell by cell. -/
abbrev Frame := Vector Colour displaySize

namespace Frame

def blank : Frame := Vector.replicate displaySize .clear

/-- The picture of a display. -/
def ofDisplay (d : Display) : Frame :=
  d.words.map fun w => if w = Display.pixelOn then .black else .white

/-- A picture as lines of text, a mark for each black cell. -/
def lines (f : Frame) : List String :=
  (List.range displayHeight).map fun y =>
    String.ofList ((List.range displayWidth).map fun x =>
      if f[y * displayWidth + x]? = some .black then '#' else ' ')

end Frame

end Chip8
