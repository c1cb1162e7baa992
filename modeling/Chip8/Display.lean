/-!
# The display

A monochrome screen of 64 by 32 cells, and the sprites drawn on it. A cell is a word of 32 bits, all
ones where it is lit and all zeros where it is dark. A sprite is eight cells wide and one row high
for each of its bytes. `Sprite.cells` lists the cells under its set bits; what
would lie past the right or the bottom edge is not among them. Drawing flips these cells and
reports whether one of them was lit.
-/

namespace Chip8

def displayWidth : Nat := 64

def displayHeight : Nat := 32

def displaySize : Nat := displayWidth * displayHeight

/-- The place of a cell in the display. -/
abbrev Cell := Fin displaySize

/-- The cell in column `x` of row `y`. -/
def Cell.at (x : Fin displayWidth) (y : Fin displayHeight) : Cell :=
  ⟨y.val * displayWidth + x.val, by
    have := x.isLt
    have := y.isLt
    simp only [displaySize, displayWidth, displayHeight] at *
    omega⟩

/-- The cells row by row, each a word as the screen is handed it. -/
structure Display where
  words : Vector UInt32 displaySize
  deriving DecidableEq

namespace Display

/-- The word of a lit cell. -/
def pixelOn : UInt32 := 0xFFFFFFFF

/-- The word of a dark cell. -/
def pixelOff : UInt32 := 0

def blank : Display := ⟨Vector.replicate displaySize pixelOff⟩

def word (d : Display) (c : Cell) : UInt32 := d.words.get c

def lit (d : Display) (c : Cell) : Bool := d.word c == pixelOn

/-- Whether the cell in column `x` of row `y` is lit; places off the display are dark. -/
def pixel (d : Display) (x y : Nat) : Bool :=
  if h : x < displayWidth ∧ y < displayHeight then d.lit (Cell.at ⟨x, h.1⟩ ⟨y, h.2⟩) else false

/-- Inverts the word of one cell. -/
def flip (d : Display) (c : Cell) : Display := ⟨d.words.set c.val (d.word c ^^^ pixelOn) c.isLt⟩

end Display

/-- Rows of eight cells with the place of their top left corner. -/
structure Sprite where
  x : Fin displayWidth
  y : Fin displayHeight
  rows : List UInt8

namespace Sprite

/-- Bit `c` of a row, counted from the left. -/
def bit (row : UInt8) (c : Nat) : Bool := row.toNat.testBit (7 - c)

/-- The cells under the set bits of one row, on screen row `y`. -/
def rowCells (x : Nat) (y : Fin displayHeight) (row : UInt8) : List Cell :=
  (List.range 8).filterMap fun c =>
    if h : x + c < displayWidth then
      if bit row c then some (Cell.at ⟨x + c, h⟩ y) else none
    else none

/-- The cells of the rows, the first of which is screen row `y`. -/
def cellsFrom (x y : Nat) : List UInt8 → List Cell
  | [] => []
  | row :: rows =>
    if h : y < displayHeight then rowCells x ⟨y, h⟩ row ++ cellsFrom x (y + 1) rows else []

/-- The cells under the set bits of a sprite. -/
def cells (s : Sprite) : List Cell := cellsFrom s.x.val s.y.val s.rows

end Sprite

def Display.draw (d : Display) (s : Sprite) : Display := s.cells.foldl Display.flip d

/-- Whether a sprite falls on a lit cell. -/
def Display.collides (d : Display) (s : Sprite) : Bool := s.cells.any d.lit

end Chip8
