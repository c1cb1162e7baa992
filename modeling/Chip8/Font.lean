import Chip8.Nibble

/-!
# The built-in font

Sixteen glyphs for the hex digits. A glyph is five rows of which the high four bits show, and
the glyphs lie one behind the other from `Font.start` on.
-/

namespace Chip8.Font

/-- The address of the first glyph. -/
def start : Nat := 0x50

/-- The rows of one glyph. -/
def glyphSize : Nat := 5

/-- The rows of a digit's glyph, from the top. -/
def glyph : Nibble → List UInt8
  | 0x0 => [0xF0, 0x90, 0x90, 0x90, 0xF0]
  | 0x1 => [0x20, 0x60, 0x20, 0x20, 0x70]
  | 0x2 => [0xF0, 0x10, 0xF0, 0x80, 0xF0]
  | 0x3 => [0xF0, 0x10, 0xF0, 0x10, 0xF0]
  | 0x4 => [0x90, 0x90, 0xF0, 0x10, 0x10]
  | 0x5 => [0xF0, 0x80, 0xF0, 0x10, 0xF0]
  | 0x6 => [0xF0, 0x80, 0xF0, 0x90, 0xF0]
  | 0x7 => [0xF0, 0x10, 0x20, 0x40, 0x40]
  | 0x8 => [0xF0, 0x90, 0xF0, 0x90, 0xF0]
  | 0x9 => [0xF0, 0x90, 0xF0, 0x10, 0xF0]
  | 0xA => [0xF0, 0x90, 0xF0, 0x90, 0x90]
  | 0xB => [0xE0, 0x90, 0xE0, 0x90, 0xE0]
  | 0xC => [0xF0, 0x80, 0x80, 0x80, 0xF0]
  | 0xD => [0xE0, 0x90, 0x90, 0x90, 0xE0]
  | 0xE => [0xF0, 0x80, 0xF0, 0x80, 0xF0]
  | _ => [0xF0, 0x80, 0xF0, 0x80, 0x80]

/-- All glyphs, in the order of their digits. -/
def bytes : List UInt8 := (List.finRange 16).flatMap glyph

theorem length_bytes : bytes.length = 80 := by decide

end Chip8.Font
