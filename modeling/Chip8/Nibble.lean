/-!
# Nibbles

The four bit numbers that select a register or a key, and tables with one entry for each of them,
which can be read and written without a range check. `Nibble.ofByte?` is the only way from a byte,
and `ofByte?_eq_some_iff` says which bytes it takes.
-/

namespace Chip8

abbrev Nibble := Fin 16

namespace Nibble

/-- There is a nibble zero, so numerals stand for nibbles. -/
instance neZero : @NeZero Nat (@Zero.ofOfNat0 Nat (instOfNatNat 0)) 16 := ⟨Nat.succ_ne_zero 15⟩

/-- The nibble of a byte that is small enough. -/
def ofByte? (b : UInt8) : Option Nibble :=
  if h : b.toNat < 16 then some ⟨b.toNat, h⟩ else none

/-- What is said of a byte that is no nibble. -/
def rangeMessage : String := "u4 value must be in range 0x0-0xF"

/-- A nibble, or the complaint about the byte. -/
def ofByte (b : UInt8) : Except String Nibble :=
  match ofByte? b with
  | some x => .ok x
  | none => .error rangeMessage

/-- The byte of the same value. -/
def toByte (x : Nibble) : UInt8 := UInt8.ofNat x.val

/-- A nibble as it is written in a trace. -/
def text (x : Nibble) : String := s!"u4({x.val})"

theorem ofByte?_eq_some_iff {b : UInt8} {x : Nibble} : ofByte? b = some x ↔ b.toNat = x.val := by
  unfold ofByte?
  split
  · simp [Fin.ext_iff]
  · have := x.isLt
    simp
    omega

theorem ofByte?_toByte (x : Nibble) : ofByte? x.toByte = some x := by
  rw [ofByte?_eq_some_iff, toByte, UInt8.toNat_ofNat']
  have := x.isLt
  omega

/-- A table with one entry for each nibble. -/
abbrev Table (α : Type) := Vector α 16

namespace Table

variable {α : Type}

/-- The table with one entry replaced. -/
def put (t : Table α) (x : Nibble) (a : α) : Table α := t.set x.val a x.isLt

@[simp] theorem get_put (t : Table α) (x y : Nibble) (a : α) :
    (t.put x a).get y = if x = y then a else t.get y := by
  have h : (t.put x a).get y = if x.val = y.val then a else t.get y :=
    Vector.getElem_set x.isLt y.isLt
  simp only [h, Fin.ext_iff]

end Table

end Nibble

end Chip8
