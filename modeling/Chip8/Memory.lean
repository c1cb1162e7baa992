import Chip8.Fault

/-!
# Memory

Four kilobytes, addressed by words that can be larger than the memory is. `Memory.read?` and
`Memory.write?` check a whole range before they touch it, so a refused access has no effect;
`getElem_write` and `getElem?_read` say what an accepted one does to each byte.
-/

namespace Chip8

def memorySize : Nat := 4096

/-- The bytes of the machine, by address. -/
abbrev Memory := Vector UInt8 memorySize

namespace Memory

/-- All bytes zero. -/
def blank : Memory := Vector.replicate memorySize 0

/-- Bytes written from address `a` on; what would lie past the end is dropped. -/
def write (m : Memory) (a : Nat) : List UInt8 → Memory
  | [] => m
  | b :: bs => write (m.setIfInBounds a b) (a + 1) bs

/-- The `len` bytes from address `a` on. -/
def read (m : Memory) (a len : Nat) : List UInt8 :=
  (List.range len).map fun k => m[a + k]?.getD 0

/-- The fault of an access that starts at `a` and leaves memory: it names the first address
of the access that does not exist. -/
def outOfBounds (a : UInt16) : Fault :=
  .memoryOutOfBounds (if a.toNat < memorySize then UInt16.ofNat memorySize else a)

/-- Reads a range that lies in memory as a whole. -/
def read? (m : Memory) (a : UInt16) (len : Nat) : Except Fault (List UInt8) :=
  if a.toNat + len ≤ memorySize then .ok (m.read a.toNat len) else .error (outOfBounds a)

/-- Writes a range that lies in memory as a whole. -/
def write? (m : Memory) (a : UInt16) (bs : List UInt8) : Except Fault Memory :=
  if a.toNat + bs.length ≤ memorySize then .ok (m.write a.toNat bs) else .error (outOfBounds a)

/-- A byte after a write is the byte written there, or the old one. -/
theorem getElem_write (m : Memory) (a : Nat) (bs : List UInt8) (k : Nat) (hk : k < memorySize) :
    (m.write a bs)[k] = if h : a ≤ k ∧ k - a < bs.length then bs[k - a] else m[k] := by
  induction bs generalizing m a with
  | nil => simp [write]
  | cons b bs ih =>
    rw [write, ih]
    by_cases hak : k = a
    · subst hak
      rw [dif_neg (by omega), dif_pos (by simp)]
      simp
    · by_cases hlt : a + 1 ≤ k ∧ k - (a + 1) < bs.length
      · have hk' : k - a = (k - (a + 1)) + 1 := by omega
        simp only [hlt, and_self, ↓reduceDIte, List.length_cons, show a ≤ k by omega,
          show k - a < bs.length + 1 by omega]
        simp only [hk', List.getElem_cons_succ]
      · rw [dif_neg hlt, dif_neg (by simp only [List.length_cons]; omega)]
        simp [Ne.symm hak]

theorem getElem?_write {m : Memory} {a k : Nat} {bs : List UInt8} (hk : k < memorySize) :
    (m.write a bs)[k]? = if a ≤ k ∧ k - a < bs.length then bs[k - a]? else m[k]? := by
  rw [Vector.getElem?_eq_getElem hk, getElem_write]
  split
  · rename_i h
    rw [List.getElem?_eq_getElem h.2]
  · rw [Vector.getElem?_eq_getElem hk]

theorem getElem?_blank {k : Nat} (hk : k < memorySize) : blank[k]? = some 0 := by
  rw [Vector.getElem?_eq_getElem hk, blank, Vector.getElem_replicate]

@[simp] theorem length_read (m : Memory) (a len : Nat) : (m.read a len).length = len := by
  simp [read]

theorem getElem?_read (m : Memory) (a len k : Nat) :
    (m.read a len)[k]? = if k < len then some (m[a + k]?.getD 0) else none := by
  by_cases hk : k < len <;> simp [read, hk]

end Memory

end Chip8
