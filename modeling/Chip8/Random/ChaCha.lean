import Chip8.Nibble

/-!
# ChaCha key stream

The block function of the ChaCha stream cipher with twelve rounds, as a function of a key of
eight words and a block counter of 64 bits. `ChaCha.word` numbers the words of all blocks from
zero, so the key stream of a key is the sequence `word key 0`, `word key 1` and so on.
-/

namespace Chip8.ChaCha

/-- The sixteen words of one block. -/
abbrev Block := Nibble.Table UInt32

abbrev Key := Vector UInt32 8

/-- Rotates a word left by `k` bits, for `k` from 1 to 31. -/
def rotateLeft (w k : UInt32) : UInt32 := (w <<< k) ||| (w >>> (32 - k))

/-- Mixes the words at four places. -/
def quarterRound (s : Block) (a b c d : Nibble) : Block :=
  let s : Block := s.put a (s.get a + s.get b)
  let s : Block := s.put d (rotateLeft (s.get d ^^^ s.get a) 16)
  let s : Block := s.put c (s.get c + s.get d)
  let s : Block := s.put b (rotateLeft (s.get b ^^^ s.get c) 12)
  let s : Block := s.put a (s.get a + s.get b)
  let s : Block := s.put d (rotateLeft (s.get d ^^^ s.get a) 8)
  let s : Block := s.put c (s.get c + s.get d)
  s.put b (rotateLeft (s.get b ^^^ s.get c) 7)

/-- One round on the columns and one on the diagonals. -/
def doubleRound (s : Block) : Block :=
  let s := quarterRound s 0 4 8 12
  let s := quarterRound s 1 5 9 13
  let s := quarterRound s 2 6 10 14
  let s := quarterRound s 3 7 11 15
  let s := quarterRound s 0 5 10 15
  let s := quarterRound s 1 6 11 12
  let s := quarterRound s 2 7 8 13
  quarterRound s 3 4 9 14

/-- The constants, the key, the counter with its low word first, and two zero words. -/
def initial (key : Key) (counter : Nat) : Block :=
  (#v[0x61707865, 0x3320646e, 0x79622d32, 0x6b206574] : Vector UInt32 4) ++ key ++
    (#v[UInt32.ofNat counter, UInt32.ofNat (counter / UInt32.size), 0, 0] : Vector UInt32 4)

/-- The block of a counter: the start mixed by twelve rounds, added to the start. -/
def block (key : Key) (counter : Nat) : Block :=
  let start := initial key counter
  start.zipWith (· + ·) (Nat.repeat doubleRound 6 start)

/-- Word `k` of the key stream. -/
def word (key : Key) (k : Nat) : UInt32 :=
  (block key (k / 16)).get ⟨k % 16, Nat.mod_lt k (by decide)⟩

end Chip8.ChaCha
