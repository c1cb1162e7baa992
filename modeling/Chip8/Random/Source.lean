import Chip8.Random.ChaCha

/-!
# The random source

A stream of bytes that depends only on a key, with the count of those drawn so far. The key
comes from a seed of 64 bits or from outside. Byte `k` is the low byte of word `k` of the key
stream, so each draw uses up one word.
-/

namespace Chip8

/-- A key and the number of bytes drawn from its stream. -/
structure RandomSource where
  key : ChaCha.Key
  drawn : Nat
  deriving DecidableEq

namespace RandomSource

/-- One step of the generator that stretches a seed. -/
def advanceSeed (s : UInt64) : UInt64 := s * 6364136223846793005 + 11634580027462260723

/-- Rotates a word right by `k` bits, for `k` from 0 to 31. -/
def rotateRight (w k : UInt32) : UInt32 := (w >>> k) ||| (w <<< ((32 - k) % 32))

/-- The word that a state of the seed generator gives: bits of the state, rotated by its five
highest bits. -/
def seedWord (s : UInt64) : UInt32 :=
  rotateRight (((s >>> 18) ^^^ s) >>> 27).toUInt32 (s >>> 59).toUInt32

/-- The source of a key, nothing drawn yet. -/
def ofKey (key : ChaCha.Key) : RandomSource := ⟨key, 0⟩

/-- The source of a seed: word `k` of its key comes from step `k + 1` of the generator. -/
def ofSeed (seed : UInt64) : RandomSource :=
  ofKey (Vector.ofFn fun k => seedWord (Nat.repeat advanceSeed (k.val + 1) seed))

/-- Byte `k` of the stream of a key. -/
def byteAt (key : ChaCha.Key) (k : Nat) : UInt8 := (ChaCha.word key k).toUInt8

def peek (r : RandomSource) : UInt8 := byteAt r.key r.drawn

def advance (r : RandomSource) : RandomSource := { r with drawn := r.drawn + 1 }

end RandomSource

end Chip8
