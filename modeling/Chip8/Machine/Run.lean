import Chip8.Machine.Cycle

/-!
# Runs

A `Request` is anything that a user of the machine can ask of it, and a history is a list of
requests carried out one after the other, refused ones included. `Machine.Reachable` holds of the
machines that some history leads to.
-/

namespace Chip8

/-- What a machine can be asked to do. -/
inductive Request where
  | cycle
  | load (rom : List UInt8)
  | reset
  | putKey (key : UInt8) (down : Bool)
  deriving DecidableEq, Repr

namespace Machine

/-- The machine after a request, granted or refused. -/
def after (m : Machine) : Request → Machine
  | .cycle => m.cycle.machine
  | .load rom => (m.load rom).machine
  | .reset => m.reset.machine
  | .putKey key down => (m.putKey key down).machine

def afterAll (m : Machine) (rs : List Request) : Machine := rs.foldl after m

/-- The machines that a history passes through, the first and the last among them. -/
def trace (m : Machine) : List Request → List Machine
  | [] => [m]
  | r :: rs => m :: (m.after r).trace rs

/-- The machines that some history leads to, with any random source. -/
inductive Reachable : Machine → Prop where
  | powerOn (random : RandomSource) : Reachable (Machine.powerOn random)
  | after {m : Machine} (h : Reachable m) (r : Request) : Reachable (m.after r)

theorem reachable_iff {m : Machine} :
    m.Reachable ↔ ∃ random rs, m = (Machine.powerOn random).afterAll rs := by
  constructor
  · intro h
    induction h with
    | powerOn random => exact ⟨random, [], rfl⟩
    | after _ r ih =>
      obtain ⟨random, rs, rfl⟩ := ih
      exact ⟨random, rs ++ [r], by simp [afterAll]⟩
  · rintro ⟨random, rs, rfl⟩
    suffices h : ∀ m : Machine, m.Reachable → (m.afterAll rs).Reachable from h _ (.powerOn random)
    induction rs with
    | nil => exact fun _ h => h
    | cons r rs ih => exact fun m h => ih _ (h.after r)

end Machine

end Chip8
