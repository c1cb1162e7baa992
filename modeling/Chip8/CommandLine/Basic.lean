/-!
# What a command line asks for

The path of the program and three settings, or the reason why there is nothing to run.
-/

namespace Chip8

/-- Why a command line was refused. -/
inductive Refusal where
  | missingPath
  /-- An option without its value, or an empty path. -/
  | missingValue
  /-- A value that does not stand for a number in range. -/
  | badValue
  /-- A value for an option that takes none. -/
  | unwantedValue
  /-- An option given twice. -/
  | repeated
  /-- An option that does not exist, or a second path. -/
  | unknown
  | help
  deriving DecidableEq, Repr

/-- What a caller is told whose command line was refused. -/
def Refusal.message : Refusal → String
  | .missingPath => "the path of a program is required"
  | .missingValue => "a value is required"
  | .badValue => "a value is not a number in range"
  | .unwantedValue => "the option takes no value"
  | .repeated => "an option was given twice"
  | .unknown => "unexpected argument"
  | .help => "usage: chip8 [--speed HZ] [--seed NUMBER] [--scale NUMBER] ROM_PATH"

/-- What a command line asks for. -/
structure Options where
  romPath : String
  /-- Instructions per second, as given. -/
  speed : Float
  seed : Option UInt64
  /-- The size of a display cell in the window. -/
  scale : UInt32

end Chip8
