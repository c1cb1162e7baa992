/-!
# The shapes of arguments

The options are `--speed` (`-s`), `--seed` and `--scale`, and `--help` (`-h`). A long option may
carry a value after `=`. The short one with a value carries it after `=` or right behind the
letter, and `-h` makes nothing of what stands behind it.
-/

namespace Chip8.CommandLine

/-- The options that take a value. -/
inductive Key where
  | speed
  | seed
  | scale
  deriving DecidableEq, Repr

/-- An option, or the request for help. -/
inductive Flag where
  | key (k : Key)
  | help
  deriving DecidableEq, Repr

/-- What an argument looks like, wherever it stands. -/
inductive Shape where
  /-- The mark that only positional arguments follow. -/
  | terminator
  /-- An option or the request for help, with the value attached to it. -/
  | flag (f : Flag) (value : Option String)
  /-- It looks like an option and is none. -/
  | unknown
  /-- A value or a positional argument. -/
  | plain (text : String)
  deriving DecidableEq, Repr

/-- The long name of an option. -/
def longFlag? : String → Option Flag
  | "speed" => some (.key .speed)
  | "seed" => some (.key .seed)
  | "scale" => some (.key .scale)
  | "help" => some .help
  | _ => none

/-- A long option without its dashes. -/
def longShape (cs : List Char) : Shape :=
  let name := String.ofList (cs.takeWhile (· ≠ '='))
  let value :=
    match cs.dropWhile (· ≠ '=') with
    | [] => none
    | _ :: v => some (String.ofList v)
  match longFlag? name with
  | some f => .flag f value
  | none => .unknown

/-- A short option without its dash. -/
def shortShape : List Char → Shape
  | ['s'] => .flag (.key .speed) none
  | 's' :: '=' :: v => .flag (.key .speed) (some (String.ofList v))
  | 's' :: v => .flag (.key .speed) (some (String.ofList v))
  | 'h' :: _ => .flag .help none
  | _ => .unknown

/-- The shape of an argument. A dash alone is plain. -/
def shape (arg : String) : Shape :=
  match arg.toList with
  | ['-', '-'] => .terminator
  | '-' :: '-' :: cs => longShape cs
  | '-' :: c :: cs => shortShape (c :: cs)
  | _ => .plain arg

end Chip8.CommandLine
