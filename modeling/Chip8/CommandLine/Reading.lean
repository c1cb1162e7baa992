import Chip8.CommandLine.Basic
import Chip8.CommandLine.Shape
import Chip8.Decimal.Reader
import Chip8.Runner.Clock

/-!
# Reading the command line

The arguments are taken from the left. A path, and an option whose value is an argument of its
own, are held back when they are taken and judged when the next option or path comes, or at the
end. An argument that no rule covers is refused at once: an option that does not exist, a second
path, a value for `--help`. So it comes before a fault in what is held back. A value attached to
its option is judged with it. After `--` every argument is a path.
-/

namespace Chip8

namespace CommandLine

def seed? (value : String) : Option UInt64 :=
  ((Text.natural? value).bind (Text.below? UInt64.size)).map UInt64.ofFin

/-- The scale that a text stands for. It is read as an integer, so zero may have a minus sign. -/
def scale? (value : String) : Option UInt32 :=
  (((Text.integer? value).bind Int.toNat?).bind (Text.below? UInt32.size)).map UInt32.ofFin

/-- What has been judged and found right. -/
structure Draft where
  romPath : Option String
  speed : Option Float
  seed : Option UInt64
  scale : Option UInt32

namespace Draft

def empty : Draft := ⟨none, none, none, none⟩

def has (d : Draft) : Key → Bool
  | .speed => d.speed.isSome
  | .seed => d.seed.isSome
  | .scale => d.scale.isSome

/-- Judges an option's value. That the option is new comes before what the value says. -/
def put (d : Draft) (k : Key) (value : String) : Except Refusal Draft :=
  if d.has k then .error .repeated
  else
    match k with
    | .speed =>
      match Decimal.read? value with
      | some s => .ok { d with speed := some s }
      | none => .error .badValue
    | .seed =>
      match seed? value with
      | some n => .ok { d with seed := some n }
      | none => .error .badValue
    | .scale =>
      match scale? value with
      | some n => .ok { d with scale := some n }
      | none => .error .badValue

def putPath (d : Draft) (path : String) : Except Refusal Draft :=
  if path = "" then .error .missingValue else .ok { d with romPath := some path }

/-- The options, with defaults for those not given. -/
def finish (d : Draft) : Except Refusal Options :=
  match d.romPath with
  | some path => .ok ⟨path, d.speed.getD (Speed.default Float), d.seed, d.scale.getD 10⟩
  | none => .error .missingPath

end Draft

/-- What has been taken and not judged. -/
inductive Held where
  | nothing
  | path (text : String)
  /-- An option, and its value if that has come. -/
  | option (k : Key) (value : Option String)
  deriving DecidableEq, Repr

/-- A command line, part of which has been taken. -/
structure Reading where
  draft : Draft
  held : Held

namespace Reading

def empty : Reading := ⟨.empty, .nothing⟩

def hasPath (r : Reading) : Bool :=
  match r.held with
  | .path _ => true
  | _ => r.draft.romPath.isSome

/-- Judges what is held back. -/
def settle (r : Reading) : Except Refusal Draft :=
  match r.held with
  | .nothing => .ok r.draft
  | .path text => r.draft.putPath text
  | .option _ none => .error .missingValue
  | .option k (some value) => r.draft.put k value

def path (r : Reading) (text : String) : Except Refusal Reading :=
  if r.hasPath then .error .unknown
  else
    match r.settle with
    | .ok d => .ok ⟨d, .path text⟩
    | .error e => .error e

/-- Takes an option, with the value attached to it. -/
def option (r : Reading) (k : Key) (value : Option String) : Except Refusal Reading :=
  match r.settle, value with
  | .error e, _ => .error e
  | .ok d, none => .ok ⟨d, .option k none⟩
  | .ok d, some value =>
    match d.put k value with
    | .ok d => .ok ⟨d, .nothing⟩
    | .error e => .error e

/-- Takes the request for help. -/
def help (r : Reading) : Refusal :=
  match r.settle with
  | .ok _ => .help
  | .error e => e

/-- Takes an argument that is no option: a value if one is awaited, or else a path. -/
def plain (r : Reading) (text : String) : Except Refusal Reading :=
  match r.held with
  | .option k none => .ok { r with held := .option k (some text) }
  | _ => r.path text

/-- Takes arguments that are all paths. -/
def paths (r : Reading) : List String → Except Refusal Reading
  | [] => .ok r
  | text :: rest =>
    match r.path text with
    | .ok r => r.paths rest
    | .error e => .error e

/-- Takes arguments from the left. -/
def read (r : Reading) : List String → Except Refusal Reading
  | [] => .ok r
  | arg :: rest =>
    match shape arg with
    | .terminator => r.paths rest
    | .unknown => .error .unknown
    | .flag .help none => .error r.help
    | .flag .help (some _) => .error .unwantedValue
    | .flag (.key k) value =>
      match r.option k value with
      | .ok r => r.read rest
      | .error e => .error e
    | .plain text =>
      match r.plain text with
      | .ok r => r.read rest
      | .error e => .error e

/-- Judges what is still held back, and then whether there is all that is needed. -/
def finish (r : Reading) : Except Refusal Options :=
  match r.settle with
  | .ok d => d.finish
  | .error e => .error e

end Reading

end CommandLine

/-- Reads the arguments after the program's name. -/
def Options.ofArguments (args : List String) : Except Refusal Options :=
  match CommandLine.Reading.empty.read args with
  | .ok r => r.finish
  | .error e => .error e

end Chip8
