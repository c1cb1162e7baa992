import Chip8.Opcode.Encode
import Chip8.Machine.Run
import Chip8.Display.Lemmas
import Chip8.Runner.Run
import Chip8.Main
import Chip8.Proofs.Machine.Effect
import Chip8.Proofs.Machine.Invariant
import Chip8.Proofs.Machine.Fault
import Chip8.Proofs.Host.Picture
import Chip8.Proofs.Machine.Atomicity
import Chip8.Proofs.Runner.Slicing
import Chip8.Proofs.Machine.WriteSet
import Chip8.Proofs.Machine.ControlFlow
import Chip8.Proofs.Machine.Nesting
import Chip8.Proofs.Machine.Countdown
import Chip8.Proofs.Machine.Log
import Chip8.Proofs.Machine.RandomStream
import Chip8.Proofs.Runner.Restart
import Chip8.Proofs.Host.Request
import Chip8.Proofs.Host.Keyboard
import Chip8.Proofs.Host.FrameClock
import Chip8.Proofs.Host.Failing
import Chip8.Proofs.Host.Ending
import Chip8.Proofs.Runner.Pacing
import Chip8.Proofs.Opcode.Patterns
import Chip8.Proofs.Runner.Binary64
import Chip8.Proofs.Runner.Pausing
import Chip8.Proofs.Runner.SpeedRange
import Chip8.Proofs.Machine.Drawing
import Chip8.Proofs.Machine.Arithmetic
import Chip8.Proofs.Machine.KeyWait
import Chip8.Proofs.Runner.Rounding
import Chip8.Proofs.Runner.Counting
import Chip8.Proofs.Machine.Compositing
import Chip8.Proofs.Machine.SavedRegisters
import Chip8.Proofs.Machine.Provenance
import Chip8.Proofs.Machine.Interleaving
