import CheckpointRestart.Number.Literal
import CheckpointRestart.Text.Blank

/-! # Settings of a session -/

namespace CheckpointRestart

open Number

structure Settings where
  /-- The least time between two checkpoints, in nanoseconds. -/
  interval : Nat
  /-- What the names of run directories start with. -/
  stem : String
  deriving DecidableEq, Repr

namespace Settings

def nanosecondsPerSecond : Nat :=
  1000000000

/-- A hundred seconds between checkpoints. -/
def default : Settings :=
  ⟨100 * nanosecondsPerSecond, ".autocr_chkpnt-"⟩

/-- Intervals are shorter than this. -/
def intervalBound : Nat :=
  UInt64.size * nanosecondsPerSecond

/-- A number of seconds in double precision as a number of nanoseconds. Only a finite number that
is not negative is one. -/
def nanoseconds? (pattern : Nat) : Option Nat :=
  match Format.double.decode pattern with
  | .finite negative significand exponent =>
    if negative && significand ≠ 0 then none
    else
      let (up, down) := powerOfTwo exponent
      some (roundDiv (significand * up * nanosecondsPerSecond) down)
  | _ => none

/-- Takes the interval from a text, as a number of seconds. A text that gives no interval changes
nothing; there is no result if the interval is out of bounds. -/
def overrideInterval (s : Settings) (text : String) : Option Settings :=
  match (Literal.read? (Text.trim text.toList)).bind fun l => nanoseconds? (l.toBits .double) with
  | none => some s
  | some interval => if interval < intervalBound then some { s with interval } else none

end Settings

end CheckpointRestart
