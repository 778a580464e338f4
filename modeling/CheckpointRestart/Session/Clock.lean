/-! # Clocks

A clock tells the time since the epoch, which names runs, and the time on a monotonic scale, of
which only differences matter. Any reading may fail. What the readings will be is part of the
clock, so that a run is a function of its clock.
-/

namespace CheckpointRestart

structure Clock where
  /-- The readings of the time since the epoch, in microseconds. -/
  epochs : Nat → Option UInt64
  /-- The readings of the monotonic time, in nanoseconds. -/
  times : Nat → Option Nat
  epochsRead : Nat := 0
  timesRead : Nat := 0

namespace Clock

/-- A clock that stands still, but whose epoch readings are all different. -/
def still (epoch : UInt64) : Clock where
  epochs n := some (epoch + .ofNat n)
  times _ := some 0

/-- A clock whose monotonic time grows by `tick` with every reading and, if a limit is given, fails
after that many readings. -/
def ticking (epoch : UInt64) (tick : Nat) (limit : Option Nat) : Clock where
  epochs n := some (epoch + .ofNat n)
  times n := if limit.any (· ≤ n) then none else some (n * tick)

def readEpoch (c : Clock) : Option UInt64 × Clock :=
  (c.epochs c.epochsRead, { c with epochsRead := c.epochsRead + 1 })

def readTime (c : Clock) : Option Nat × Clock :=
  (c.times c.timesRead, { c with timesRead := c.timesRead + 1 })

def advance (c : Clock) (nanoseconds : Nat) : Clock :=
  { c with times := fun n => (c.times n).map (· + nanoseconds) }

def stop (c : Clock) : Clock :=
  { c with epochs := fun _ => none, times := fun _ => none }

end Clock

end CheckpointRestart
