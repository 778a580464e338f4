import CheckpointRestart.Command.Perform

/-! # A simulated host

A host that is a plain value: a file tree, an environment variable, the texts written so far, and
a clock that moves on a little with every reading.
-/

namespace CheckpointRestart

structure Simulation where
  tree : FileTree
  interval : Option String
  /-- What has been written to standard output. -/
  said : String
  /-- What has been written to standard error. -/
  complaints : String
  /-- The present time since the epoch, in microseconds. -/
  epoch : UInt64
  /-- The present monotonic time, in microseconds. -/
  elapsed : Nat

namespace Simulation

def readFile (s : Simulation) (p : Path) : Except String Bytes :=
  (s.tree.read p).mapError SystemFault.message

def writeFile (s : Simulation) (p : Path) (contents : Bytes) : Except String Unit × Simulation :=
  match s.tree.write p contents with
  | .ok tree => (.ok (), { s with tree })
  | .error fault => (.error fault.message, s)

def readClock (s : Simulation) : Clock × Simulation :=
  let clock : Clock :=
    { epochs := fun n => some (s.epoch + .ofNat n), times := fun _ => some (s.elapsed * 1000) }
  (clock, { s with epoch := s.epoch + 1, elapsed := s.elapsed + 1 })

instance : Host (StateM Simulation) where
  readFile p := return (← get).readFile p
  writeFile p contents := modifyGet (·.writeFile p contents)
  say text := modify fun s => { s with said := s.said ++ text }
  complain text := modify fun s => { s with complaints := s.complaints ++ text }
  interval := return (← get).interval
  clock := modifyGet readClock
  checkpoints root := return ⟨root, (← get).tree⟩
  keep storage := modify fun s => { s with tree := storage.tree }

def perform (args : List String) (s : Simulation) : UInt8 × Simulation :=
  (Command.perform args : StateM Simulation UInt8) s

end Simulation

end CheckpointRestart
