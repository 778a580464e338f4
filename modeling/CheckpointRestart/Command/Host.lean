import CheckpointRestart.Session.Clock
import CheckpointRestart.Storage.FileTree

/-! # The surroundings of a command

What a command needs from the system it runs on. Failures are given by their texts.
-/

namespace CheckpointRestart

class Host (m : Type → Type) where
  readFile : Path → m (Except String Bytes)
  writeFile : Path → Bytes → m (Except String Unit)
  /-- Writes to standard output. -/
  say : String → m Unit
  /-- Writes to standard error. -/
  complain : String → m Unit
  /-- The interval asked for by the environment. -/
  interval : m (Option String)
  /-- The present time. -/
  clock : m Clock
  /-- The directory that holds the checkpoints. -/
  checkpoints : Path → m Subtree
  /-- Makes what has been written to the directory last. -/
  keep : Subtree → m Unit

/-- A part of a command that may end it early has the same surroundings. -/
instance {ε : Type} {m : Type → Type} [Monad m] [Host m] : Host (ExceptT ε m) where
  readFile p := ExceptT.lift (Host.readFile p)
  writeFile p contents := ExceptT.lift (Host.writeFile p contents)
  say text := ExceptT.lift (Host.say text)
  complain text := ExceptT.lift (Host.complain text)
  interval := ExceptT.lift Host.interval
  clock := ExceptT.lift Host.clock
  checkpoints root := ExceptT.lift (Host.checkpoints root)
  keep storage := ExceptT.lift (Host.keep storage)

end CheckpointRestart
