import CheckpointRestart.Command.Perform
import Std.Time.DateTime.Timestamp

/-! # The program

The command line on the real system. The run directories are read before the command begins, and
what it adds to them is written as soon as it is to be kept. A checkpoint that cannot be written
does not disturb the run.
-/

namespace CheckpointRestart

/-- The run directories as they are on disk, below the directory they are in. -/
structure Disk where
  root : Path
  known : FileTree
  deriving Inhabited

namespace Disk

/-- The error number of a failure that has to do with a path. Some calls give it negated. -/
def number? : IO.Error → Option UInt32
  | .noFileOrDirectory _ code _ | .alreadyExists _ code _ | .inappropriateType _ code _
  | .invalidArgument _ code _ => some (if code < 0x80000000 then code else 0 - code)
  | _ => none

def describe (e : IO.Error) : String :=
  match number? e with
  | some 2 => SystemFault.noEntry.message
  | some 17 => SystemFault.alreadyExists.message
  | some 20 => SystemFault.notDirectory.message
  | some 21 => SystemFault.isDirectory.message
  | some 36 => SystemFault.nameTooLong.message
  | _ => toString e

def attempt {α : Type} (act : IO α) : IO (Except String α) := do
  try
    return .ok (← act)
  catch e =>
    return .error (describe e)

/-- Reads a directory entry and what is in it, down to a depth that holds every checkpoint. -/
def load (entry : IO.FS.DirEntry) (place : List String) : Nat → FileTree → IO FileTree
  | 0, t => return t
  | depth + 1, t => do
    if ← entry.path.isDir then
      (← entry.path.readDir).foldlM (fun t inner => load inner (place ++ [inner.fileName]) depth t)
        (t.put place .directory)
    else
      return t.put place (.file (← IO.FS.readBinFile entry.path).toList)

def loadRuns (root : Path) : IO FileTree := do
  let top ← IO.FS.realPath (if root.text.isEmpty then "." else root.text)
  let runs := (← top.readDir).filter fun e => e.fileName.startsWith Settings.default.stem
  runs.foldlM (fun t e => load e [e.fileName] 3 t) ∅

/-- Writes a node of the tree, for the owner alone if it is a directory. -/
def put (root : Path) (place : List String) (node : FileNode) : IO Unit := do
  let path := (root.join (String.intercalate "/" place)).text
  match node with
  | .file contents => IO.FS.writeBinFile path ⟨contents.toArray⟩
  | .directory =>
    IO.FS.createDir path
    IO.setAccessRights path { user := { read := true, write := true, execution := true } }

/-- The time now, as the only reading of a clock. -/
def clock : IO Clock := do
  let epoch := (← Std.Time.Timestamp.now).toNanosecondsSinceUnixEpoch.val / 1000
  let time ← IO.monoNanosNow
  return { epochs := fun _ => some (.ofNat epoch.toNat), times := fun _ => some time }

instance : Host (StateT Disk IO) where
  readFile p := attempt do return (← IO.FS.readBinFile p.text).toList
  writeFile p contents := attempt (IO.FS.writeBinFile p.text ⟨contents.toArray⟩)
  say text := do
    let out ← IO.getStdout
    out.putStr text
    out.flush
  complain text := do
    (← IO.getStderr).putStr text
  interval := IO.getEnv "AUTOCR_CHECKPOINT_INTERVAL"
  clock := clock
  checkpoints root := do
    match ← attempt (loadRuns root) with
    | .ok known =>
      set (⟨root, known⟩ : Disk)
      return ⟨⟨"."⟩, known⟩
    | .error _ => return ⟨root, ∅⟩
  keep storage := do
    let disk ← get
    for (place, node) in storage.tree.nodes.toList do
      if disk.known.nodes[place]? ≠ some node then
        let _ ← attempt (put disk.root place node)
    set { disk with known := storage.tree }

end Disk

end CheckpointRestart

open CheckpointRestart in
def main (args : List String) : IO UInt32 := do
  let (code, _) ← (Command.perform args : StateT Disk IO UInt8).run default
  return code.toUInt32
