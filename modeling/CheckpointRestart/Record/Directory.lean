import CheckpointRestart.Record.Entry
import CheckpointRestart.Text.Affix
import CheckpointRestart.Text.Decimal

/-! # Checkpoint directories

Every run writes into a directory of its own, named by a fixed stem and the time the run began.
Its checkpoints are directories in there, named by their ordinals. A checkpoint has a file with
its info record and a file for each entry, named by the number of the entry.
-/

namespace CheckpointRestart

def runName (stem : String) (epoch : UInt64) : String :=
  stem ++ toString epoch.toNat

def runEpoch? (stem name : String) : Option UInt64 :=
  (Text.afterStart? stem name.toList).bind Text.plainUInt64?

/-- The ordinal that the name of a checkpoint directory is. -/
def ordinal? (name : String) : Option UInt64 :=
  Text.plainUInt64? name.toList

def infoPath (checkpoint : Path) : Path :=
  checkpoint.join "info"

def entryPath (checkpoint : Path) (index : Nat) : Path :=
  checkpoint.join (toString index)

variable {σ : Type} [Storage σ]

/-- The numbers in the names of the directories inside a directory, the greatest first. A
directory that cannot be listed has none. -/
def numbersIn (storage : σ) (directory : Path) (number? : String → Option UInt64) :
    List UInt64 :=
  match Storage.directoriesIn directory storage with
  | .ok names => (names.filterMap number?).mergeSort fun a b => b ≤ a
  | .error _ => []

/-- The checkpoints in the order in which a restart tries them: the newest run first, and the
newest checkpoint of a run first. -/
def checkpoints (storage : σ) (stem : String) : List Path :=
  (numbersIn storage .top (runEpoch? stem)).flatMap fun epoch =>
    let run : Path := ⟨runName stem epoch⟩
    (numbersIn storage run ordinal?).map fun ordinal => run.join (toString ordinal.toNat)

def readRecordFile (storage : σ) (path : Path) : Except FormatError Bytes :=
  (Storage.read path storage).mapError fun _ => .missingFile path

/-- Checks `remaining` entries from number `index` on. -/
def validateEntries (storage : σ) (checkpoint : Path) :
    (remaining index : Nat) → Except FormatError Unit
  | 0, _ => .ok ()
  | remaining + 1, index => do
    let entry ← Entry.decode (← readRecordFile storage (entryPath checkpoint index))
    match entry.body with
    | .sameAs target =>
      if index ≤ target.toNat then
        throw (.forwardAlias index target)
    | .data _ => pure ()
    validateEntries storage checkpoint remaining (index + 1)

/-- Checks a whole checkpoint: its info record and every entry that it announces. An entry may
only refer to one before it. -/
def validateCheckpoint (storage : σ) (checkpoint : Path) : Except FormatError Info := do
  let info ← Info.decode (← readRecordFile storage (infoPath checkpoint))
  validateEntries storage checkpoint info.count.toNat 0
  return info

end CheckpointRestart
