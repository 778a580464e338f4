import CheckpointRestart.Record.Error
import CheckpointRestart.Storage.Basic

/-! # Faults of a restart -/

namespace CheckpointRestart

inductive EntryKind where
  | data
  | reference
  deriving DecidableEq, Repr

namespace EntryKind

def text : EntryKind → String
  | data => "data"
  | reference => "alias"

end EntryKind

/-- Why an entry could not be restored. A restart cannot fall back once it has begun, so each of
these ends the run. -/
inductive RestoreError where
  | noActiveRestart
  | unreadable (path : Path) (cause : StorageError)
  | malformed (path : Path) (cause : FormatError)
  | unexpectedKind (index : Nat) (expected : EntryKind)
  | shapeMismatch (index : Nat) (width count foundWidth foundCount : UInt64)
  | bufferTooSmall (index needed available : Nat)
  | danglingAlias (index : Nat) (target : UInt64)
  /-- An access beyond the end of a buffer. Nothing that has been decoded leads to one. -/
  | outOfRange
  deriving DecidableEq, Repr

namespace RestoreError

def message : RestoreError → String
  | noActiveRestart => "no checkpoint has been selected for restart"
  | unreadable path cause => "could not read `" ++ path.text ++ "`: " ++ cause.message
  | malformed path cause =>
    "malformed checkpoint entry `" ++ path.text ++ "`: " ++ cause.message
  | unexpectedKind index kind =>
    "entry " ++ toString index ++ ": expected " ++ kind.text ++ " entry"
  | shapeMismatch index width count foundWidth foundCount =>
    "entry " ++ toString index ++ ": shape mismatch, checkpoint holds " ++
      toString foundWidth.toNat ++ " bits x " ++ toString foundCount.toNat ++
      " but restart expects " ++ toString width.toNat ++ " bits x " ++ toString count.toNat
  | bufferTooSmall index needed available =>
    "entry " ++ toString index ++ ": destination buffer of " ++ toString available ++
      " bytes is too small for " ++ toString needed
  | danglingAlias index target =>
    "entry " ++ toString index ++ ": alias index " ++ toString target.toNat ++
      " has no restored address"
  | outOfRange => "access beyond the end of a buffer"

end RestoreError

end CheckpointRestart
