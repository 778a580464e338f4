import CheckpointRestart.Storage.Path

/-! # Storages

A storage holds directories and files. Its paths are relative to its top. Operations that fail
leave it as it was.
-/

namespace CheckpointRestart

abbrev Bytes := List UInt8

/-- What an operating system reports about a path. -/
inductive SystemFault where
  | noEntry
  | alreadyExists
  | notDirectory
  | isDirectory
  /-- A name or the whole path has too many bytes. -/
  | nameTooLong
  /-- The path has a zero byte, which ends it for the system. -/
  | zeroByte
  deriving DecidableEq, Repr

namespace SystemFault

def message : SystemFault → String
  | noEntry => "No such file or directory (os error 2)"
  | alreadyExists => "File exists (os error 17)"
  | notDirectory => "Not a directory (os error 20)"
  | isDirectory => "Is a directory (os error 21)"
  | nameTooLong => "File name too long (os error 36)"
  | zeroByte => "file name contained an unexpected NUL byte"

end SystemFault

inductive StorageError where
  /-- An in-memory storage has nothing at the path, or no place for it. -/
  | missing (path : Path)
  /-- An in-memory storage already has something at the path. -/
  | occupied (path : Path)
  | system (fault : SystemFault)
  deriving DecidableEq, Repr

namespace StorageError

def message : StorageError → String
  | missing p => "`" ++ p.text ++ "` does not exist"
  | occupied p => "`" ++ p.text ++ "` already exists"
  | system fault => fault.message

end StorageError

/-- What checkpoints are written to and read from. -/
class Storage (σ : Type) where
  /-- Creates a directory. Its parent must exist and nothing may have its path. -/
  createDirectory : Path → σ → Except StorageError σ
  /-- Creates or replaces a file. -/
  write : Path → Bytes → σ → Except StorageError σ
  read : Path → σ → Except StorageError Bytes
  /-- The names of the directories right inside a directory, in no particular order. -/
  directoriesIn : Path → σ → Except StorageError (List String)
  contains : Path → σ → Bool

end CheckpointRestart
