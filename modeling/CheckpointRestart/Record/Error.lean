import CheckpointRestart.Storage.Path

/-! # Faults of checkpoint files -/

namespace CheckpointRestart

/-- The fixed parts of a checkpoint file. -/
inductive Mark where
  | tag
  | endOfLine
  | separator
  | endOfPayload
  deriving DecidableEq, Repr

namespace Mark

def text : Mark → String
  | tag => "`alias` tag"
  | endOfLine => "end of line"
  | separator => "separator line"
  | endOfPayload => "end of payload"

end Mark

/-- How a checkpoint breaks its format. Offsets count bytes from the start of the file. -/
inductive FormatError where
  | expected (mark : Mark) (offset : Nat)
  | invalidNumber (offset : Nat)
  | unknownTag (tag : UInt64)
  | truncatedPayload (needed found : Nat)
  | trailingBytes (count : Nat)
  | sizeOverflow (width count : UInt64)
  /-- An entry refers to one that is not written before it. -/
  | forwardAlias (entry : Nat) (index : UInt64)
  | missingFile (path : Path)
  deriving DecidableEq, Repr

namespace FormatError

def message : FormatError → String
  | expected mark offset => "expected " ++ mark.text ++ " at byte " ++ toString offset
  | invalidNumber offset => "invalid number at byte " ++ toString offset
  | unknownTag tag => "unknown entry tag `alias" ++ toString tag.toNat ++ "`"
  | truncatedPayload needed found =>
    "truncated payload: needed " ++ toString needed ++ " bytes, found " ++ toString found
  | trailingBytes count => toString count ++ " trailing bytes after record"
  | sizeOverflow width count =>
    "payload size overflows (" ++ toString width.toNat ++ " bits x " ++ toString count.toNat ++ ")"
  | forwardAlias entry index =>
    "entry " ++ toString entry ++ " aliases entry " ++ toString index.toNat ++
      ", which is not written before it"
  | missingFile path => "missing file `" ++ path.text ++ "`"

end FormatError

end CheckpointRestart
