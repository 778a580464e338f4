import CheckpointRestart.Record.Cursor
import CheckpointRestart.Record.Payload

/-! # Entries and info records

A checkpoint has an info record with its label and the number of its entries, and the entries
themselves. An entry holds either the bytes of a pointer's target or the number of the entry that
has the same address. All numbers are written in decimal, each on a line of its own.
-/

namespace CheckpointRestart

/-- What a checkpoint says about itself. -/
structure Info where
  label : UInt64
  /-- The number of entries. -/
  count : UInt64
  deriving DecidableEq, Repr

inductive EntryBody where
  | data (payload : Bytes)
  /-- The same address as an earlier entry. -/
  | sameAs (index : UInt64)
  deriving DecidableEq, Repr

structure Entry where
  /-- The size of an element in bits. -/
  width : UInt64
  /-- The number of elements. -/
  count : UInt64
  body : EntryBody
  deriving DecidableEq, Repr

def numberLine (n : UInt64) : Bytes :=
  Cursor.ascii (Nat.toDigits 10 n.toNat) ++ [Cursor.lineFeed]

namespace Info

def encode (info : Info) : Bytes :=
  numberLine info.label ++ numberLine info.count

def read : ReadRecord Info := do
  let label ← Cursor.numberLine
  let count ← Cursor.numberLine
  return ⟨label, count⟩

def decode (bytes : Bytes) : Except FormatError Info :=
  read.all bytes

end Info

namespace Entry

/-- The word that every entry starts with. -/
def tagWord : Bytes :=
  Cursor.ascii "alias".toList

/-- The entry that holds the start of `memory`. -/
def ofMemory (width count : UInt64) (memory : Bytes) : Except FormatError Entry := do
  let size ← payloadSize width count
  if memory.length < size then
    throw (.truncatedPayload size memory.length)
  return ⟨width, count, .data (memory.take size)⟩

def encodeBody : EntryBody → Bytes
  | .data payload => payload ++ [Cursor.lineFeed]
  | .sameAs index => numberLine index

def tag : EntryBody → UInt64
  | .data _ => 0
  | .sameAs _ => 1

def encode (e : Entry) : Bytes :=
  tagWord ++ numberLine (tag e.body) ++ numberLine e.width ++ numberLine e.count ++
    [Cursor.lineFeed] ++ encodeBody e.body

def readBody (tag width count : UInt64) : ReadRecord EntryBody := do
  if tag = 0 then
    let size ← payloadSize width count
    let payload ← Cursor.take size
    Cursor.expect [Cursor.lineFeed] .endOfPayload
    return .data payload
  else if tag = 1 then
    return .sameAs (← Cursor.numberLine)
  else
    throw (.unknownTag tag)

/-- Reads an entry. A space may stand between the tag word and the tag. -/
def read : ReadRecord Entry := do
  Cursor.expect tagWord .tag
  Cursor.skip 0x20
  let tag ← Cursor.numberLine
  let width ← Cursor.numberLine
  let count ← Cursor.numberLine
  Cursor.expect [Cursor.lineFeed] .separator
  return ⟨width, count, ← readBody tag width count⟩

def decode (bytes : Bytes) : Except FormatError Entry :=
  read.all bytes

end Entry

end CheckpointRestart
