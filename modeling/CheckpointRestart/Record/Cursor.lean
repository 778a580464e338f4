import CheckpointRestart.Record.Error
import CheckpointRestart.Storage.Basic

/-! # Reading checkpoint files

A cursor stands somewhere in the bytes of a file. Every step either consumes exactly what it reads
or fails.
-/

namespace CheckpointRestart

structure Cursor where
  rest : Bytes
  /-- How many bytes stand before the rest. -/
  offset : Nat
  deriving DecidableEq, Repr

abbrev ReadRecord := StateT Cursor (Except FormatError)

namespace Cursor

def ofBytes (bytes : Bytes) : Cursor :=
  ⟨bytes, 0⟩

def advance (c : Cursor) (n : Nat) : Cursor :=
  ⟨c.rest.drop n, c.offset + n⟩

/-- The bytes of a text of ASCII characters. -/
def ascii (s : List Char) : Bytes :=
  s.map fun c => .ofNat c.toNat

def lineFeed : UInt8 :=
  0x0a

def expect (bytes : Bytes) (mark : Mark) : ReadRecord Unit := do
  let c ← get
  if bytes.isPrefixOf c.rest then
    set (c.advance bytes.length)
  else
    throw (.expected mark c.offset)

def skip (byte : UInt8) : ReadRecord Unit :=
  modify fun c => if c.rest.head? = some byte then c.advance 1 else c

def isDigit (b : UInt8) : Bool :=
  0x30 ≤ b && b ≤ 0x39

/-- The number that a list of digits writes. -/
def digitsValue (digits : Bytes) : Nat :=
  digits.foldl (fun n d => 10 * n + (d.toNat - 0x30)) 0

/-- Reads all the digits that come next, at least one, as a 64-bit number. -/
def number : ReadRecord UInt64 := do
  let c ← get
  let digits := c.rest.takeWhile isDigit
  let n := digitsValue digits
  if digits.isEmpty || UInt64.size ≤ n then
    throw (.invalidNumber c.offset)
  set (c.advance digits.length)
  return .ofNat n

def numberLine : ReadRecord UInt64 := do
  let n ← number
  expect [lineFeed] .endOfLine
  return n

def take (n : Nat) : ReadRecord Bytes := do
  let c ← get
  if c.rest.length < n then
    throw (.truncatedPayload n c.rest.length)
  set (c.advance n)
  return c.rest.take n

def atEnd : ReadRecord Unit := do
  let c ← get
  unless c.rest.isEmpty do
    throw (.trailingBytes c.rest.length)

end Cursor

def ReadRecord.all {α : Type} (read : ReadRecord α) (bytes : Bytes) : Except FormatError α := do
  let (a, _) ← (do let a ← read; Cursor.atEnd; return a : ReadRecord α) (.ofBytes bytes)
  return a

end CheckpointRestart
