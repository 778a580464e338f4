import CheckpointRestart.Record.Directory
import CheckpointRestart.Session.Clock
import CheckpointRestart.Session.Error
import CheckpointRestart.Session.Settings

/-! # Checkpointing sessions

A session is what an instrumented function talks to: it writes checkpoints to a storage and reads
the newest valid one back. Writing never fails visibly. If a run cannot be set up or the clock
fails, the session is disabled; if anything goes wrong during an attempt, the attempt is skipped.
Reading back fails with an error, because a restart that has begun cannot be undone.
-/

namespace CheckpointRestart

/-- A checkpoint being written. -/
structure Attempt where
  directory : Path
  /-- The number of entries written so far. -/
  written : Nat
  /-- Nothing more is written, and the attempt does not count as a checkpoint. -/
  skipped : Bool
  deriving DecidableEq, Repr

/-- A checkpoint being read back. -/
structure Restart (α : Type) where
  directory : Path
  /-- The addresses of the entries read so far. -/
  addresses : Array α
  deriving DecidableEq, Repr

structure SessionStats where
  /-- Attempts that wrote a checkpoint. -/
  performed : Nat := 0
  /-- Attempts that did not. -/
  skipped : Nat := 0
  /-- Entries read back. -/
  restored : Nat := 0
  deriving DecidableEq, Repr, Inhabited

/-- A session over addresses of type `α` and a storage of type `σ`. -/
structure Session (α σ : Type) where
  settings : Settings
  storage : σ
  clock : Clock
  enabled : Bool
  /-- The directory of this run. -/
  base : Option Path
  /-- The number of attempts ended in this run. -/
  ordinal : Nat
  /-- When the interval began, in nanoseconds. -/
  intervalStart : Nat
  attempt : Option Attempt
  restart : Option (Restart α)
  stats : SessionStats

/-- An address that an alias may be equal to, and the number of its entry. -/
structure Candidate (α : Type) where
  width : UInt64
  count : UInt64
  index : UInt64
  address : α
  deriving DecidableEq, Repr

/-- A session and the buffer that it reads an entry into. -/
structure Reading (α σ : Type) where
  session : Session α σ
  buffer : Bytes

/-- Calls that read entries back. What a call has changed before it fails stays changed. -/
abbrev RestoreM := EStateM RestoreError

/-- The answer of a call, and the state as the call leaves it. -/
def RestoreM.perform {ρ β : Type} (call : RestoreM ρ β) (s : ρ) : Except RestoreError β × ρ :=
  match call.run s with
  | .ok b s => (.ok b, s)
  | .error e s => (.error e, s)

namespace Session

variable {α σ : Type}

def new (settings : Settings) (storage : σ) (clock : Clock) : Session α σ where
  settings
  storage
  clock
  enabled := false
  base := none
  ordinal := 0
  intervalStart := 0
  attempt := none
  restart := none
  stats := {}

def disable (s : Session α σ) : Session α σ :=
  { s with enabled := false }

def readTime (s : Session α σ) : Option Nat × Session α σ :=
  let (time, clock) := s.clock.readTime
  (time, { s with clock })

/-- The checkpoint being read back. -/
def restarting (s : Session α σ) : Option Path :=
  s.restart.map (·.directory)

section Saving

variable [Storage σ]

/-- Creates the directory of the run and begins the interval. -/
def setup (s : Session α σ) : Session α σ :=
  let (epoch, clock) := s.clock.readEpoch
  let (time, clock) := clock.readTime
  let s := { s with clock }
  match epoch, time with
  | some epoch, some time =>
    let base : Path := ⟨runName s.settings.stem epoch⟩
    match Storage.createDirectory base s.storage with
    | .error _ => s.disable
    | .ok storage =>
      { s with storage, base := some base, ordinal := 0, intervalStart := time, enabled := true }
  | _, _ => s.disable

/-- Creates the directory of a checkpoint and its info record. The directory stays if the record
cannot be written. -/
def openCheckpoint (storage : σ) (directory : Path) (info : Info) : Bool × σ :=
  match Storage.createDirectory directory storage with
  | .error _ => (false, storage)
  | .ok storage =>
    match Storage.write (infoPath directory) info.encode storage with
    | .error _ => (false, storage)
    | .ok storage => (true, storage)

/-- Begins an attempt, unless the interval has not passed yet: then the attempt is skipped. -/
def start (s : Session α σ) (label count : UInt64) : Session α σ :=
  match s.enabled, s.base with
  | true, some base =>
    let directory := base.join (toString s.ordinal)
    match s.readTime with
    | (none, s) => s.disable
    | (some time, s) =>
      if time - s.intervalStart < s.settings.interval then
        { s with attempt := some ⟨directory, 0, true⟩ }
      else
        let (opened, storage) := openCheckpoint s.storage directory ⟨label, count⟩
        { s with storage, attempt := some ⟨directory, 0, !opened⟩ }
  | _, _ => s

/-- The attempt that entries go to. -/
def activeAttempt? (s : Session α σ) : Option Attempt :=
  if s.enabled then s.attempt.filter (!·.skipped) else none

def skipAttempt (s : Session α σ) : Session α σ :=
  { s with attempt := s.attempt.map fun a => { a with skipped := true } }

/-- Writes the next entry, or skips the attempt if there is none to write or it cannot be
written. -/
def saveEntry (s : Session α σ) (entry : Option Entry) : Session α σ :=
  match s.activeAttempt?, entry with
  | none, _ => s
  | some _, none => s.skipAttempt
  | some a, some entry =>
    match Storage.write (entryPath a.directory a.written) entry.encode s.storage with
    | .error _ => s.skipAttempt
    | .ok storage => { s with storage, attempt := some { a with written := a.written + 1 } }

/-- Writes `count` elements of `width` bits from the start of `memory`. -/
def savePointer (s : Session α σ) (width count : UInt64) (memory : Bytes) : Session α σ :=
  s.saveEntry (Entry.ofMemory width count memory).toOption

/-- Writes that `address` is the address of the first candidate equal to it. -/
def saveAlias [DecidableEq α] (s : Session α σ) (width count : UInt64) (address : α)
    (candidates : List (Candidate α)) : Session α σ :=
  s.saveEntry ((candidates.find? (·.address = address)).map fun c =>
    ⟨width, count, .sameAs c.index⟩)

end Saving

/-- Ends the attempt and tells whether it wrote a checkpoint; only then a new interval begins. -/
def finish (s : Session α σ) : Bool × Session α σ :=
  match s.enabled, s.attempt with
  | true, some a =>
    let s := { s with attempt := none, ordinal := s.ordinal + 1 }
    if a.skipped then
      (false, { s with stats := { s.stats with skipped := s.stats.skipped + 1 } })
    else
      let s := { s with stats := { s.stats with performed := s.stats.performed + 1 } }
      match s.readTime with
      | (some time, s) => (true, { s with intervalStart := time })
      | (none, s) => (true, s.disable)
  | _, _ => (false, s)

section Restoring

variable [Storage σ]

def newestValid (storage : σ) : List Path → Option (Path × Info)
  | [] => none
  | directory :: rest =>
    match validateCheckpoint storage directory with
    | .ok info => some (directory, info)
    | .error _ => newestValid storage rest

/-- Selects the newest valid checkpoint for a restart and returns its label. -/
def restartLabel (s : Session α σ) : Option UInt64 × Session α σ :=
  match newestValid s.storage (checkpoints s.storage s.settings.stem) with
  | some (directory, info) => (some info.label, { s with restart := some ⟨directory, #[]⟩ })
  | none => (none, s)

/-- The next entry of the restart, which must have the given shape. -/
def nextEntry (s : Session α σ) (width count : UInt64) :
    Except RestoreError (Restart α × EntryBody) := do
  match s.restart with
  | none => throw .noActiveRestart
  | some r =>
    let index := r.addresses.size
    let path := entryPath r.directory index
    let bytes ← (Storage.read path s.storage).mapError (.unreadable path)
    let entry ← (Entry.decode bytes).mapError (.malformed path)
    if entry.width ≠ width ∨ entry.count ≠ count then
      throw (.shapeMismatch index width count entry.width entry.count)
    return (r, entry.body)

/-- Records that the next entry has been restored to `address`. -/
def recordRestored (s : Session α σ) (r : Restart α) (address : α) : Session α σ :=
  { s with
    restart := some { r with addresses := r.addresses.push address }
    stats := { s.stats with restored := s.stats.restored + 1 } }

/-- Copies the first `bits` bits of a payload into the buffer. -/
def copyPayload (payload : Bytes) (bits : UInt64) : RestoreM (Reading α σ) Unit := do
  match restorePayload (← get).buffer payload bits.toNat with
  | some buffer => modify fun t => { t with buffer }
  | none => throw .outOfRange

/-- Reads the next entry, which must hold data, into the buffer, which is at `address`. -/
def readPointer (width count : UInt64) (address : α) : RestoreM (Reading α σ) Unit := do
  let (r, body) ← MonadExcept.ofExcept ((← get).session.nextEntry width count)
  let index := r.addresses.size
  match body with
  | .sameAs _ => throw (.unexpectedKind index .data)
  | .data payload =>
    let room := (← get).buffer.length
    if room < payload.length then
      throw (.bufferTooSmall index payload.length room)
    copyPayload payload (width * count)
    modify fun t => { t with session := t.session.recordRestored r address }

/-- Reads the next entry, which must refer to an earlier one, and returns the address of that. -/
def readAlias (width count : UInt64) : RestoreM (Session α σ) α := do
  let (r, body) ← MonadExcept.ofExcept ((← get).nextEntry width count)
  let index := r.addresses.size
  match body with
  | .data _ => throw (.unexpectedKind index .reference)
  | .sameAs target =>
    match r.addresses[target.toNat]? with
    | none => throw (.danglingAlias index target)
    | some address =>
      modify (·.recordRestored r address)
      return address

end Restoring

/-- Ends a restart. A new interval begins here. -/
def restartFinish (s : Session α σ) : Session α σ :=
  let s := { s with restart := none }
  match s.readTime with
  | (some time, s) => { s with intervalStart := time }
  | (none, s) => s

end Session

end CheckpointRestart
