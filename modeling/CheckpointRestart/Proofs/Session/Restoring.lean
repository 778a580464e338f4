import CheckpointRestart.Proofs.Record.Directory
import CheckpointRestart.Proofs.Record.Grammar
import CheckpointRestart.Proofs.Session.Requests
import CheckpointRestart.Storage.InMemory
import Mathlib.Logic.Relation

/-! # Restoring a valid checkpoint

The check of a checkpoint and a restart read the same files one after the other, each with a state
of its own. What the check lets through can always be read back: every call that takes the next
entry for what it is succeeds. References lead back to entries with data, so that the address of
every entry is one that was given.
-/

namespace CheckpointRestart

variable {α σ : Type} [Storage σ]

/-- One call that reads an entry back. -/
inductive Restore (α : Type) where
  | pointer (width count : UInt64) (address : α) (dest : Bytes)
  | reference (width count : UInt64)

namespace Restore

/-- Reads the next entry back and returns its address, with the session that the call leaves. -/
def perform (s : Session α σ) : Restore α → Except RestoreError α × Session α σ
  | pointer width count address dest =>
    let r := (Session.readPointer width count address).perform ⟨s, dest⟩
    (r.1.map fun _ => address, r.2.session)
  | reference width count => (Session.readAlias width count).perform s

def performAll (s : Session α σ) : List (Restore α) → Except RestoreError (List α × Session α σ)
  | [] => .ok ([], s)
  | x :: rest => do
    let r := x.perform s
    let address ← r.1
    let (addresses, s) ← performAll r.2 rest
    return (address :: addresses, s)

/-- The call takes the entry for what it is, and has room for its data. -/
def Suits (e : Entry) : Restore α → Prop
  | pointer width count _ dest =>
    width = e.width ∧ count = e.count ∧ ∃ payload, e.body = .data payload ∧ payload.length ≤ dest.length
  | reference width count => width = e.width ∧ count = e.count ∧ ∃ target, e.body = .sameAs target

end Restore

/-! ## The entries of a checkpoint -/

section Entries

variable {storage : σ} {checkpoint : Path} {i j : Nat} {e : Entry} {info : Info}

def recordAt? (storage : σ) (checkpoint : Path) (index : Nat) : Option Entry :=
  (Storage.read (entryPath checkpoint index) storage).toOption.bind fun bytes =>
    (Entry.decode bytes).toOption

/-- Entry `i` has the address of entry `j`. -/
def RefersTo (storage : σ) (checkpoint : Path) (i j : Nat) : Prop :=
  ∃ e target, recordAt? storage checkpoint i = some e ∧ e.body = .sameAs target ∧ target.toNat = j

theorem recordAt?_eq_some_iff : recordAt? storage checkpoint i = some e ↔
    ∃ bytes, Storage.read (entryPath checkpoint i) storage = .ok bytes ∧ Entry.decode bytes = .ok e := by
  unfold recordAt?
  cases Storage.read (entryPath checkpoint i) storage with
  | error fault => simp [Except.toOption]
  | ok bytes => cases decoded : Entry.decode bytes <;> simp [Except.toOption, decoded]

theorem exists_recordAt?_of_validateCheckpoint (valid : validateCheckpoint storage checkpoint = .ok info)
    (hi : i < info.count.toNat) : ∃ e, recordAt? storage checkpoint i = some e ∧ e.Backward i := by
  obtain ⟨bytes, e, read, decoded, back⟩ := (validateCheckpoint_eq_ok_iff.1 valid).2 i hi
  exact ⟨e, recordAt?_eq_some_iff.2 ⟨bytes, read, decoded⟩, back⟩

theorem sized_of_recordAt? (h : recordAt? storage checkpoint i = some e) : e.Sized := by
  obtain ⟨bytes, -, decoded⟩ := recordAt?_eq_some_iff.1 h
  exact Entry.sized_of_decode decoded

end Entries

/-! ## What a call comes to -/

namespace RestoreM

variable {ρ β γ : Type} {s : ρ}

theorem perform_get_bind {k : ρ → RestoreM ρ γ} :
    (get >>= k : RestoreM ρ γ).perform s = (k s).perform s :=
  rfl

theorem perform_ofExcept_bind {k : β → RestoreM ρ γ} (found : Except RestoreError β) :
    (MonadExcept.ofExcept found >>= k : RestoreM ρ γ).perform s =
      match found with
      | .ok b => (k b).perform s
      | .error e => (.error e, s) := by
  cases found <;> rfl

end RestoreM

namespace Session

open RestoreM

omit [Storage σ] in
theorem perform_copyPayload_bind {payload : Bytes} {bits : UInt64} {t : Reading α σ}
    {k : Unit → RestoreM (Reading α σ) Unit} :
    (copyPayload payload bits >>= k).perform t =
      match restorePayload t.buffer payload bits.toNat with
      | some buffer => (k ()).perform { t with buffer }
      | none => (.error .outOfRange, t) := by
  rw [copyPayload, bind_assoc, perform_get_bind]
  cases restorePayload t.buffer payload bits.toNat <;> rfl

theorem perform_readPointer (t : Reading α σ) (width count : UInt64) (address : α) :
    (readPointer width count address).perform t =
      match t.session.nextEntry width count with
      | .error e => (.error e, t)
      | .ok (r, .sameAs _) => (.error (.unexpectedKind r.addresses.size .data), t)
      | .ok (r, .data payload) =>
        if t.buffer.length < payload.length then
          (.error (.bufferTooSmall r.addresses.size payload.length t.buffer.length), t)
        else match restorePayload t.buffer payload (width * count).toNat with
          | none => (.error .outOfRange, t)
          | some buffer => (.ok (), ⟨t.session.recordRestored r address, buffer⟩) := by
  obtain ⟨s, dest⟩ := t
  rw [readPointer, perform_get_bind, perform_ofExcept_bind]
  cases s.nextEntry width count with
  | error e => rfl
  | ok found =>
    obtain ⟨r, body⟩ := found
    cases body with
    | sameAs target => rfl
    | data payload =>
      dsimp only
      rw [perform_get_bind]
      split
      · rfl
      · change (copyPayload payload (width * count) >>= _ : RestoreM (Reading α σ) Unit).perform _ = _
        rw [perform_copyPayload_bind]
        cases restorePayload dest payload (width * count).toNat <;> rfl

theorem perform_readAlias (s : Session α σ) (width count : UInt64) :
    (readAlias width count).perform s =
      match s.nextEntry width count with
      | .error e => (.error e, s)
      | .ok (r, .data _) => (.error (.unexpectedKind r.addresses.size .reference), s)
      | .ok (r, .sameAs target) =>
        match r.addresses[target.toNat]? with
        | none => (.error (.danglingAlias r.addresses.size target), s)
        | some address => (.ok address, s.recordRestored r address) := by
  rw [readAlias, perform_get_bind, perform_ofExcept_bind]
  cases s.nextEntry width count with
  | error e => rfl
  | ok found =>
    obtain ⟨r, body⟩ := found
    cases body with
    | data payload => rfl
    | sameAs target =>
      dsimp only
      cases r.addresses[target.toNat]? <;> rfl

/-- A reference is read back with the address of the entry that it refers to, or not at all. -/
theorem perform_readAlias_cases (s : Session α σ) (width count : UInt64) :
    (∃ e, (readAlias width count).perform s = (.error e, s)) ∨
      ∃ r target found, s.nextEntry width count = .ok (r, .sameAs target) ∧
        r.addresses[target.toNat]? = some found ∧
        (readAlias width count).perform s = (.ok found, s.recordRestored r found) := by
  rw [perform_readAlias]
  cases s.nextEntry width count with
  | error e => exact .inl ⟨e, rfl⟩
  | ok next =>
    obtain ⟨r, body⟩ := next
    cases body with
    | data payload => exact .inl ⟨_, rfl⟩
    | sameAs target =>
      dsimp only
      cases known : r.addresses[target.toNat]? with
      | none => exact .inl ⟨_, rfl⟩
      | some found => exact .inr ⟨r, target, found, rfl, known, rfl⟩

end Session

namespace Restore

/-- A call that fails leaves the session as it was. One that succeeds adds the address that it
returns. -/
theorem perform_cases (s : Session α σ) (x : Restore α) :
    (∃ e, x.perform s = (.error e, s)) ∨
      ∃ r address, x.perform s = (.ok address, s.recordRestored r address) := by
  cases x with
  | pointer width count address dest =>
    rw [perform, Session.perform_readPointer]
    cases s.nextEntry width count with
    | error e => exact .inl ⟨e, rfl⟩
    | ok found =>
      obtain ⟨r, body⟩ := found
      cases body with
      | sameAs target => exact .inl ⟨_, rfl⟩
      | data payload =>
        dsimp only
        split
        · exact .inl ⟨_, rfl⟩
        · cases restorePayload dest payload (width * count).toNat with
          | none => exact .inl ⟨_, rfl⟩
          | some buffer => exact .inr ⟨r, address, rfl⟩
  | reference width count =>
    rcases Session.perform_readAlias_cases s width count with failed | ⟨r, target, address, -, -, run⟩
    · exact .inl failed
    · exact .inr ⟨r, address, run⟩

end Restore

/-! ## One step -/

section Step

variable {s : Session α σ} {r : Restart α} {e : Entry}

omit [Storage σ] in
@[simp] theorem storage_recordRestored (address : α) : (s.recordRestored r address).storage = s.storage :=
  rfl

theorem nextEntry_eq_ok_iff {width count : UInt64} {body : EntryBody} :
    s.nextEntry width count = .ok (r, body) ↔ s.restart = some r ∧
      recordAt? s.storage r.directory r.addresses.size = some ⟨width, count, body⟩ := by
  rw [recordAt?_eq_some_iff]
  unfold Session.nextEntry
  cases s.restart with
  | none => simp [throw, throwThe, MonadExceptOf.throw]
  | some selected =>
    dsimp only
    constructor
    · intro run
      obtain ⟨bytes, read, rest⟩ := bind_eq_ok_iff.1 run
      obtain ⟨entry, decoded, last⟩ := bind_eq_ok_iff.1 rest
      clear run rest
      split at last
      · cases last
      · next shape =>
        simp only [ne_eq, not_or, not_not] at shape
        obtain ⟨rfl, rfl⟩ := shape
        cases last
        exact ⟨rfl, bytes, mapError_eq_ok_iff.1 read, mapError_eq_ok_iff.1 decoded⟩
    · rintro ⟨⟨⟩, bytes, read, decoded⟩
      simp [read, decoded, Except.mapError, bind, Except.bind, pure, Except.pure]

theorem toNat_mul_of_payloadSize {width count : UInt64} {size : Nat}
    (known : payloadSize width count = .ok size) :
    (width * count).toNat = width.toNat * count.toNat ∧ width.toNat * count.toNat < UInt64.size ∧
      (width.toNat * count.toNat + 7) / 8 = size := by
  unfold payloadSize at known
  dsimp only at known
  split at known
  · next fits =>
    have small : width.toNat * count.toNat < UInt64.size := by omega
    exact ⟨by rw [UInt64.toNat_mul, Nat.mod_eq_of_lt small], small, Except.ok.inj known⟩
  · cases known

theorem restorePayload_isSome {dest payload : Bytes} {width count : UInt64}
    (size : payloadSize width count = .ok payload.length) (room : payload.length ≤ dest.length) :
    ∃ restored, restorePayload dest payload (width * count).toNat = some restored := by
  obtain ⟨bits, -, bytes⟩ := toNat_mul_of_payloadSize size
  rw [restorePayload, bits]
  dsimp only
  rw [if_neg (by omega)]
  exact ⟨_, rfl⟩

/-- A call that suits the next entry succeeds. It settles the address of that entry: the one that
is given, or that of the entry referred to. -/
theorem Restore.perform_eq_ok {x : Restore α} (selected : s.restart = some r)
    (entry : recordAt? s.storage r.directory r.addresses.size = some e)
    (back : e.Backward r.addresses.size) (suits : x.Suits e) :
    ∃ address, x.perform s = (.ok address, s.recordRestored r address) ∧
      (∀ width count a dest, x = .pointer width count a dest → address = a) ∧
      ∀ target, e.body = .sameAs target → r.addresses[target.toNat]? = some address := by
  have next : s.nextEntry e.width e.count = .ok (r, e.body) := nextEntry_eq_ok_iff.2 ⟨selected, entry⟩
  cases x with
  | pointer width count address dest =>
    obtain ⟨rfl, rfl, payload, body, room⟩ := suits
    obtain ⟨restored, fits⟩ := restorePayload_isSome (sized_of_recordAt? entry payload body) room
    refine ⟨address, ?_, ?_, ?_⟩
    · rw [body] at next
      rw [perform, Session.perform_readPointer, next]
      dsimp only
      rw [if_neg (Nat.not_lt.mpr room), fits]
      rfl
    · rintro _ _ _ _ ⟨⟩
      rfl
    · intro target same
      rw [body] at same
      cases same
  | reference width count =>
    obtain ⟨rfl, rfl, target, body⟩ := suits
    obtain ⟨address, found⟩ : ∃ a, r.addresses[target.toNat]? = some a :=
      ⟨_, Array.getElem?_eq_getElem (back target body)⟩
    refine ⟨address, ?_, nofun, ?_⟩
    · rw [body] at next
      rw [perform, Session.perform_readAlias, next]
      dsimp only
      rw [found]
    · intro target' same
      rw [body] at same
      cases same
      exact found

end Step

/-! ## A whole restart -/

section Run

variable {storage : σ} {checkpoint : Path} {info : Info} {reads front : List (Restore α)}
  {addresses : List α} {i : Nat}

/-- The addresses that some calls settle: data stands where the call says, and a reference has the
address of an entry before it. -/
structure Settled (storage : σ) (checkpoint : Path) (reads : List (Restore α)) (addresses : List α) :
    Prop where
  length : addresses.length = reads.length
  given : ∀ (i : Nat) (width count : UInt64) (address : α) (dest : Bytes),
    reads[i]? = some (.pointer width count address dest) → addresses[i]? = some address
  shared : ∀ (i : Nat) (width count : UInt64), reads[i]? = some (.reference width count) →
    ∃ j < i, RefersTo storage checkpoint i j ∧ addresses[i]? = addresses[j]?

theorem getElem?_concat_eq_some {β : Type} {xs : List β} {x y : β} (h : (xs ++ [x])[i]? = some y) :
    xs[i]? = some y ∨ i = xs.length ∧ x = y := by
  rw [List.getElem?_append] at h
  split at h
  · exact .inl h
  · rw [List.getElem?_singleton] at h
    split at h
    · exact .inr ⟨by omega, Option.some.inj h⟩
    · cases h

theorem Settled.nil : Settled storage checkpoint ([] : List (Restore α)) [] :=
  ⟨rfl, nofun, nofun⟩

theorem Settled.concat {x : Restore α} {e : Entry} {address : α}
    (h : Settled storage checkpoint front addresses)
    (entry : recordAt? storage checkpoint front.length = some e) (back : e.Backward front.length)
    (suits : x.Suits e)
    (given : ∀ width count a dest, x = .pointer width count a dest → address = a)
    (shared : ∀ target, e.body = .sameAs target → addresses[target.toNat]? = some address) :
    Settled storage checkpoint (front ++ [x]) (addresses ++ [address]) := by
  have last : (addresses ++ [address])[front.length]? = some address := by
    rw [← h.length, List.getElem?_concat_length]
  refine ⟨by simp [h.length], ?_, ?_⟩
  · intro i width count a dest hi
    rcases getElem?_concat_eq_some hi with hi | ⟨rfl, rfl⟩
    · have before := h.given i width count a dest hi
      rwa [List.getElem?_append_left (List.getElem?_eq_some_iff.mp before).1]
    · rw [last, given width count a dest rfl]
  · intro i width count hi
    rcases getElem?_concat_eq_some hi with hi | ⟨rfl, rfl⟩
    · obtain ⟨j, hj, refers, same⟩ := h.shared i width count hi
      have known : i < addresses.length := h.length ▸ (List.getElem?_eq_some_iff.mp hi).1
      refine ⟨j, hj, refers, ?_⟩
      rwa [List.getElem?_append_left known, List.getElem?_append_left (hj.trans known)]
    · obtain ⟨-, -, target, body⟩ := suits
      have earlier := back target body
      refine ⟨target.toNat, earlier, ⟨e, target, entry, body, rfl⟩, ?_⟩
      rw [last, List.getElem?_append_left (h.length ▸ earlier), shared target body]

/-- Calls that suit the entries succeed, from wherever the restart has come. -/
theorem performAll_of_settled {s : Session α σ} (back : List (Restore α))
    (valid : validateCheckpoint s.storage checkpoint = .ok info)
    (selected : s.restart = some ⟨checkpoint, addresses.toArray⟩)
    (h : Settled s.storage checkpoint front addresses)
    (enough : (front ++ back).length ≤ info.count.toNat)
    (suits : ∀ (i : Nat) x e, (front ++ back)[i]? = some x → recordAt? s.storage checkpoint i = some e →
      x.Suits e) :
    ∃ more t, Restore.performAll s back = .ok (more, t) ∧ t.storage = s.storage ∧
      t.restart = some ⟨checkpoint, (addresses ++ more).toArray⟩ ∧
      Settled s.storage checkpoint (front ++ back) (addresses ++ more) := by
  induction back generalizing s front addresses with
  | nil => exact ⟨[], s, rfl, rfl, by simpa using selected, by simpa using h⟩
  | cons x back ih =>
    have here : front.length < info.count.toNat := by
      rw [List.length_append, List.length_cons] at enough
      omega
    obtain ⟨e, entry, backward⟩ := exists_recordAt?_of_validateCheckpoint valid here
    have suit := suits front.length x e (by simp) entry
    have size : (addresses.toArray).size = front.length := by simp [h.length]
    obtain ⟨address, run, given, shared⟩ :=
      Restore.perform_eq_ok selected (size ▸ entry) (size ▸ backward) suit
    have settled := h.concat entry backward suit given fun target body => by
      simpa using shared target body
    obtain ⟨more, t, rest, kept, done, settled⟩ :=
      ih (s := s.recordRestored ⟨checkpoint, addresses.toArray⟩ address) valid
        (by simp [Session.recordRestored]) settled (by simpa using enough)
        (by simpa using suits)
    refine ⟨address :: more, t, ?_, kept, by simpa using done, by simpa using settled⟩
    rw [Restore.performAll, run]
    change (Restore.performAll _ back >>= _) = _
    rw [rest]
    rfl

/-- References lead back to an entry with data, whose address they have. -/
theorem Settled.exists_given (h : Settled storage checkpoint reads addresses) (hi : i < reads.length) :
    ∃ j width count address dest, Relation.ReflTransGen (RefersTo storage checkpoint) i j ∧
      reads[j]? = some (.pointer width count address dest) ∧ addresses[i]? = some address := by
  induction i using Nat.strong_induction_on with
  | h i ih =>
    cases read : reads[i] with
    | pointer width count address dest =>
      have read : reads[i]? = some (.pointer width count address dest) :=
        read ▸ List.getElem?_eq_getElem hi
      exact ⟨i, width, count, address, dest, .refl, read, h.given _ _ _ _ _ read⟩
    | reference width count =>
      have read : reads[i]? = some (.reference width count) := read ▸ List.getElem?_eq_getElem hi
      obtain ⟨j, hj, refers, same⟩ := h.shared i width count read
      obtain ⟨k, width', count', address, dest, chain, given, found⟩ := ih j hj (hj.trans hi)
      exact ⟨k, width', count', address, dest, .head refers chain, given, same.trans found⟩

/-- A valid checkpoint can be restored: calls that take its entries for what they are all succeed,
as many as there are entries. Data stands where the calls say, and every chain of references ends at
data, whose address all its entries have. -/
theorem performAll_of_validateCheckpoint {s : Session α σ}
    (valid : validateCheckpoint s.storage checkpoint = .ok info)
    (selected : s.restart = some ⟨checkpoint, #[]⟩) (enough : reads.length ≤ info.count.toNat)
    (suits : ∀ (i : Nat) x e, reads[i]? = some x → recordAt? s.storage checkpoint i = some e → x.Suits e) :
    ∃ addresses t, Restore.performAll s reads = .ok (addresses, t) ∧ t.storage = s.storage ∧
      t.restart = some ⟨checkpoint, addresses.toArray⟩ ∧
      Settled s.storage checkpoint reads addresses ∧
      ∀ i < reads.length, ∃ j width count address dest,
        Relation.ReflTransGen (RefersTo s.storage checkpoint) i j ∧
        reads[j]? = some (.pointer width count address dest) ∧ addresses[i]? = some address := by
  obtain ⟨addresses, t, run, kept, done, settled⟩ :=
    performAll_of_settled reads valid selected .nil enough suits
  exact ⟨addresses, t, run, kept, done, settled, fun i hi => settled.exists_given hi⟩

end Run

/-- A restart from a checkpoint whose last entry refers to one that refers to the first. -/
def chained : Session Nat InMemory :=
  (Request.perform (Session.new ⟨0, "run-"⟩ ∅ (.still 5)).setup ⟨7, 3, [.pointer 8 1 [42],
    .reference 8 1 5 [⟨8, 1, 0, 5⟩], .reference 16 2 5 [⟨8, 1, 1, 5⟩]]⟩).restartLabel.2

def chainedReads : List (Restore Nat) :=
  [.pointer 8 1 90 [0, 0], .reference 8 1, .reference 16 2]

theorem performAll_chained : ∃ addresses t,
    Restore.performAll chained chainedReads = .ok (addresses, t) ∧ addresses[2]? = some 90 := by
  have entries : recordAt? chained.storage ⟨"run-5/0"⟩ 0 = some ⟨8, 1, .data [42]⟩ ∧
      recordAt? chained.storage ⟨"run-5/0"⟩ 1 = some ⟨8, 1, .sameAs 0⟩ ∧
      recordAt? chained.storage ⟨"run-5/0"⟩ 2 = some ⟨16, 2, .sameAs 1⟩ := by decide +kernel
  have suits : ∀ (i : Nat) x e, chainedReads[i]? = some x →
      recordAt? chained.storage ⟨"run-5/0"⟩ i = some e → x.Suits e := by
    generalize chained.storage = storage at entries ⊢
    obtain ⟨first, second, third⟩ := entries
    intro i x e read
    rcases i with _ | _ | _ | i
    · cases read
      rw [first]
      rintro ⟨⟩
      exact ⟨rfl, rfl, [42], rfl, by decide⟩
    · cases read
      rw [second]
      rintro ⟨⟩
      exact ⟨rfl, rfl, 0, rfl⟩
    · cases read
      rw [third]
      rintro ⟨⟩
      exact ⟨rfl, rfl, 1, rfl⟩
    · cases read
  have valid : validateCheckpoint chained.storage ⟨"run-5/0"⟩ = .ok ⟨7, 3⟩ := by decide +kernel
  obtain ⟨addresses, t, run, -, -, -, chains⟩ :=
    performAll_of_validateCheckpoint valid (by decide +kernel) (by decide) suits
  -- the only address that is given is that of the first entry
  obtain ⟨j, width, count, address, dest, -, given, found⟩ := chains 2 (by decide)
  rcases j with _ | _ | _ | j
  · cases given
    exact ⟨addresses, t, run, found⟩
  all_goals cases given

end CheckpointRestart
