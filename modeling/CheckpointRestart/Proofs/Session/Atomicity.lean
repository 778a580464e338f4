import CheckpointRestart.Proofs.Record.Payload
import CheckpointRestart.Proofs.Session.Restoring

/-! # Reading back is all or nothing

A call that reads an entry back either fails and leaves the session and the buffer as they were, or
it restores exactly the bits of the entry and records one address. Files are not trusted: that the
copying stays within the payload follows from what the decoder checks, since the shape it checks is
the one that is asked for.
-/

namespace CheckpointRestart

namespace Session

variable {α σ : Type} [Storage σ] {s : Session α σ} {r : Restart α} {width count : UInt64}

theorem payloadSize_of_nextEntry {payload : Bytes}
    (next : s.nextEntry width count = .ok (r, .data payload)) :
    payloadSize width count = .ok payload.length :=
  sized_of_recordAt? (nextEntry_eq_ok_iff.1 next).2 payload rfl

/-- A buffer with room for the payload takes it, bit by bit. -/
theorem perform_readPointer_of_room {t : Reading α σ} {payload : Bytes} (address : α)
    (next : t.session.nextEntry width count = .ok (r, .data payload))
    (room : payload.length ≤ t.buffer.length) :
    ∃ buffer, (readPointer width count address).perform t =
        (.ok (), ⟨t.session.recordRestored r address, buffer⟩) ∧
      ∀ i, bitAt? buffer i =
        if i < width.toNat * count.toNat then bitAt? payload i else bitAt? t.buffer i := by
  have size := payloadSize_of_nextEntry next
  obtain ⟨bits, -, -⟩ := toNat_mul_of_payloadSize size
  obtain ⟨buffer, copied⟩ := restorePayload_isSome size room
  refine ⟨buffer, ?_, fun i => ?_⟩
  · rw [perform_readPointer, next]
    dsimp only
    rw [if_neg (Nat.not_lt.mpr room), copied]
  · rw [bitAt?_restorePayload copied, bits]

theorem nextEntry_ne_outOfRange : s.nextEntry width count ≠ .error .outOfRange := by
  unfold nextEntry
  cases s.restart with
  | none => nofun
  | some r =>
    dsimp only
    cases Storage.read (entryPath r.directory r.addresses.size) s.storage with
    | error fault => nofun
    | ok bytes =>
      cases decoded : Entry.decode bytes with
      | error fault => simp [decoded, Except.mapError, bind, Except.bind]
      | ok e =>
        simp only [decoded, Except.mapError, bind, Except.bind]
        split
        · nofun
        · nofun

theorem perform_readPointer_of_no_room {t : Reading α σ} (address : α)
    (none : ∀ r payload, t.session.nextEntry width count = .ok (r, .data payload) →
      t.buffer.length < payload.length) :
    ∃ e, (readPointer width count address).perform t = (.error e, t) ∧ e ≠ .outOfRange := by
  rw [perform_readPointer]
  cases next : t.session.nextEntry width count with
  | error e => exact ⟨e, rfl, fun same => nextEntry_ne_outOfRange (same ▸ next)⟩
  | ok found =>
    obtain ⟨r, body⟩ := found
    cases body with
    | sameAs target => exact ⟨_, rfl, nofun⟩
    | data payload => exact ⟨_, if_pos (none r payload next), nofun⟩

/-- A call that reads data back succeeds exactly if the next entry holds data of the shape that is
asked for and the buffer has room for it. Then it replaces the bits of the payload, whose number
does not overflow, and records the address. Otherwise nothing is changed, and no access is out of
range. A call that reads a reference back changes nothing either unless it succeeds. -/
theorem perform_readPointer_cases (t : Reading α σ) (width count : UInt64) (address : α) :
    (((readPointer width count address).perform t).1 = .ok () ↔ ∃ r payload,
      t.session.restart = some r ∧
      recordAt? t.session.storage r.directory r.addresses.size = some ⟨width, count, .data payload⟩ ∧
      payload.length ≤ t.buffer.length) ∧
    (match (readPointer width count address).perform t with
      | (.error e, t') => e ≠ .outOfRange ∧ t' = t
      | (.ok (), t') => ∃ r payload,
        t.session.restart = some r ∧
        recordAt? t.session.storage r.directory r.addresses.size =
          some ⟨width, count, .data payload⟩ ∧
        width.toNat * count.toNat < UInt64.size ∧
        (∀ i, bitAt? t'.buffer i =
          if i < width.toNat * count.toNat then bitAt? payload i else bitAt? t.buffer i) ∧
        t'.session = { t.session with
          restart := some { r with addresses := r.addresses.push address }
          stats := { t.session.stats with restored := t.session.stats.restored + 1 } }) ∧
    (match (readAlias width count).perform t.session with
      | (.error _, s) => s = t.session
      | (.ok found, s) => ∃ r target,
        t.session.restart = some r ∧
        recordAt? t.session.storage r.directory r.addresses.size =
          some ⟨width, count, .sameAs target⟩ ∧
        r.addresses[target.toNat]? = some found ∧
        s = { t.session with
          restart := some { r with addresses := r.addresses.push found }
          stats := { t.session.stats with restored := t.session.stats.restored + 1 } }) := by
  refine and_assoc.mp ⟨?_, ?_⟩
  · by_cases ready : ∃ r payload, t.session.nextEntry width count = .ok (r, .data payload) ∧
        payload.length ≤ t.buffer.length
    · obtain ⟨r, payload, next, room⟩ := ready
      obtain ⟨selected, entry⟩ := nextEntry_eq_ok_iff.1 next
      obtain ⟨-, small, -⟩ := toNat_mul_of_payloadSize (payloadSize_of_nextEntry next)
      obtain ⟨buffer, run, bits⟩ := perform_readPointer_of_room address next room
      rw [run]
      exact ⟨⟨fun _ => ⟨r, payload, selected, entry, room⟩, fun _ => rfl⟩,
        r, payload, selected, entry, small, bits, rfl⟩
    · obtain ⟨e, run, inRange⟩ := perform_readPointer_of_no_room address fun r payload next =>
        Nat.not_le.mp fun room => ready ⟨r, payload, next, room⟩
      rw [run]
      refine ⟨⟨nofun, ?_⟩, inRange, rfl⟩
      rintro ⟨r, payload, selected, entry, room⟩
      exact absurd ⟨r, payload, nextEntry_eq_ok_iff.2 ⟨selected, entry⟩, room⟩ ready
  · obtain ⟨e, run⟩ | ⟨r, target, found, next, known, run⟩ :=
      perform_readAlias_cases t.session width count
    · rw [run]
    · obtain ⟨selected, entry⟩ := nextEntry_eq_ok_iff.1 next
      rw [run]
      exact ⟨r, target, selected, entry, known, rfl⟩

/-- Five elements of three bits leave the last bit of the buffer alone. -/
example :
    let saved : Session Nat InMemory := (Request.perform
      (Session.new ⟨0, "run-"⟩ ∅ (.still 5)).setup ⟨0, 1, [.pointer 3 5 [0b10101010, 0b01010101]]⟩)
    ((readPointer 3 5 1).perform ⟨saved.restartLabel.2, [0xff, 0xff]⟩).2.buffer =
      [0b10101010, 0b11010101] := by
  decide +kernel

end Session

end CheckpointRestart
