import CheckpointRestart.Record.Entry

/-! # Records end where they end

A reader that is delimited does not look at what stands behind the bytes it consumes. So a file
that holds a record is no longer one when bytes at its end are missing: whatever could still be
read there would end early in the whole file as well.
-/

namespace CheckpointRestart

variable {α β : Type}

namespace Cursor

/-- The same place, with more bytes at the end of the file. -/
def extend (c : Cursor) (more : Bytes) : Cursor :=
  ⟨c.rest ++ more, c.offset⟩

theorem advance_extend {c : Cursor} {n : Nat} (more : Bytes) (h : n ≤ c.rest.length) :
    (c.extend more).advance n = (c.advance n).extend more := by
  simp [extend, advance, List.drop_append_of_le_length h]

theorem advance_append (bytes more : Bytes) (offset : Nat) :
    advance ⟨bytes ++ more, offset⟩ bytes.length = ⟨more, offset + bytes.length⟩ := by
  simp [advance]

/-! ## Single steps -/

theorem expect_run (bytes : Bytes) (mark : Mark) (c : Cursor) :
    expect bytes mark c = if bytes.isPrefixOf c.rest then .ok ((), c.advance bytes.length)
      else .error (.expected mark c.offset) := by
  unfold expect
  change (ite _ _ _ : ReadRecord Unit) c = _
  split <;> rfl

theorem take_run (n : Nat) (c : Cursor) :
    take n c = if c.rest.length < n then .error (.truncatedPayload n c.rest.length)
      else .ok (c.rest.take n, c.advance n) := by
  unfold take
  change (ite _ _ _ : ReadRecord Bytes) c = _
  split <;> rfl

theorem atEnd_run (c : Cursor) :
    atEnd c = if c.rest.isEmpty then .ok ((), c) else .error (.trailingBytes c.rest.length) := by
  unfold atEnd
  change (ite _ _ _ : ReadRecord Unit) c = _
  split <;> rfl

theorem number_run (c : Cursor) :
    number c = if (c.rest.takeWhile isDigit).isEmpty ||
        UInt64.size ≤ digitsValue (c.rest.takeWhile isDigit) then .error (.invalidNumber c.offset)
      else .ok (.ofNat (digitsValue (c.rest.takeWhile isDigit)),
        c.advance (c.rest.takeWhile isDigit).length) := by
  unfold number
  change (ite _ _ _ : ReadRecord UInt64) c = _
  split <;> rfl

theorem skip_run (byte : UInt8) (c : Cursor) :
    skip byte c = .ok ((), if c.rest.head? = some byte then c.advance 1 else c) := rfl

end Cursor

namespace ReadRecord

theorem read_bind_eq_ok_iff {read : ReadRecord α} {next : α → ReadRecord β} {c c' : Cursor} {b : β} :
    (read >>= next) c = .ok (b, c') ↔ ∃ a d, read c = .ok (a, d) ∧ next a d = .ok (b, c') := by
  change (read c >>= fun p => next p.1 p.2) = _ ↔ _
  cases read c with
  | error e => simp [bind, Except.bind]
  | ok p =>
    refine ⟨fun run => ⟨p.1, p.2, rfl, run⟩, ?_⟩
    rintro ⟨a, d, ⟨⟩, run⟩
    exact run

/-- Whatever is read is read as well if there is more. -/
def Delimited (read : ReadRecord α) : Prop :=
  ∀ c a c', read c = .ok (a, c') → ∀ more, read (c.extend more) = .ok (a, c'.extend more)

/-- The reader consumes the bytes and gives `a`, whatever stands behind them. -/
def Reads (read : ReadRecord α) (bytes : Bytes) (a : α) : Prop :=
  ∀ more offset, read ⟨bytes ++ more, offset⟩ = .ok (a, ⟨more, offset + bytes.length⟩)

namespace Delimited

theorem pure (a : α) : Delimited (Pure.pure a : ReadRecord α) := by
  rintro c _ _ ⟨⟩ more
  rfl

theorem bind {read : ReadRecord α} {next : α → ReadRecord β} (h : Delimited read)
    (h' : ∀ a, Delimited (next a)) : Delimited (read >>= next) := by
  intro c b c' run more
  obtain ⟨a, d, first, rest⟩ := read_bind_eq_ok_iff.1 run
  exact read_bind_eq_ok_iff.2 ⟨a, _, h c a d first more, h' a d b c' rest more⟩

theorem fault (e : FormatError) : Delimited (throw e : ReadRecord α) := by
  rintro c a c' ⟨⟩

theorem lift (x : Except FormatError α) : Delimited (liftM x : ReadRecord α) := by
  intro c a c' run more
  cases x with
  | error e => cases run
  | ok b =>
    cases run
    rfl

theorem expect (bytes : Bytes) (mark : Mark) : Delimited (Cursor.expect bytes mark) := by
  intro c a c' run more
  rw [Cursor.expect_run] at run
  split at run
  · next found =>
    cases run
    have found := List.isPrefixOf_iff_prefix.mp found
    rw [Cursor.expect_run, if_pos, Cursor.advance_extend more found.length_le]
    exact List.isPrefixOf_iff_prefix.mpr (found.trans (List.prefix_append _ _))
  · cases run

theorem take (n : Nat) : Delimited (Cursor.take n) := by
  intro c a c' run more
  rw [Cursor.take_run] at run
  split at run
  · cases run
  · next enough =>
    cases run
    have enough := Nat.le_of_not_lt enough
    rw [Cursor.take_run, if_neg, Cursor.advance_extend more enough]
    · rw [Cursor.extend, List.take_append_of_le_length enough]
    · rw [Cursor.extend, List.length_append]
      omega

end Delimited

namespace Reads

theorem pure (a : α) : Reads (Pure.pure a : ReadRecord α) [] a :=
  fun _ _ => rfl

theorem bind {read : ReadRecord α} {next : α → ReadRecord β} {bytes bytes' : Bytes} {a : α} {b : β}
    (h : Reads read bytes a) (h' : Reads (next a) bytes' b) :
    Reads (read >>= next) (bytes ++ bytes') b := by
  intro more offset
  rw [List.append_assoc, read_bind_eq_ok_iff]
  exact ⟨a, _, h _ offset, by rw [h', List.length_append, Nat.add_assoc]⟩

theorem expect (bytes : Bytes) (mark : Mark) : Reads (Cursor.expect bytes mark) bytes () := by
  intro more offset
  rw [Cursor.expect_run, if_pos, Cursor.advance_append]
  exact List.isPrefixOf_iff_prefix.mpr (List.prefix_append _ _)

theorem take (bytes : Bytes) : Reads (Cursor.take bytes.length) bytes bytes := by
  intro more offset
  rw [Cursor.take_run, if_neg (by simp), Cursor.advance_append]
  simp

end Reads

theorem all_eq_ok_iff {read : ReadRecord α} {bytes : Bytes} {a : α} :
    read.all bytes = .ok a ↔ ∃ offset, read ⟨bytes, 0⟩ = .ok (a, ⟨[], offset⟩) := by
  constructor
  · intro run
    unfold all at run
    cases whole : (do let a ← read; Cursor.atEnd; return a : ReadRecord α) (.ofBytes bytes) with
    | error e =>
      rw [whole] at run
      cases run
    | ok p =>
      rw [whole] at run
      cases run
      obtain ⟨b, ⟨rest, offset⟩, first, run⟩ := read_bind_eq_ok_iff.1 whole
      obtain ⟨_, e, last, same⟩ := read_bind_eq_ok_iff.1 run
      cases same
      rw [Cursor.atEnd_run] at last
      split at last
      · next empty =>
        obtain rfl : rest = [] := by simpa using empty
        exact ⟨offset, first⟩
      · cases last
  · rintro ⟨offset, run⟩
    have done : (do let a ← read; Cursor.atEnd; return a : ReadRecord α) (.ofBytes bytes) =
        .ok (a, ⟨[], offset⟩) := read_bind_eq_ok_iff.2 ⟨a, _, run, rfl⟩
    rw [all, done]
    rfl

theorem Reads.all_eq_ok {read : ReadRecord α} {bytes : Bytes} {a : α} (h : Reads read bytes a) :
    read.all bytes = .ok a :=
  all_eq_ok_iff.2 ⟨_, by simpa using h [] 0⟩

/-- No file that is accepted is the start of another one. -/
theorem Delimited.eq_of_prefix {read : ReadRecord α} (delimited : Delimited read) {bytes part : Bytes}
    {a b : α} (whole : read.all bytes = .ok a) (early : read.all part = .ok b) (cut : part <+: bytes) :
    part = bytes := by
  obtain ⟨more, rfl⟩ := cut
  obtain ⟨_, whole⟩ := all_eq_ok_iff.1 whole
  obtain ⟨offset, early⟩ := all_eq_ok_iff.1 early
  have early := delimited _ _ _ early more
  rw [Cursor.extend, whole] at early
  simp only [Except.ok.injEq, Prod.mk.injEq, Cursor.extend, List.nil_append, Cursor.mk.injEq] at early
  rw [← early.2.1, List.append_nil]

/-- A record that is cut short is no record. -/
theorem all_ne_ok_of_prefix {read : ReadRecord α} (delimited : Delimited read) {bytes part : Bytes}
    {a b : α} (whole : Reads read bytes a) (cut : part <+: bytes) (short : part ≠ bytes) :
    read.all part ≠ .ok b :=
  fun early => short (delimited.eq_of_prefix whole.all_eq_ok early cut)

end ReadRecord

end CheckpointRestart
