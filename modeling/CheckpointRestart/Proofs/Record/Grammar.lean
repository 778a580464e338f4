import CheckpointRestart.Proofs.Effects
import CheckpointRestart.Proofs.Record.Entry
import Mathlib.Data.List.Induction

/-! # The grammar of records

What the files of a checkpoint look like, said without a reader: which bytes are an info record, which
are an entry, and what each of them says. The readers accept exactly these files, whatever the bytes
of a payload are, and no file that is accepted is the start of another one.
-/

namespace CheckpointRestart

open ReadRecord

/-! ## What is written in a file -/

/-- A run of decimal digits, at least one, and the number that it writes. -/
inductive Numeral : Bytes → Nat → Prop
  | digit {d : UInt8} : Cursor.isDigit d = true → Numeral [d] (d.toNat - 0x30)
  | snoc {digits : Bytes} {n : Nat} {d : UInt8} : Numeral digits n → Cursor.isDigit d = true →
    Numeral (digits ++ [d]) (10 * n + (d.toNat - 0x30))

/-- A line with nothing but a numeral below `2 ^ 64`. -/
def NumeralLine (line : Bytes) (n : UInt64) : Prop :=
  ∃ numeral, Numeral numeral n.toNat ∧ line = numeral ++ [Cursor.lineFeed]

/-- What follows the empty line of an entry with the given tag, width and count. -/
inductive EntryBody.Written (width count : UInt64) : UInt64 → Bytes → EntryBody → Prop
  | data {payload : Bytes} : payloadSize width count = .ok payload.length →
    Written width count 0 (payload ++ [Cursor.lineFeed]) (.data payload)
  | sameAs {line : Bytes} {index : UInt64} : NumeralLine line index →
    Written width count 1 line (.sameAs index)

/-- The bytes of a file that holds the entry. -/
inductive Entry.Written : Bytes → Entry → Prop
  | lines {gap first second third rest : Bytes} {tag width count : UInt64} {body : EntryBody} :
    gap = [] ∨ gap = [0x20] → NumeralLine first tag → NumeralLine second width →
    NumeralLine third count → body.Written width count tag rest →
    Written (Entry.tagWord ++ gap ++ first ++ second ++ third ++ [Cursor.lineFeed] ++ rest)
      ⟨width, count, body⟩

/-- The bytes of a file that holds the info record. -/
inductive Info.Written : Bytes → Info → Prop
  | lines {first second : Bytes} {label count : UInt64} : NumeralLine first label →
    NumeralLine second count → Written (first ++ second) ⟨label, count⟩

/-! ## Numerals -/

theorem numeral_iff {digits : Bytes} {n : Nat} : Numeral digits n ↔
    digits ≠ [] ∧ (∀ d ∈ digits, Cursor.isDigit d = true) ∧ Cursor.digitsValue digits = n := by
  constructor
  · intro h
    induction h with
    | digit digit => simpa [Cursor.digitsValue] using digit
    | snoc _ digit ih =>
      obtain ⟨-, all, rfl⟩ := ih
      refine ⟨by simp, ?_, by simp [Cursor.digitsValue]⟩
      simpa [or_imp, forall_and] using ⟨all, digit⟩
  · rintro ⟨filled, all, rfl⟩
    induction digits using List.reverseRecOn with
    | nil => exact absurd rfl filled
    | append_singleton digits d ih =>
      have last := all d (by simp)
      have front : ∀ d ∈ digits, Cursor.isDigit d = true := fun d hd => all d (by simp [hd])
      rcases eq_or_ne digits [] with rfl | some_digits
      · simpa [Cursor.digitsValue] using Numeral.digit last
      · simpa [Cursor.digitsValue] using (ih some_digits front).snoc last

namespace ReadRecord

variable {α β : Type}

/-! ## What a reader accepts -/

/-- The reader consumes exactly the bytes that are written so, whatever stands behind them. -/
def Accepts (read : ReadRecord α) (written : Bytes → α → Prop) : Prop :=
  ∀ c a c', read c = .ok (a, c') ↔
    ∃ bytes, written bytes a ∧ c.rest = bytes ++ c'.rest ∧ c'.offset = c.offset + bytes.length

namespace Accepts

variable {read : ReadRecord α} {next : α → ReadRecord β} {written written' : Bytes → α → Prop}
  {following : α → Bytes → β → Prop}

theorem congr (h : Accepts read written) (same : ∀ bytes a, written bytes a ↔ written' bytes a) :
    Accepts read written' := by
  intro c a c'
  simp only [h c a c', same]

theorem pure (a : α) : Accepts (Pure.pure a) fun bytes b => bytes = [] ∧ b = a := by
  rintro ⟨rest, offset⟩ b ⟨rest', offset'⟩
  change Except.ok (a, (⟨rest, offset⟩ : Cursor)) = .ok (b, ⟨rest', offset'⟩) ↔ _
  simp only [Except.ok.injEq, Prod.mk.injEq, Cursor.mk.injEq]
  constructor
  · rintro ⟨rfl, rfl, rfl⟩
    exact ⟨[], ⟨rfl, rfl⟩, rfl, rfl⟩
  · rintro ⟨_, ⟨rfl, rfl⟩, rfl, rfl⟩
    exact ⟨rfl, rfl, rfl⟩

theorem bind (h : Accepts read written) (h' : ∀ a, Accepts (next a) (following a)) :
    Accepts (read >>= next) fun bytes b =>
      ∃ a front back, written front a ∧ following a back b ∧ bytes = front ++ back := by
  intro c b c'
  rw [read_bind_eq_ok_iff]
  constructor
  · rintro ⟨a, d, first, second⟩
    obtain ⟨front, hfront, rest, offset⟩ := (h c a d).mp first
    obtain ⟨back, hback, rest', offset'⟩ := (h' a d b c').mp second
    refine ⟨front ++ back, ⟨a, front, back, hfront, hback, rfl⟩, ?_, ?_⟩
    · rw [rest, rest', List.append_assoc]
    · rw [offset', offset, List.length_append, Nat.add_assoc]
  · rintro ⟨_, ⟨a, front, back, hfront, hback, rfl⟩, rest, offset⟩
    refine ⟨a, ⟨back ++ c'.rest, c.offset + front.length⟩, ?_, ?_⟩
    · exact (h _ _ _).mpr ⟨front, hfront, by rw [rest, List.append_assoc], rfl⟩
    · refine (h' _ _ _ _).mpr ⟨back, hback, rfl, ?_⟩
      rw [offset, List.length_append, Nat.add_assoc]

theorem fault (e : FormatError) : Accepts (throw e : ReadRecord α) fun _ _ => False := by
  intro c a c'
  refine ⟨nofun, ?_⟩
  rintro ⟨_, ⟨⟩, -⟩

theorem lift (x : Except FormatError α) :
    Accepts (liftM x : ReadRecord α) fun bytes a => bytes = [] ∧ x = .ok a := by
  cases x with
  | error e => exact (fault e).congr fun bytes a => by simp
  | ok b => exact (pure b).congr fun bytes a => by simp [eq_comm]

theorem expect (bytes : Bytes) (mark : Mark) :
    Accepts (Cursor.expect bytes mark) fun found _ => found = bytes := by
  rintro ⟨rest, offset⟩ ⟨⟩ ⟨rest', offset'⟩
  rw [Cursor.expect_run]
  constructor
  · intro run
    split at run
    · next found =>
      cases run
      obtain ⟨more, rfl⟩ := List.isPrefixOf_iff_prefix.mp found
      exact ⟨bytes, rfl, by simp, rfl⟩
    · cases run
  · rintro ⟨_, rfl, split, ends⟩
    dsimp only at split ends
    subst split ends
    rw [if_pos (List.isPrefixOf_iff_prefix.mpr (List.prefix_append _ _)), Cursor.advance_append]

theorem take (n : Nat) :
    Accepts (Cursor.take n) fun found payload => found = payload ∧ payload.length = n := by
  rintro ⟨rest, offset⟩ payload ⟨rest', offset'⟩
  rw [Cursor.take_run]
  constructor
  · intro run
    split at run
    · cases run
    · next enough =>
      cases run
      have size : (rest.take n).length = n := by
        rw [List.length_take, Nat.min_eq_left (Nat.le_of_not_lt enough)]
      exact ⟨rest.take n, ⟨rfl, size⟩, (List.take_append_drop n rest).symm, by rw [size]⟩
  · rintro ⟨_, ⟨rfl, rfl⟩, split, ends⟩
    dsimp only at split ends
    subst split ends
    rw [if_neg (by simp), Cursor.advance_append]
    simp

theorem numberLine : Accepts Cursor.numberLine NumeralLine := by
  rintro ⟨rest, offset⟩ n ⟨rest', offset'⟩
  rw [Cursor.numberLine_eq_ok_iff]
  constructor
  · rintro ⟨digits, more, rfl, all, filled, small, rfl, same⟩
    cases same
    have value : (UInt64.ofNat (Cursor.digitsValue digits)).toNat = Cursor.digitsValue digits :=
      UInt64.toNat_ofNat_of_lt' small
    refine ⟨_, ⟨digits, numeral_iff.2 ⟨filled, all, value.symm⟩, rfl⟩, ?_, ?_⟩
    · simp
    · simp
  · rintro ⟨_, ⟨digits, numeral, rfl⟩, split, ends⟩
    dsimp only at split ends
    subst split ends
    obtain ⟨filled, all, value⟩ := numeral_iff.1 numeral
    refine ⟨digits, rest', by simp, all, filled, ?_, ?_, by simp⟩
    · rw [value]
      exact n.toNat_lt
    · rw [value, UInt64.ofNat_toNat]

theorem skip_numberLine (byte : UInt8) (other : Cursor.isDigit byte = false) :
    Accepts (Cursor.skip byte >>= fun _ => Cursor.numberLine) fun bytes n =>
      ∃ gap line, (gap = [] ∨ gap = [byte]) ∧ NumeralLine line n ∧ bytes = gap ++ line := by
  intro c n c'
  rw [read_bind_eq_ok_iff]
  simp only [Cursor.skip_run]
  constructor
  · rintro ⟨_, d, skipped, run⟩
    cases skipped
    obtain ⟨line, written, rest, offset⟩ := (numberLine _ _ _).mp run
    split at rest
    · next there =>
      obtain ⟨more, split⟩ : ∃ more, c.rest = byte :: more := by
        cases hrest : c.rest with
        | nil => simp [hrest] at there
        | cons b more =>
          obtain rfl : b = byte := by simpa [hrest] using there
          exact ⟨more, rfl⟩
      rw [if_pos there] at offset
      refine ⟨byte :: line, ⟨[byte], line, .inr rfl, written, rfl⟩, ?_, ?_⟩
      · rw [split]
        simpa [Cursor.advance, split] using rest
      · rw [offset, List.length_cons, Nat.add_comm line.length, ← Nat.add_assoc]
        rfl
    · next missing =>
      rw [if_neg missing] at offset
      exact ⟨line, ⟨[], line, .inl rfl, written, rfl⟩, rest, offset⟩
  · rintro ⟨_, ⟨gap, line, either, written, rfl⟩, rest, offset⟩
    refine ⟨(), _, rfl, (numberLine _ _ _).mpr ⟨line, written, ?_⟩⟩
    rcases either with rfl | rfl
    · have first : c.rest.head? ≠ some byte := by
        obtain ⟨digits, numeral, rfl⟩ := written
        obtain ⟨filled, all, -⟩ := numeral_iff.1 numeral
        obtain ⟨d, digits, rfl⟩ := List.exists_cons_of_ne_nil filled
        rw [rest]
        rintro ⟨⟩
        rw [all _ List.mem_cons_self] at other
        cases other
      rw [if_neg first]
      exact ⟨rest, offset⟩
    · rw [if_pos (by simp [rest])]
      refine ⟨by simp [Cursor.advance, rest], ?_⟩
      rw [offset, List.length_append, List.length_singleton, ← Nat.add_assoc]
      rfl

theorem all_eq_ok_iff (h : Accepts read written) {bytes : Bytes} {a : α} :
    read.all bytes = .ok a ↔ written bytes a := by
  rw [ReadRecord.all_eq_ok_iff]
  constructor
  · rintro ⟨offset, run⟩
    obtain ⟨found, hfound, rest, -⟩ := (h _ _ _).mp run
    obtain rfl : bytes = found := by simpa using rest
    exact hfound
  · intro hbytes
    exact ⟨_, (h ⟨bytes, 0⟩ a ⟨[], bytes.length⟩).mpr ⟨bytes, hbytes, by simp, by simp⟩⟩

end Accepts

end ReadRecord

/-! ## Records -/

namespace Info

theorem accepts_read : Accepts read Written := by
  refine (Accepts.numberLine.bind fun _ => Accepts.numberLine.bind fun _ => .pure _).congr ?_
  rintro bytes info
  constructor
  · rintro ⟨label, first, _, hfirst, ⟨count, second, _, hsecond, ⟨rfl, rfl⟩, rfl⟩, rfl⟩
    rw [List.append_nil]
    exact .lines hfirst hsecond
  · rintro ⟨hfirst, hsecond⟩
    exact ⟨_, _, _, hfirst, ⟨_, _, [], hsecond, ⟨rfl, rfl⟩, (List.append_nil _).symm⟩, rfl⟩

theorem decode_eq_ok_iff {bytes : Bytes} {info : Info} :
    decode bytes = .ok info ↔ Written bytes info :=
  accepts_read.all_eq_ok_iff

end Info

namespace Entry

theorem accepts_readBody (tag width count : UInt64) :
    Accepts (readBody tag width count) (EntryBody.Written width count tag) := by
  unfold readBody
  split
  · next zero =>
    subst zero
    refine ((Accepts.lift _).bind fun _ => (Accepts.take _).bind fun _ =>
      (Accepts.expect _ _).bind fun _ => .pure _).congr ?_
    rintro bytes body
    constructor
    · rintro ⟨size, _, _, ⟨rfl, known⟩, ⟨payload, _, _, ⟨rfl, rfl⟩, ⟨_, _, _, rfl, ⟨rfl, rfl⟩, rfl⟩, rfl⟩, rfl⟩
      rw [List.append_nil, List.nil_append]
      exact .data known
    · rintro ⟨known⟩
      exact ⟨_, [], _, ⟨rfl, known⟩, ⟨_, _, _, ⟨rfl, rfl⟩, ⟨(), _, [], rfl, ⟨rfl, rfl⟩, rfl⟩, rfl⟩, by simp⟩
  · next zero =>
    split
    · next one =>
      subst one
      refine (Accepts.numberLine.bind fun _ => .pure _).congr ?_
      rintro bytes body
      constructor
      · rintro ⟨index, line, _, hline, ⟨rfl, rfl⟩, rfl⟩
        rw [List.append_nil]
        exact .sameAs hline
      · intro written
        cases written with
        | sameAs hline => exact ⟨_, _, [], hline, ⟨rfl, rfl⟩, (List.append_nil _).symm⟩
    · next one =>
      refine (Accepts.fault _).congr fun bytes body => ⟨False.elim, fun written => ?_⟩
      cases written with
      | data => exact zero rfl
      | sameAs => exact one rfl

theorem accepts_read : Accepts read Written := by
  have tagged := Accepts.skip_numberLine 0x20 rfl
  have read_eq : read = (do
      Cursor.expect tagWord .tag
      let tag ← (Cursor.skip 0x20 >>= fun _ => Cursor.numberLine)
      let width ← Cursor.numberLine
      let count ← Cursor.numberLine
      Cursor.expect [Cursor.lineFeed] .separator
      return ⟨width, count, ← readBody tag width count⟩) := by
    simp only [read, bind_assoc]
  rw [read_eq]
  refine ((Accepts.expect _ _).bind fun _ => tagged.bind fun _ => Accepts.numberLine.bind fun _ =>
    Accepts.numberLine.bind fun _ => (Accepts.expect _ _).bind fun _ =>
      (accepts_readBody _ _ _).bind fun _ => .pure _).congr ?_
  rintro bytes e
  constructor
  · rintro ⟨_, _, _, rfl, ⟨tag, _, _, ⟨gap, first, either, hfirst, rfl⟩, ⟨width, second, _, hsecond,
      ⟨count, third, _, hthird, ⟨_, _, _, rfl, ⟨body, rest, _, hrest, ⟨rfl, rfl⟩, rfl⟩, rfl⟩, rfl⟩, rfl⟩, rfl⟩, rfl⟩
    simpa using Written.lines either hfirst hsecond hthird hrest
  · rintro ⟨either, hfirst, hsecond, hthird, hrest⟩
    exact ⟨(), _, _, rfl, ⟨_, _, _, ⟨_, _, either, hfirst, rfl⟩, ⟨_, _, _, hsecond, ⟨_, _, _, hthird,
      ⟨(), _, _, rfl, ⟨_, _, [], hrest, ⟨rfl, rfl⟩, rfl⟩, rfl⟩, rfl⟩, rfl⟩, rfl⟩, by simp⟩

theorem decode_eq_ok_iff {bytes : Bytes} {e : Entry} : decode bytes = .ok e ↔ Written bytes e :=
  accepts_read.all_eq_ok_iff

theorem sized_of_decode {bytes : Bytes} {e : Entry} (h : decode bytes = .ok e) : e.Sized := by
  obtain ⟨-, -, -, -, body⟩ := decode_eq_ok_iff.1 h
  rintro payload rfl
  cases body with
  | data size => exact size

end Entry

/-! ## The formats are exact -/

/-- Records are read back as they were written. The readers accept the files that are written as the
grammar says, with what is written there, and nothing else. A file that is accepted is not the start
of another one, so none of its starts is accepted. -/
theorem decode_formats :
    (∀ e : Entry, e.Sized → Entry.decode e.encode = .ok e) ∧
    (∀ info : Info, Info.decode info.encode = .ok info) ∧
    (∀ bytes e, Entry.decode bytes = .ok e ↔ Entry.Written bytes e) ∧
    (∀ bytes info, Info.decode bytes = .ok info ↔ Info.Written bytes info) ∧
    (∀ bytes part e, Entry.decode bytes = .ok e → part <+: bytes → part ≠ bytes →
      ∀ other, Entry.decode part ≠ .ok other) ∧
    (∀ bytes part info, Info.decode bytes = .ok info → part <+: bytes → part ≠ bytes →
      ∀ other, Info.decode part ≠ .ok other) := by
  refine ⟨fun _ sized => Entry.decode_encode sized, Info.decode_encode,
    fun _ _ => Entry.decode_eq_ok_iff, fun _ _ => Info.decode_eq_ok_iff, ?_, ?_⟩
  · intro bytes part e whole cut short other early
    exact short (Entry.delimited_read.eq_of_prefix whole early cut)
  · intro bytes part info whole cut short other early
    exact short (Info.delimited_read.eq_of_prefix whole early cut)

/-- An entry whose payload is made of separators. -/
def separators : Entry :=
  ⟨8, 3, .data [0x0a, 0x20, 0x0a]⟩

theorem decode_formats_separators :
    separators.encode = Cursor.ascii "alias0\n8\n3\n\n\n \n\n".toList ∧
    Entry.decode separators.encode = .ok separators ∧
    Entry.Written (Cursor.ascii "alias 00\n08\n3\n\n\n \n\n".toList) separators ∧
    Info.Written (Cursor.ascii "3\n012\n".toList) ⟨3, 12⟩ ∧
    (∀ other, Entry.decode (Cursor.ascii "alias 00\n08\n3\n\n\n \n".toList) ≠ .ok other) ∧
    ∀ other, Info.decode (Cursor.ascii "3\n012".toList) ≠ .ok other := by
  obtain ⟨roundTrip, -, entries, infos, entryStarts, infoStarts⟩ := decode_formats
  have entry : Entry.decode (Cursor.ascii "alias 00\n08\n3\n\n\n \n\n".toList) = .ok separators :=
    eq_ok_of_toOption (by decide +kernel)
  have info : Info.decode (Cursor.ascii "3\n012\n".toList) = .ok ⟨3, 12⟩ :=
    eq_ok_of_toOption (by decide +kernel)
  refine ⟨by decide +kernel, roundTrip separators ?_, (entries _ _).mp entry, (infos _ _).mp info,
    entryStarts _ _ _ entry ⟨[0x0a], by decide⟩ (by decide),
    infoStarts _ _ _ info ⟨[0x0a], by decide⟩ (by decide)⟩
  rintro payload ⟨⟩
  rfl

end CheckpointRestart
