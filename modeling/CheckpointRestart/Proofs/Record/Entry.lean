import CheckpointRestart.Proofs.Record.Delimited
import Mathlib.Data.List.Basic
import Mathlib.Data.List.TakeWhile

/-! # Reading back what was written

Info records and entries are read back from their files as they were written, and a file from which
bytes at the end are missing holds neither.
-/

namespace CheckpointRestart

open ReadRecord

/-! ## Numbers -/

namespace Cursor

theorem toNat_of_isDigit {c : Char} (h : c.isDigit = true) : 48 ≤ c.toNat ∧ c.toNat ≤ 57 := by
  obtain ⟨low, high⟩ := Bool.and_eq_true_iff.mp h
  exact ⟨UInt32.le_iff_toNat_le.mp (of_decide_eq_true low),
    UInt32.le_iff_toNat_le.mp (of_decide_eq_true high)⟩

theorem toNat_byte {c : Char} (h : c.isDigit = true) :
    (UInt8.ofNat c.toNat).toNat = c.toNat := by
  have := toNat_of_isDigit h
  exact UInt8.toNat_ofNat_of_lt' (by rw [UInt8.size]; omega)

theorem isDigit_byte {c : Char} (h : c.isDigit = true) : isDigit (.ofNat c.toNat) = true := by
  rw [isDigit, Bool.and_eq_true, decide_eq_true_eq, decide_eq_true_eq, UInt8.le_iff_toNat_le,
    UInt8.le_iff_toNat_le, toNat_byte h]
  exact toNat_of_isDigit h

theorem isDigit_of_mem_ascii {s : List Char} (h : ∀ c ∈ s, c.isDigit = true) :
    ∀ b ∈ ascii s, isDigit b = true := by
  intro b hb
  obtain ⟨c, hc, rfl⟩ := List.mem_map.mp hb
  exact isDigit_byte (h c hc)

theorem digitsValue_ascii {s : List Char} (h : ∀ c ∈ s, c.isDigit = true) :
    digitsValue (ascii s) = Nat.ofDigitChars 10 s 0 := by
  rw [digitsValue, ascii, List.foldl_map, Nat.ofDigitChars_eq_foldl]
  refine List.foldl_ext _ _ _ fun n c hc => ?_
  rw [toNat_byte (h c hc)]
  rfl

theorem takeWhile_isDigit {digits more : Bytes} (h : ∀ b ∈ digits, isDigit b = true) :
    (digits ++ lineFeed :: more).takeWhile isDigit = digits := by
  rw [List.takeWhile_append_of_pos h, List.takeWhile_cons_of_neg (by decide), List.append_nil]

theorem numberLine_eq_ok_iff {c c' : Cursor} {n : UInt64} :
    numberLine c = .ok (n, c') ↔ ∃ digits more, c.rest = digits ++ lineFeed :: more ∧
      (∀ b ∈ digits, isDigit b = true) ∧ digits ≠ [] ∧ digitsValue digits < UInt64.size ∧
      n = .ofNat (digitsValue digits) ∧ c' = ⟨more, c.offset + (digits.length + 1)⟩ := by
  unfold numberLine
  rw [read_bind_eq_ok_iff]
  constructor
  · rintro ⟨m, d, first, run⟩
    obtain ⟨_, e, second, last⟩ := read_bind_eq_ok_iff.1 run
    cases last
    rw [number_run] at first
    generalize hd : c.rest.takeWhile isDigit = digits at first
    split at first
    · cases first
    · next fine =>
      cases first
      rw [expect_run] at second
      split at second
      · next found =>
        cases second
        have split : digits ++ c.rest.dropWhile isDigit = c.rest :=
          hd ▸ List.takeWhile_append_dropWhile
        obtain ⟨more, found⟩ := List.isPrefixOf_iff_prefix.mp found
        replace found : [lineFeed] ++ more = c.rest.dropWhile isDigit := by
          rw [found, advance]
          conv_lhs => rw [← split, List.drop_left]
        obtain ⟨filled, small⟩ : digits ≠ [] ∧ digitsValue digits < UInt64.size := by
          simpa using fine
        refine ⟨digits, more, ?_, fun b hb => ?_, filled, small, rfl, ?_⟩
        · rw [← split, ← found]
          rfl
        · exact List.mem_takeWhile_imp (hd ▸ hb)
        · rw [advance, advance, ← split, List.drop_left, ← found]
          simp [Nat.add_assoc]
      · cases second
  · rintro ⟨digits, more, split, all, filled, small, rfl, rfl⟩
    have fine : ¬ (digits.isEmpty || UInt64.size ≤ digitsValue digits) = true := by
      simpa using ⟨filled, small⟩
    refine ⟨.ofNat (digitsValue digits), c.advance digits.length, ?_, ?_⟩
    · rw [number_run, split, takeWhile_isDigit all, if_neg fine]
    · rw [read_bind_eq_ok_iff]
      refine ⟨(), _, ?_, rfl⟩
      rw [expect_run, advance, split, List.drop_left, if_pos (by simp)]
      simp [advance, Nat.add_assoc]

end Cursor

namespace ReadRecord

theorem Delimited.numberLine : Delimited Cursor.numberLine := by
  intro c n c' run more
  obtain ⟨digits, rest, split, all, filled, small, rfl, rfl⟩ := Cursor.numberLine_eq_ok_iff.1 run
  refine Cursor.numberLine_eq_ok_iff.2 ⟨digits, rest ++ more, ?_, all, filled, small, rfl, rfl⟩
  rw [Cursor.extend, split, List.append_assoc, List.cons_append]

theorem Delimited.skip_numberLine (byte : UInt8) :
    Delimited (Cursor.skip byte >>= fun _ => Cursor.numberLine) := by
  intro c n c' run more
  obtain ⟨_, d, first, run⟩ := read_bind_eq_ok_iff.1 run
  refine read_bind_eq_ok_iff.2 ⟨(), d.extend more, ?_, Delimited.numberLine _ _ _ run more⟩
  rw [Cursor.skip_run] at first
  cases first
  rw [Cursor.skip_run]
  obtain ⟨rest, offset⟩ := c
  cases rest with
  | nil =>
    obtain ⟨digits, rest, split, -⟩ := Cursor.numberLine_eq_ok_iff.1 run
    simp at split
  | cons b rest => by_cases h : b = byte <;> simp [Cursor.extend, Cursor.advance, h]

theorem Delimited.skip_numberLine_bind {α : Type} {next : UInt64 → ReadRecord α} (byte : UInt8)
    (h : ∀ n, Delimited (next n)) :
    Delimited (Cursor.skip byte >>= fun _ => Cursor.numberLine >>= next) := by
  have := (Delimited.skip_numberLine byte).bind h
  rwa [bind_assoc] at this

theorem Reads.numberLine (n : UInt64) : Reads Cursor.numberLine (numberLine n) n := by
  intro more offset
  have digits : ∀ c ∈ Nat.toDigits 10 n.toNat, c.isDigit = true := fun c hc =>
    Nat.isDigit_of_mem_toDigits (by decide) (by decide) hc
  have value := Cursor.digitsValue_ascii digits
  rw [Nat.ofDigitChars_ten_toDigits] at value
  refine Cursor.numberLine_eq_ok_iff.2 ⟨Cursor.ascii (Nat.toDigits 10 n.toNat), more, ?_,
    Cursor.isDigit_of_mem_ascii digits, ?_, ?_, ?_, ?_⟩
  · rw [CheckpointRestart.numberLine, List.append_assoc, List.singleton_append]
  · simp [Cursor.ascii, Nat.toDigits_ne_nil]
  · rw [value]
    exact n.toNat_lt
  · rw [value, UInt64.ofNat_toNat]
  · simp [CheckpointRestart.numberLine]

theorem Reads.skip {α : Type} {next : Unit → ReadRecord α} {byte : UInt8} {bytes : Bytes} {a : α}
    (n : UInt64) (h : Cursor.isDigit byte = false)
    (rest : Reads (next ()) (CheckpointRestart.numberLine n ++ bytes) a) :
    Reads (Cursor.skip byte >>= next) (CheckpointRestart.numberLine n ++ bytes) a := by
  intro more offset
  refine read_bind_eq_ok_iff.2 ⟨(), _, ?_, rest more offset⟩
  rw [Cursor.skip_run, if_neg]
  intro e
  have digits := Cursor.isDigit_of_mem_ascii (s := Nat.toDigits 10 n.toNat) fun c hc =>
    Nat.isDigit_of_mem_toDigits (by decide) (by decide) hc
  cases hd : Cursor.ascii (Nat.toDigits 10 n.toNat) with
  | nil => simp [Cursor.ascii, Nat.toDigits_ne_nil] at hd
  | cons b rest =>
    rw [CheckpointRestart.numberLine, hd] at e
    obtain rfl : b = byte := by simpa using e
    rw [digits b (by simp [hd])] at h
    cases h

end ReadRecord

/-! ## Info records -/

namespace Info

theorem delimited_read : Delimited read :=
  .bind .numberLine fun _ => .bind .numberLine fun _ => .pure _

theorem reads_encode (info : Info) : Reads read info.encode info := by
  have : Reads read (numberLine info.label ++ (numberLine info.count ++ [])) info :=
    .bind (.numberLine _) (.bind (.numberLine _) (.pure _))
  rwa [List.append_nil] at this

theorem decode_encode (info : Info) : decode info.encode = .ok info :=
  info.reads_encode.all_eq_ok

theorem decode_ne_ok_of_prefix {info other : Info} {part : Bytes} (cut : part <+: info.encode)
    (short : part ≠ info.encode) : decode part ≠ .ok other :=
  all_ne_ok_of_prefix delimited_read info.reads_encode cut short

end Info

/-! ## Entries -/

namespace Entry

/-- The payload has the size that the entry states. -/
def Sized (e : Entry) : Prop :=
  ∀ payload, e.body = .data payload → payloadSize e.width e.count = .ok payload.length

theorem sized_ofMemory {width count : UInt64} {memory : Bytes} {e : Entry}
    (h : ofMemory width count memory = .ok e) : e.Sized := by
  unfold ofMemory at h
  cases size : payloadSize width count with
  | error fault =>
    rw [size] at h
    cases h
  | ok n =>
    rw [size] at h
    change (ite _ _ _ : Except FormatError Entry) = _ at h
    split at h
    · cases h
    · next enough =>
      cases h
      rintro payload ⟨⟩
      rw [size, List.length_take, Nat.min_eq_left (Nat.le_of_not_lt enough)]

theorem delimited_readBody (tag width count : UInt64) : Delimited (readBody tag width count) := by
  unfold readBody
  split
  · exact .bind (.lift _) fun _ => .bind (.take _) fun _ => .bind (.expect _ _) fun _ => .pure _
  · split
    · exact .bind .numberLine fun _ => .pure _
    · exact .fault _

theorem reads_encodeBody {e : Entry} (sized : e.Sized) :
    Reads (readBody (tag e.body) e.width e.count) (encodeBody e.body) e.body := by
  obtain ⟨width, count, body⟩ := e
  cases body with
  | sameAs index =>
    have : Reads (readBody 1 width count) (numberLine index ++ []) (.sameAs index) :=
      .bind (.numberLine _) (.pure _)
    rwa [List.append_nil] at this
  | data payload =>
    have size : Reads (liftM (payloadSize width count) : ReadRecord Nat) [] payload.length := by
      rw [sized payload rfl]
      exact .pure _
    have : Reads (readBody 0 width count) ([] ++ (payload ++ ([Cursor.lineFeed] ++ [])))
        (.data payload) := .bind size (.bind (.take _) (.bind (.expect _ _) (.pure _)))
    rwa [List.append_nil, List.nil_append] at this

theorem delimited_read : Delimited read :=
  .bind (.expect _ _) fun _ => .skip_numberLine_bind _ fun _ => .bind .numberLine fun _ =>
    .bind .numberLine fun _ => .bind (.expect _ _) fun _ => .bind (delimited_readBody _ _ _) fun _ =>
      .pure _

theorem reads_encode {e : Entry} (sized : e.Sized) : Reads read e.encode e := by
  have : Reads read (tagWord ++ (numberLine (tag e.body) ++ (numberLine e.width ++
      (numberLine e.count ++ ([Cursor.lineFeed] ++ (encodeBody e.body ++ [])))))) e :=
    .bind (.expect _ _) (.skip _ rfl (.bind (.numberLine _) (.bind (.numberLine _)
      (.bind (.numberLine _) (.bind (.expect _ _) (.bind (reads_encodeBody sized) (.pure _)))))))
  simpa [encode] using this

theorem decode_encode {e : Entry} (sized : e.Sized) : decode e.encode = .ok e :=
  (reads_encode sized).all_eq_ok

theorem decode_ne_ok_of_prefix {e other : Entry} {part : Bytes} (sized : e.Sized)
    (cut : part <+: e.encode) (short : part ≠ e.encode) : decode part ≠ .ok other :=
  all_ne_ok_of_prefix delimited_read (reads_encode sized) cut short

end Entry

end CheckpointRestart
