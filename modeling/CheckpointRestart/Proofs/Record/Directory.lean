import CheckpointRestart.Proofs.Effects
import CheckpointRestart.Proofs.Record.Entry
import CheckpointRestart.Proofs.Storage.Path
import CheckpointRestart.Proofs.Text.Decimal
import CheckpointRestart.Proofs.Text.Split
import CheckpointRestart.Record.Directory
import CheckpointRestart.Storage.InMemory
import Mathlib.Data.List.Nodup
import Mathlib.Data.List.Perm.Basic

/-! # Finding and checking checkpoints

The numbers in the names of directories are read back as they were written. Which ones are found in
a directory depends on the directories in there alone, and whether a checkpoint is valid on its
files alone.
-/

namespace CheckpointRestart

/-! ## Names -/

theorem toString_injective {m n : Nat} (h : toString m = toString n) : m = n := by
  have digits := congrArg (fun s => Text.digits? s.toList) h
  simpa [toList_toString, Text.digits?_toDigits] using digits

theorem ordinal?_toString (n : UInt64) : ordinal? (toString n.toNat) = some n := by
  rw [ordinal?, toList_toString, Text.plainUInt64?_toDigits]

theorem runEpoch?_runName (stem : String) (epoch : UInt64) :
    runEpoch? stem (runName stem epoch) = some epoch := by
  rw [runEpoch?, runName, String.toList_append, Text.afterStart?, Text.dropStart?_append,
    Option.bind_some, toList_toString, Text.plainUInt64?_toDigits]

theorem not_mem_toString {c : Char} (h : c.isDigit = false) (n : Nat) : c ∉ (toString n).toList := by
  intro mem
  rw [toList_toString] at mem
  rw [Nat.isDigit_of_mem_toDigits (by decide) (by decide) mem] at h
  cases h

theorem append_toString_ne {stem name : String} {n : Nat}
    (other : ∀ c, name.toList.getLast? = some c → c.isDigit = false) : stem ++ toString n ≠ name := by
  have filled : (toString n).toList ≠ [] := by
    rw [toList_toString]
    exact Nat.toDigits_ne_nil
  have last : (stem ++ toString n).toList.getLast? = some ((toString n).toList.getLast filled) := by
    rw [String.toList_append, List.getLast?_append, List.getLast?_eq_some_getLast filled]
    rfl
  rintro rfl
  exact not_mem_toString (other _ last) n (List.getLast_mem filled)

theorem append_toString_ne_empty (stem : String) (n : Nat) : stem ++ toString n ≠ "" :=
  append_toString_ne (by simp)

theorem append_toString_ne_dot (stem : String) (n : Nat) : stem ++ toString n ≠ "." := by
  refine append_toString_ne ?_
  rintro c ⟨⟩
  rfl

theorem isName_append_toString {stem : String} (h : '/' ∉ stem.toList) (n : Nat) :
    Path.IsName (stem ++ toString n) := by
  refine ⟨append_toString_ne_empty stem n, append_toString_ne_dot stem n,
    append_toString_ne ?_, fun mem => ?_⟩
  · rintro c ⟨⟩
    rfl
  · rw [String.toList_append, List.mem_append] at mem
    exact mem.elim h (not_mem_toString rfl n)

theorem isName_toString (n : Nat) : Path.IsName (toString n) := by
  have free : '/' ∉ "".toList := by simp
  simpa using isName_append_toString free n

theorem isName_info : Path.IsName "info" :=
  ⟨by decide, by decide, by decide, by decide⟩

theorem toString_ne_info (j : Nat) : toString j ≠ "info" := by
  intro e
  exact not_mem_toString (c := 'i') rfl j (by rw [e]; decide)

theorem isName_runName {stem : String} (h : '/' ∉ stem.toList) (epoch : UInt64) :
    Path.IsName (runName stem epoch) :=
  isName_append_toString h epoch.toNat

theorem runName_injective {stem : String} {e e' : UInt64} (h : runName stem e = runName stem e') :
    e = e' := by
  have := congrArg (runEpoch? stem) h
  rw [runEpoch?_runName, runEpoch?_runName] at this
  exact Option.some.inj this

/-! ## Listing -/

theorem pairwise_descending (xs : List UInt64) :
    (xs.mergeSort fun a b => b ≤ a).Pairwise fun a b => b ≤ a := by
  have := @List.pairwise_mergeSort _ (fun a b : UInt64 => b ≤ a)
    (fun a b c hab hbc => by simpa using UInt64.le_trans (by simpa using hbc) (by simpa using hab))
    (fun a b => by simpa using UInt64.le_total b a) xs
  simpa using this

theorem descending_eq {xs ys : List UInt64} (perm : xs.Perm ys) (sorted : ys.Pairwise fun a b => b ≤ a) :
    xs.mergeSort (fun a b => b ≤ a) = ys :=
  List.Perm.eq_of_pairwise (fun _ _ _ _ h h' => UInt64.le_antisymm h' h) (pairwise_descending xs)
    sorted ((List.mergeSort_perm xs _).trans perm)

namespace InMemory

/-- The names of the directories right inside the directory under a key. -/
def namesIn (s : InMemory) (key : List String) : List String :=
  s.directories.toList.filterMap (nameIn? key)

theorem nameIn?_eq_some_iff {parent key : List String} {name : String} :
    nameIn? parent key = some name ↔
      key = parent ++ [name] ∧ name ≠ "" ∧ name ≠ "." ∧ name ≠ ".." := by
  unfold nameIn?
  split
  · next h =>
    subst h
    rw [Option.filter_eq_some_iff, decide_eq_true_eq]
    refine and_congr_left fun _ => ?_
    constructor
    · intro last
      exact (List.dropLast_append_getLast? _ last).symm
    · intro split
      rw [split]
      simp
  · next h =>
    refine ⟨nofun, fun ⟨split, _⟩ => absurd ?_ h⟩
    rw [split, List.dropLast_concat]

theorem mem_namesIn_iff {s : InMemory} {key : List String} {name : String} :
    name ∈ s.namesIn key ↔
      key ++ [name] ∈ s.directories ∧ name ≠ "" ∧ name ≠ "." ∧ name ≠ ".." := by
  rw [namesIn, List.mem_filterMap]
  simp only [nameIn?_eq_some_iff, Std.ExtTreeSet.mem_toList]
  constructor
  · rintro ⟨_, mem, rfl, fine⟩
    exact ⟨mem, fine⟩
  · rintro ⟨mem, fine⟩
    exact ⟨_, mem, rfl, fine⟩

theorem nodup_namesIn (s : InMemory) (key : List String) : (s.namesIn key).Nodup := by
  refine List.Nodup.filterMap (fun a a' name h h' => ?_) ?_
  · rw [Option.mem_def, nameIn?_eq_some_iff] at h h'
    rw [h.1, h'.1]
  · have := s.directories.distinct_toList
    refine this.imp fun h e => h ?_
    rw [e]
    exact Std.ReflCmp.compare_self

theorem numbersIn_eq {s : InMemory} {p : Path} (h : p.text = "" ∨ p.components ∈ s.directories)
    (number? : String → Option UInt64) :
    numbersIn s p number? = ((s.namesIn p.components).filterMap number?).mergeSort fun a b => b ≤ a := by
  have found : (Storage.directoriesIn p s : Except StorageError _) = .ok (s.namesIn p.components) :=
    if_pos (by simpa using h)
  rw [numbersIn, found]

theorem numbersIn_top (s : InMemory) (number? : String → Option UInt64) :
    numbersIn s .top number? = ((s.namesIn []).filterMap number?).mergeSort fun a b => b ≤ a :=
  numbersIn_eq (.inl rfl) number?

theorem numbersIn_congr {s s' : InMemory} {p : Path}
    (here : p.components ∈ s.directories ↔ p.components ∈ s'.directories)
    (inside : ∀ name, p.components ++ [name] ∈ s.directories ↔ p.components ++ [name] ∈ s'.directories)
    (number? : String → Option UInt64) : numbersIn s p number? = numbersIn s' p number? := by
  by_cases h : p.text = "" ∨ p.components ∈ s.directories
  · have names : (s.namesIn p.components).Perm (s'.namesIn p.components) := by
      rw [List.perm_ext_iff_of_nodup (s.nodup_namesIn _) (s'.nodup_namesIn _)]
      intro name
      rw [mem_namesIn_iff, mem_namesIn_iff, inside]
    rw [numbersIn_eq h, numbersIn_eq (h.imp_right here.mp)]
    exact descending_eq ((names.filterMap _).trans (List.mergeSort_perm _ _).symm)
      (pairwise_descending _)
  · have missing : ∀ {t : InMemory}, ¬ (p.text = "" ∨ p.components ∈ t.directories) →
        numbersIn t p number? = [] := by
      intro t h
      have : (Storage.directoriesIn p t : Except StorageError _) = .error (.missing p) :=
        if_neg (by simpa using h)
      rw [numbersIn, this]
    rw [missing h, missing fun h' => h (h'.imp_right here.mpr)]

end InMemory

/-! ## Validity -/

namespace Entry

/-- An entry with number `index` refers only to one before it. -/
def Backward (e : Entry) (index : Nat) : Prop :=
  ∀ target, e.body = .sameAs target → target.toNat < index

end Entry

section Validity

variable {σ : Type} [Storage σ] {storage : σ} {checkpoint : Path} {info : Info}

theorem readRecordFile_eq_ok_iff {p : Path} {bytes : Bytes} :
    readRecordFile storage p = .ok bytes ↔ Storage.read p storage = .ok bytes := by
  unfold readRecordFile
  cases Storage.read p storage <;> simp [Except.mapError]

/-- The entry with number `index` is there, is one, and does not refer ahead. -/
def ValidEntry (storage : σ) (checkpoint : Path) (index : Nat) : Prop :=
  ∃ bytes e, Storage.read (entryPath checkpoint index) storage = .ok bytes ∧
    Entry.decode bytes = .ok e ∧ e.Backward index

theorem validateEntries_succ_eq_ok_iff {remaining index : Nat} :
    validateEntries storage checkpoint (remaining + 1) index = .ok () ↔
      ValidEntry storage checkpoint index ∧
        validateEntries storage checkpoint remaining (index + 1) = .ok () := by
  rw [validateEntries, bind_eq_ok_iff]
  constructor
  · rintro ⟨bytes, read, run⟩
    obtain ⟨⟨width, count, body⟩, decoded, run⟩ := bind_eq_ok_iff.1 run
    have read := readRecordFile_eq_ok_iff.1 read
    cases body with
    | data payload => exact ⟨⟨bytes, _, read, decoded, nofun⟩, run⟩
    | sameAs target =>
      dsimp only at run
      split at run
      · cases run
      · next back =>
        refine ⟨⟨bytes, _, read, decoded, ?_⟩, run⟩
        rintro _ ⟨⟩
        omega
  · rintro ⟨⟨bytes, ⟨width, count, body⟩, read, decoded, back⟩, rest⟩
    refine ⟨bytes, readRecordFile_eq_ok_iff.2 read, bind_eq_ok_iff.2 ⟨_, decoded, ?_⟩⟩
    cases body with
    | data payload => exact rest
    | sameAs target =>
      dsimp only
      rw [if_neg (Nat.not_le_of_lt (back target rfl))]
      exact rest

theorem validateEntries_eq_ok_iff {remaining index : Nat} :
    validateEntries storage checkpoint remaining index = .ok () ↔
      ∀ j, index ≤ j → j < index + remaining → ValidEntry storage checkpoint j := by
  induction remaining generalizing index with
  | zero => exact ⟨fun _ j low high => absurd high (by omega), fun _ => rfl⟩
  | succ remaining ih =>
    rw [validateEntries_succ_eq_ok_iff, ih]
    constructor
    · rintro ⟨first, rest⟩ j low high
      by_cases e : j = index
      · exact e ▸ first
      · exact rest j (by omega) (by omega)
    · intro all
      exact ⟨all index (Nat.le_refl _) (by omega), fun j low high => all j (by omega) (by omega)⟩

theorem validateCheckpoint_eq_ok_iff :
    validateCheckpoint storage checkpoint = .ok info ↔
      (∃ bytes, Storage.read (infoPath checkpoint) storage = .ok bytes ∧ Info.decode bytes = .ok info) ∧
        ∀ j < info.count.toNat, ValidEntry storage checkpoint j := by
  unfold validateCheckpoint
  simp only [bind_eq_ok_iff, readRecordFile_eq_ok_iff]
  constructor
  · rintro ⟨bytes, read, i, decoded, ⟨⟩, entries, ⟨⟩⟩
    refine ⟨⟨bytes, read, decoded⟩, fun j hj => ?_⟩
    exact validateEntries_eq_ok_iff.1 entries j (Nat.zero_le _) (by omega)
  · rintro ⟨⟨bytes, read, decoded⟩, entries⟩
    refine ⟨bytes, read, info, decoded, (), ?_, rfl⟩
    exact validateEntries_eq_ok_iff.2 fun j _ hj => entries j (by omega)

end Validity

end CheckpointRestart
