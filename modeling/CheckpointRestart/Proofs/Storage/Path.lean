import CheckpointRestart.Storage.Path

/-! # Components of joined paths -/

namespace CheckpointRestart.Path

theorem pieces_ne_nil (xs : List Char) : pieces xs ≠ [] := by
  cases xs with
  | nil => simp [pieces]
  | cons c xs =>
    rw [pieces]
    split
    · simp
    · split <;> simp

theorem pieces_append (xs ys : List Char) : pieces (xs ++ '/' :: ys) = pieces xs ++ pieces ys := by
  induction xs with
  | nil => rfl
  | cons c xs ih =>
    obtain ⟨piece, more, hp⟩ := List.exists_cons_of_ne_nil (pieces_ne_nil xs)
    rw [List.cons_append, pieces, pieces, ih, hp]
    split <;> rfl

theorem pieces_of_plain {xs : List Char} (h : '/' ∉ xs) : pieces xs = [xs] := by
  induction xs with
  | nil => rfl
  | cons c xs ih =>
    rw [List.mem_cons, not_or] at h
    rw [pieces, if_neg (Ne.symm h.1), ih h.2]

theorem pieces_append_plain (xs : List Char) : ∃ front last, ∀ ys, '/' ∉ ys →
    pieces (xs ++ ys) = front ++ [last ++ ys] := by
  induction xs with
  | nil => exact ⟨[], [], fun ys plain => pieces_of_plain plain⟩
  | cons c xs ih =>
    obtain ⟨front, last, ih⟩ := ih
    by_cases h : c = '/'
    · exact ⟨[] :: front, last, fun ys plain => by rw [List.cons_append, pieces, if_pos h, ih ys plain]; rfl⟩
    · cases front with
      | nil => exact ⟨[], c :: last, fun ys plain => by rw [List.cons_append, pieces, if_neg h, ih ys plain]; rfl⟩
      | cons piece front =>
        exact ⟨(c :: piece) :: front, last, fun ys plain => by
          rw [List.cons_append, pieces, if_neg h, ih ys plain]; rfl⟩

/-- The name of a single directory or file. -/
structure IsName (name : String) : Prop where
  nonempty : name ≠ ""
  not_dot : name ≠ "."
  not_dots : name ≠ ".."
  plain : '/' ∉ name.toList

/-- A path behind which a separator is written before a name. -/
structure Open (p : Path) : Prop where
  nonempty : p.text ≠ ""
  last : p.text.toList.getLast? ≠ some '/'

variable {p : Path} {name : String}

theorem isAbsolute_eq_false (h : IsName name) : isAbsolute ⟨name⟩ = false := by
  rw [Bool.eq_false_iff]
  intro absolute
  obtain ⟨rest, start⟩ := String.startsWith_string_iff.mp absolute
  apply h.plain
  rw [← start]
  simp

theorem endsWith_eq_false (h : p.Open) : p.text.endsWith "/" = false := by
  rw [Bool.eq_false_iff]
  intro ends
  have ends : "/".toList <:+ p.text.toSlice.copy.toList := String.Slice.endsWith_string_iff.mp ends
  rw [String.copy_toSlice] at ends
  obtain ⟨front, split⟩ := ends
  apply h.last
  rw [← split]
  simp

theorem text_join (h : p.Open) (hn : IsName name) : (p.join name).text = p.text ++ "/" ++ name := by
  rw [join, if_neg (by simp [isAbsolute_eq_false hn]), if_neg]
  simp [h.nonempty, endsWith_eq_false h]

theorem IsName.getLast? (h : IsName name) : name.toList.getLast? ≠ some '/' :=
  fun e => h.plain (List.mem_of_getLast? e)

theorem open_of_isName (h : IsName name) : Open ⟨name⟩ :=
  ⟨h.nonempty, h.getLast?⟩

theorem open_join (h : p.Open) (hn : IsName name) : (p.join name).Open := by
  have filled : name.toList ≠ [] := fun e => hn.nonempty (String.toList_eq_nil_iff.mp e)
  have last := List.getLast?_eq_some_getLast filled
  constructor
  · rw [text_join h hn]
    intro e
    simp [hn.nonempty] at e
  · rw [text_join h hn, String.toList_append, List.getLast?_append, last]
    exact fun e => hn.getLast? (last.trans e)

theorem components_of_isName (h : IsName name) : components ⟨name⟩ = [name] := by
  simp [components, rawPieces, pieces_of_plain h.plain, h.nonempty]

theorem components_join (h : p.Open) (hn : IsName name) :
    (p.join name).components = p.components ++ [name] := by
  have text := text_join h hn
  have filled : (p.join name).text ≠ "" := (open_join h hn).nonempty
  have raw : (p.join name).rawPieces = p.rawPieces ++ [name] := by
    rw [rawPieces, text, rawPieces, String.toList_append, String.toList_append, List.append_assoc]
    rw [show "/".toList ++ name.toList = '/' :: name.toList from rfl, pieces_append,
      pieces_of_plain hn.plain]
    simp
  have some_piece : p.rawPieces ≠ [] := by simpa [rawPieces] using pieces_ne_nil _
  obtain ⟨first, rest, hp⟩ := List.exists_cons_of_ne_nil some_piece
  simp [components, filled, h.nonempty, raw, hp, hn.nonempty, hn.not_dot]

end CheckpointRestart.Path
