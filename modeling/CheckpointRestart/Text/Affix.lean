import CheckpointRestart.Text.Blank

/-! # Fixed beginnings and endings -/

namespace CheckpointRestart.Text

/-- What is left of a text without the given characters in front. -/
def dropStart? : (start s : List Char) → Option (List Char)
  | [], s => some s
  | _ :: _, [] => none
  | c :: start, d :: s => if c = d then dropStart? start s else none

/-- What is left of `s` without `start` in front. -/
def afterStart? (start : String) (s : List Char) : Option (List Char) :=
  dropStart? start.toList s

/-- What is left of `s` without the character `stop` at its end. -/
def beforeEnd? (stop : Char) (s : List Char) : Option (List Char) :=
  if s.getLast? = some stop then some s.dropLast else none

/-- What stands between `start` and `stop`. -/
def between? (start : String) (stop : Char) (s : List Char) : Option (List Char) :=
  (afterStart? start s).bind (beforeEnd? stop)

theorem length_of_dropStart? {start s rest : List Char} (h : dropStart? start s = some rest) :
    s.length = start.length + rest.length := by
  induction start generalizing s with
  | nil =>
    cases h
    simp
  | cons c start ih =>
    cases s with
    | nil => cases h
    | cons d s =>
      unfold dropStart? at h
      split at h
      · simp only [List.length_cons, ih h]
        omega
      · cases h

end CheckpointRestart.Text
