import CheckpointRestart.Text.Affix

/-! # Cutting text into parts

All cuts are first or last occurrences of a separator. The list of parts between commas counts
brackets, so that a comma inside a bracketed group does not separate.
-/

namespace CheckpointRestart.Text

/-- What stands before and after the first `sep`. -/
def splitAtChar? (sep : Char) : List Char → Option (List Char × List Char)
  | [] => none
  | c :: rest =>
    if c = sep then some ([], rest)
    else (splitAtChar? sep rest).map fun (before, after) => (c :: before, after)

/-- What stands before and after the first occurrence of `sep`. -/
def splitAt? (sep : List Char) : List Char → Option (List Char × List Char)
  | [] => if sep.isEmpty then some ([], []) else none
  | c :: rest =>
    match dropStart? sep (c :: rest) with
    | some after => some ([], after)
    | none => (splitAt? sep rest).map fun (before, after) => (c :: before, after)

/-- What stands before and after the last occurrence of `sep`. -/
def splitAtLast? (sep s : List Char) : Option (List Char × List Char) :=
  (splitAt? sep.reverse s.reverse).map fun (after, before) => (before.reverse, after.reverse)

/-- How a character changes the bracket depth. -/
def depthChange (c : Char) : Int :=
  if c = '[' ∨ c = '(' ∨ c = '<' then 1
  else if c = ']' ∨ c = ')' ∨ c = '>' then -1
  else 0

/-- The pieces between the commas at bracket depth zero, starting at depth `depth`. The result is
never empty. -/
def pieces (depth : Int) : List Char → List (List Char)
  | [] => [[]]
  | c :: rest =>
    if c = ',' ∧ depth = 0 then [] :: pieces depth rest
    else match pieces (depth + depthChange c) rest with
      | [] => [[c]]
      | p :: ps => (c :: p) :: ps

/-- The trimmed parts of a comma-separated list; a blank text has none. -/
def commaParts (s : List Char) : List (List Char) :=
  match trim s with
  | [] => []
  | s => (pieces 0 s).map trim

/-- A name: one or more ASCII letters, digits, `_`, `.` or `-`. -/
def isIdentifier (s : List Char) : Bool :=
  !s.isEmpty && s.all fun c => c.isAlphanum || c == '_' || c == '.' || c == '-'

end CheckpointRestart.Text
