import CheckpointRestart.Instrument.Error

/-! # Edits that may fail

An edit of a function either succeeds with a result or fails with an error. The edits made before
a failure are kept, so that the function can be looked at as the failed pass left it.
-/

namespace CheckpointRestart

abbrev Edit := EStateM InstrumentError Function

namespace Edit

/-- The result of an edit, and the function as the edit leaves it. -/
def perform {α : Type} (m : Edit α) (f : Function) : Except InstrumentError α × Function :=
  match m.run f with
  | .ok a f => (.ok a, f)
  | .error e f => (.error e, f)

def newValue (name : String) (type : Ty) : Edit ValueId :=
  modifyGet fun f => f.newValue name type

end Edit

end CheckpointRestart
