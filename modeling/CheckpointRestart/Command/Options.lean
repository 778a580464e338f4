import CheckpointRestart.Text.Split

/-! # Command line options

Splitting arguments into options and positional arguments. A long option is `--name`, with its
value attached by an equals sign or as the next argument. Short options are letters behind one
dash; the rest of the argument is the value of the first letter that takes one. What stands behind
`--` is never an option. A value in an argument of its own may not start with a dash, except for a
dash alone. An option that may be repeated needs a value in one of the places where it is given, not
in all of them.
-/

namespace CheckpointRestart

structure OptionRule where
  name : String
  letter : Option Char := none
  takesValue : Bool := false
  /-- Whether the option may be given several times. -/
  repeatable : Bool := false
  deriving DecidableEq, Repr

/-- A piece of a command line. -/
inductive Piece where
  /-- An option, and its value if it has one there. -/
  | option (name : String) (value : Option String)
  | positional (text : String)
  /-- An argument behind `--`. -/
  | trailing (text : String)
  deriving DecidableEq, Repr

namespace Piece

def isOption (name : String) : Piece → Bool
  | option n _ => n == name
  | _ => false

def value? (name : String) : Piece → Option String
  | option n v => if n = name then v else none
  | _ => none

def positional? : Piece → Option String
  | positional s => some s
  | _ => none

def trailing? : Piece → Option String
  | trailing s => some s
  | _ => none

end Piece

namespace OptionRule

/-- Reads a group of letters: the options in it, and the name of the last one if its value is still
to come. -/
def letters (rules : List OptionRule) : List Char → Option (List Piece × Option String)
  | [] => some ([], none)
  | c :: rest => do
    let rule ← rules.find? (·.letter == some c)
    if rule.takesValue then
      match rest with
      | [] => return ([], some rule.name)
      | '=' :: value => return ([.option rule.name (some (.ofList value))], none)
      | value => return ([.option rule.name (some (.ofList value))], none)
    else
      let (pieces, pending) ← letters rules rest
      return (.option rule.name none :: pieces, pending)

def long (rules : List OptionRule) (body : List Char) : Option (List Piece × Option String) := do
  match Text.splitAtChar? '=' body with
  | some (name, value) =>
    let rule ← rules.find? (·.name == .ofList name)
    guard rule.takesValue
    return ([.option rule.name (some (.ofList value))], none)
  | none =>
    let rule ← rules.find? (·.name == .ofList body)
    if rule.takesValue then
      return ([], some rule.name)
    else
      return ([.option rule.name none], none)

def withoutValue (pending : Option String) : List Piece :=
  (pending.map (Piece.option · none)).toList

/-- Splits the arguments into pieces; `pending` is the name of an option whose value may come
next. -/
def split (rules : List OptionRule) : (pending : Option String) → List String → Option (List Piece)
  | pending, [] => some (withoutValue pending)
  | pending, arg :: rest =>
    match arg.toList with
    | ['-', '-'] => some (withoutValue pending ++ rest.map .trailing)
    | '-' :: '-' :: body => do
      let (pieces, next) ← long rules body
      return withoutValue pending ++ pieces ++ (← split rules next rest)
    | '-' :: c :: more => do
      let (pieces, next) ← letters rules (c :: more)
      return withoutValue pending ++ pieces ++ (← split rules next rest)
    | _ => do
      let piece := match pending with
        | some name => .option name (some arg)
        | none => .positional arg
      return piece :: (← split rules none rest)

/-- Whether an option occurs as often as it may, and with a value if it takes one. -/
def isRespected (rule : OptionRule) (pieces : List Piece) : Bool :=
  let occurrences := pieces.filter (Piece.isOption rule.name)
  (rule.repeatable || occurrences.length ≤ 1) &&
    (!rule.takesValue || occurrences.isEmpty || occurrences.any (·.value? rule.name |>.isSome))

def read? (rules : List OptionRule) (args : List String) : Option (List Piece) :=
  (split rules none args).filter fun pieces => rules.all (·.isRespected pieces)

end OptionRule

end CheckpointRestart
