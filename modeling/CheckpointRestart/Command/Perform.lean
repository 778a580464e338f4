import CheckpointRestart.Command.Basic
import CheckpointRestart.Command.Host
import CheckpointRestart.Flow.Drawing
import CheckpointRestart.Machine.Run
import CheckpointRestart.Program.Reader

/-! # Performing a command

A command prints its results and returns an exit code. A failure is a line on standard error.
-/

namespace CheckpointRestart

namespace ExitCode

def success : UInt8 := 0

def failure : UInt8 := 1

def usage : UInt8 := 2

def abort : UInt8 := 101

end ExitCode

namespace Command

variable {m : Type → Type} [Monad m] [Host m]

/-- A part of a command that may end it with an exit code. -/
abbrev Act (m : Type → Type) := ExceptT UInt8 m

def fail {α : Type} (message : String) : Act m α := do
  Host.complain ("error: " ++ message ++ "\n")
  throw ExitCode.failure

def orFail {ε α : Type} (message : ε → String) : Except ε α → Act m α
  | .ok a => return a
  | .error e => fail (message e)

def readProgram (path : Path) : Act m Program := do
  let unreadable (e : String) : String := "could not read `" ++ path.text ++ "`: " ++ e
  let bytes ← orFail unreadable (← Host.readFile path)
  match String.fromUTF8? ⟨bytes.toArray⟩ with
  | none => fail (unreadable "stream did not contain valid UTF-8")
  | some text =>
    orFail (fun e => "could not parse `" ++ path.text ++ "`: " ++ e.message) (Program.read text)

def writeText (path : Path) (text : String) : Act m Unit := do
  orFail (fun e => "could not write `" ++ path.text ++ "`: " ++ e)
    (← Host.writeFile path text.toUTF8.toList)

def performInstrument (c : InstrumentCommand) : Act m Unit := do
  let p ← readProgram c.input
  let (sites, p) ← orFail InstrumentError.message (p.instrument c.function c.config)
  match c.output with
  | some path => writeText path p.render
  | none => Host.say p.render
  match c.drawing, p.function? c.function with
  | some path, some f =>
    writeText path (f.draw (sites.filterMap fun s => f.blockNamed? s.block))
  | _, _ => pure ()

/-- The settings: an interval given here wins over that of the environment. -/
def settings (interval : Option String) : Act m Settings := do
  let override (s : Settings) (text : Option String) : Option Settings :=
    match text with
    | some t => s.overrideInterval t
    | none => some s
  match (override .default (← Host.interval)).bind (override · interval) with
  | some s => return s
  | none => throw ExitCode.abort

/-- The session call that comes next, if one does. -/
def nextCall? (c : Control) : Option SessionCall :=
  match c.todo with
  | ⟨_, .session call⟩ :: _ => some call
  | _ => none

/-- Executes up to `steps` more instructions. The clock is read anew for every session call, and
checkpoints are kept as soon as they are written. -/
def execute (f : Function) (config : RunConfig) :
    (steps : Nat) → Control → State Subtree → m (Except ExecError Outcome × State Subtree)
  | 0, c, s => pure (continueSteps f config 0 c s)
  | steps + 1, c, s =>
    match nextCall? c with
    | none =>
      match advanceRun f config c s with
      | .running c s => execute f config steps c s
      | .done r s => pure (r, s)
    | some call => do
      let clock ← Host.clock
      match advanceRun f config c { s with session := { s.session with clock } } with
      | .running c s =>
        if call = .setup ∨ call = .finish then
          Host.keep s.session.storage
        execute f config steps c s
      | .done r s =>
        Host.keep s.session.storage
        pure (r, s)

def performRun (c : RunCommand) : Act m Unit := do
  let p ← readProgram c.input
  let p ← if c.instrument then
      (·.2) <$> orFail InstrumentError.message (p.instrument c.function c.config)
    else pure p
  match p.function? c.function with
  | none => fail (InstrumentError.unknownFunction c.function).message
  | some f =>
    let settings ← settings c.interval
    let session := .new settings (← Host.checkpoints c.root) (← Host.clock)
    let config : RunConfig := { haltAfter := c.haltAfter }
    let (result, s) ← match beginMain f c.args (State.initial session) with
      | .running control s => execute f config config.stepLimit control s
      | .done r s => pure (r, s)
    Host.say (String.join (s.output.toList.map (· ++ "\n")))
    match ← orFail ExecError.message result with
    | .returned _ => pure ()
    | .halted n => Host.complain ("halted after " ++ toString n ++ " checkpoints\n")

def describeCheckpoint (storage : Subtree) (directory : Path) : String :=
  directory.text ++ match validateCheckpoint storage directory with
    | .ok info =>
      ": label " ++ toString info.label.toNat ++ ", " ++ toString info.count.toNat ++ " entries\n"
    | .error e => ": invalid (" ++ e.message ++ ")\n"

def describeRestart (storage : Subtree) (directories : List Path) : String :=
  match Session.newestValid storage directories with
  | some (directory, info) =>
    "restart resumes at label " ++ toString info.label.toNat ++ " from " ++ directory.text ++ "\n"
  | none => "no valid checkpoint; a restart starts from the beginning\n"

def performVerify (root : Path) : Act m Unit := do
  let settings ← settings none
  let storage ← Host.checkpoints root
  let directories := checkpoints storage settings.stem
  for directory in directories do
    Host.say (describeCheckpoint storage directory)
  Host.say (describeRestart storage directories)

def usage : String :=
  "usage: instrument FILE [--function F] [--output P] [--output-dot P] [-Z FLAG]...\n" ++
  "       run FILE [--function F] [--instrument] [--checkpoint-root D] [--interval S]\n" ++
  "           [--halt-after-checkpoints N] [-Z FLAG]... [-- ARG...]\n" ++
  "       verify [--checkpoint-root D]\n"

def perform (args : List String) : m UInt8 := do
  let act : Act m Unit := match read? args with
    | none => do
      Host.complain usage
      throw ExitCode.usage
    | some (.instrument c) => performInstrument c
    | some (.run c) => performRun c
    | some (.verify root) => performVerify root
  match ← act.run with
  | .ok () => return ExitCode.success
  | .error code => return code

end Command

end CheckpointRestart
