import CheckpointRestart.Command.Options
import CheckpointRestart.Instrument.Basic
import CheckpointRestart.Storage.Path
import CheckpointRestart.Text.Decimal

/-! # Commands

The command line asks for one of three things: to instrument a program, to run one, or to list the
checkpoints of a directory.
-/

namespace CheckpointRestart

structure InstrumentCommand where
  input : Path
  function : String
  /-- Where the program goes; standard output if absent. -/
  output : Option Path
  /-- Where a drawing of the function goes, if one is wanted. -/
  drawing : Option Path
  config : InstrumentConfig
  deriving DecidableEq, Repr

structure RunCommand where
  input : Path
  function : String
  /-- Whether to instrument the function first. -/
  instrument : Bool
  /-- The directory of the checkpoints. -/
  root : Path
  /-- The least number of seconds between checkpoints. -/
  interval : Option String
  haltAfter : Option Nat
  config : InstrumentConfig
  args : List String
  deriving DecidableEq, Repr

inductive Command where
  | instrument (command : InstrumentCommand)
  | run (command : RunCommand)
  /-- List the checkpoints under a directory. -/
  | verify (root : Path)
  deriving DecidableEq, Repr

namespace Command

/-- The options that every command has. They only concern logging. -/
def loggingRules : List OptionRule :=
  [{ name := "debug-disable-terminal-logging" },
   { name := "debug-forced-blocking-terminal-logging" },
   { name := "log", takesValue := true },
   { name := "debug", letter := some 'd', repeatable := true }]

def functionRule : OptionRule :=
  { name := "function", takesValue := true }

def configRule : OptionRule :=
  { name := "advanced-config", letter := some 'Z', takesValue := true, repeatable := true }

def rootRule : OptionRule :=
  { name := "checkpoint-root", takesValue := true }

def instrumentRules : List OptionRule :=
  [functionRule, { name := "output", takesValue := true },
   { name := "output-dot", takesValue := true }, configRule] ++ loggingRules

def runRules : List OptionRule :=
  [functionRule, { name := "instrument" }, rootRule, { name := "interval", takesValue := true },
   { name := "halt-after-checkpoints", takesValue := true }, configRule] ++ loggingRules

def verifyRules : List OptionRule :=
  rootRule :: loggingRules

def value? (pieces : List Piece) (name : String) : Option String :=
  pieces.findSome? (Piece.value? name)

/-- Applies a flag of the instrumentation. One of them concerns logging alone. -/
def applyFlag? (config : InstrumentConfig) (flag : String) : Option InstrumentConfig :=
  if flag = "use-conservative-alias-oracle" then some { config with conservative := true }
  else if flag = "keep-redundant-repair-merges" then some { config with keepRedundant := true }
  else if flag = "enable-trace-live-sets" then some config
  else none

def config? (pieces : List Piece) : Option InstrumentConfig :=
  (pieces.filterMap (Piece.value? configRule.name)).foldlM applyFlag? {}

def functionName (pieces : List Piece) : String :=
  (value? pieces functionRule.name).getD "main"

def root (pieces : List Piece) : Path :=
  ⟨(value? pieces rootRule.name).getD "."⟩

def readInstrument? (args : List String) : Option Command := do
  let pieces ← OptionRule.read? instrumentRules args
  match pieces.filterMap Piece.positional? ++ pieces.filterMap Piece.trailing? with
  | [input] =>
    return .instrument {
      input := ⟨input⟩
      function := functionName pieces
      output := (value? pieces "output").map Path.mk
      drawing := (value? pieces "output-dot").map Path.mk
      config := ← config? pieces }
  | _ => none

def readRun? (args : List String) : Option Command := do
  let pieces ← OptionRule.read? runRules args
  match pieces.filterMap Piece.positional? with
  | [input] =>
    let haltAfter ← match value? pieces "halt-after-checkpoints" with
      | none => some none
      | some text => (Text.uint64? text.toList).map fun n => some n.toNat
    return .run {
      input := ⟨input⟩
      function := functionName pieces
      instrument := pieces.any (Piece.isOption "instrument")
      root := root pieces
      interval := value? pieces "interval"
      haltAfter
      config := ← config? pieces
      args := pieces.filterMap Piece.trailing? }
  | _ => none

def readVerify? (args : List String) : Option Command := do
  let pieces ← OptionRule.read? verifyRules args
  guard (pieces.filterMap Piece.positional? ++ pieces.filterMap Piece.trailing?).isEmpty
  return .verify (root pieces)

def read? : List String → Option Command
  | "instrument" :: args => readInstrument? args
  | "run" :: args => readRun? args
  | "verify" :: args => readVerify? args
  | _ => none

end Command

end CheckpointRestart
