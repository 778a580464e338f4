import CheckpointRestart.Instrument.Repair
import CheckpointRestart.Instrument.Split

/-! # Instrumentation

The whole pass over a function: find the extents of its pointers, split its merge blocks, choose
the sites, add their blocks, and repair dominance. A function without sites is left as the first
two steps leave it. The result is checked again before it is handed out.
-/

namespace CheckpointRestart

structure InstrumentConfig where
  /-- Assume that any two pointers may be equal. -/
  conservative : Bool := false
  /-- Keep the merges of the repair that have only one incoming operand. -/
  keepRedundant : Bool := false
  deriving DecidableEq, Repr

def insertSites (e : Extents) (sites : List Site) (keepRedundant : Bool) :
    Edit (List SiteReport) := do
  if sites.isEmpty then
    return []
  let pointerOps := (← get).pointerOps e
  let s ← sites.foldlM (insertSite e pointerOps) .empty
  modify fun f => (f.dispatch s).repairDominance s.redefined keepRedundant
  return s.reports

def liftStructure : Except StructureFault Unit → Edit Unit
  | .ok () => return
  | .error fault => throw (.malformed (.illFormed fault))

def liftScoping : Except ScopeFault Unit → Edit Unit
  | .ok () => return
  | .error fault => throw (.malformed (.scope fault))

def instrument (config : InstrumentConfig) : Edit (List SiteReport) := do
  let f ← get
  liftStructure f.validate
  if f.isInstrumented then
    throw (.alreadyInstrumented f.name)
  let oracle := if config.conservative then .conservative else AliasOracle.ofRoots f.roots
  let e ← findExtents oracle
  let merges ← modifyGet Function.splitMerges
  let f ← get
  let summary := f.summarize merges (e.companions (Scope.ofFunction f))
  let reports ← insertSites e (Liveness.compute summary).sites config.keepRedundant
  liftStructure (← get).validate
  liftScoping (← get).checkScoping
  return reports

namespace Program

/-- Instruments one function of a program; the others are left alone. -/
def instrument (p : Program) (name : String) (config : InstrumentConfig) :
    Except InstrumentError (List SiteReport × Program) :=
  match p.function? name with
  | none => .error (.unknownFunction name)
  | some f =>
    match (CheckpointRestart.instrument config).perform f with
    | (.ok reports, f) => .ok (reports, p.replaceFunction f)
    | (.error e, _) => .error e

end Program

end CheckpointRestart
