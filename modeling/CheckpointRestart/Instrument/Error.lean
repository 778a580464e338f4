import CheckpointRestart.Program.Scoping
import CheckpointRestart.Program.Structure

/-! # Why a function cannot be instrumented -/

namespace CheckpointRestart

/-- What makes a function malformed. -/
inductive Malformation where
  | illFormed (fault : StructureFault)
  | scope (fault : ScopeFault)
  /-- The size of an allocation is a constant other than an integer. -/
  | sizeConstant (constant : String)
  /-- The size of an allocation is a value of another type than an integer. -/
  | sizeValue (value type : String)
  deriving DecidableEq, Repr

namespace Malformation

def message : Malformation → String
  | illFormed fault => fault.message
  | scope fault => fault.message
  | sizeConstant c => "size operand `" ++ c ++ "` is not an integer"
  | sizeValue v t => "size operand `%" ++ v ++ "` has non-integer type " ++ t

end Malformation

/-- Why the extent of a pointer cannot be told. -/
inductive PointerFault where
  | parameter
  | constantAddress
  | constantLoad
  | fromInteger
  | constantReinterpretation
  | restored
  | noRule
  | incomingUnknown
  deriving DecidableEq, Repr

namespace PointerFault

def message : PointerFault → String
  | parameter => "pointer parameter with no allocation site in this function"
  | constantAddress => "address computed from a constant"
  | constantLoad => "load through a constant address"
  | fromInteger => "integer to pointer conversion"
  | constantReinterpretation => "reinterpretation of a constant"
  | restored => "produced by the restart runtime"
  | noRule => "no provenance rule for this instruction"
  | incomingUnknown => "incoming pointer has no metadata"

end PointerFault

/-- Why a live value cannot be saved and restored. -/
inductive LiveFault where
  | dependency (operand : String)
  | noExtent
  | void
  | noAllocation
  | loaded
  | notRecomputable
  | operandsUnavailable
  | noAlias
  /-- The value is computed from itself without a merge in between. -/
  | circular
  deriving DecidableEq, Repr

namespace LiveFault

def message : LiveFault → String
  | dependency x => "depends on `" ++ x ++ "`, which is not available at the checkpoint"
  | noExtent => "pointer without size metadata"
  | void => "value of void type"
  | noAllocation => "allocation with no allocating instruction"
  | loaded => "pointer loaded from memory"
  | notRecomputable => "derived pointer with no recomputable definition"
  | operandsUnavailable =>
    "address computation whose operands are not available at the checkpoint"
  | noAlias => "none of the pointers it may alias has been checkpointed"
  | circular => "computed from itself"

end LiveFault

inductive InstrumentError where
  | unknownFunction (name : String)
  | alreadyInstrumented (name : String)
  | malformed (cause : Malformation)
  | unsupportedPointer (value : String) (reason : PointerFault)
  | unresolvedDerivedPointer (value : String)
  | unsupportedLiveValue (value : String) (reason : LiveFault)
  deriving DecidableEq, Repr

namespace InstrumentError

def message : InstrumentError → String
  | unknownFunction name => "no function named `" ++ name ++ "`"
  | alreadyInstrumented name =>
    "function `" ++ name ++ "` already contains checkpoint/restart instrumentation"
  | malformed cause => "malformed function: " ++ cause.message
  | unsupportedPointer v reason => "unsupported pointer `" ++ v ++ "`: " ++ reason.message
  | unresolvedDerivedPointer v => "derived pointer `" ++ v ++ "` has no resolvable source"
  | unsupportedLiveValue v reason =>
    "cannot checkpoint live value `" ++ v ++ "`: " ++ reason.message

end InstrumentError

end CheckpointRestart
