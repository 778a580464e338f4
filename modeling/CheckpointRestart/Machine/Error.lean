import CheckpointRestart.Machine.Value
import CheckpointRestart.Session.Error

/-! # Faults of a running program -/

namespace CheckpointRestart

inductive MemoryFault where
  | nullDereference
  | interiorFree (pointer : Pointer)
  | useAfterFree (pointer : Pointer)
  | wild (pointer : Pointer)
  | outOfBounds (pointer : Pointer)
  | access (length : Nat) (pointer : Pointer)
  deriving DecidableEq, Repr

namespace MemoryFault

def message : MemoryFault → String
  | nullDereference => "null pointer dereference"
  | interiorFree p => "free of interior pointer " ++ p.describe
  | useAfterFree p => "use after free of " ++ p.describe
  | wild p => "wild pointer " ++ p.describe
  | outOfBounds p => p.describe ++ " is out of bounds"
  | access n p => "access of " ++ toString n ++ " bytes at " ++ p.describe ++ " is out of bounds"

end MemoryFault

/-- Ways in which an instruction does not fit its operands or its place. -/
inductive TypeFault where
  | notInteger
  | notSize
  | notPointer
  | misplacedPhi
  | notAddressable
  | invalidCast
  | noResult
  | loadOfVoid
  | invalidOperands
  | incomparable
  | noTerminator
  deriving DecidableEq, Repr

namespace TypeFault

def message : TypeFault → String
  | notInteger => "expected an integer"
  | notSize => "expected a non-negative integer"
  | notPointer => "expected a pointer"
  | misplacedPhi => "phi after non-phi"
  | notAddressable => "address computation on a non-pointer"
  | invalidCast => "invalid cast"
  | noResult => "load without result"
  | loadOfVoid => "load of void"
  | invalidOperands => "invalid operand types"
  | incomparable => "incomparable operands"
  | noTerminator => "block has no terminator"

end TypeFault

/-- Why an execution failed. Instructions are given by their text. -/
inductive ExecError where
  | restore (cause : RestoreError)
  | undefinedValue (name : String)
  | type (text : String) (fault : TypeFault)
  | memory (fault : MemoryFault)
  | divisionByZero (text : String)
  | missingIncoming (text source : String)
  | unknownCallee (name : String)
  | argumentCount (expected got : Nat)
  | stepLimit (limit : Nat)
  deriving DecidableEq, Repr

namespace ExecError

def message : ExecError → String
  | restore cause => "restart aborted: " ++ cause.message
  | undefinedValue name => "use of undefined value `" ++ name ++ "`"
  | type text fault => "type error in `" ++ text ++ "`: " ++ fault.message
  | memory fault => "invalid memory access: " ++ fault.message
  | divisionByZero text => "division by zero in `" ++ text ++ "`"
  | missingIncoming text source =>
    "no incoming value for predecessor `" ++ source ++ "` in `" ++ text ++ "`"
  | unknownCallee name => "call to unknown function `@" ++ name ++ "`"
  | argumentCount expected got =>
    "expected " ++ toString expected ++ " arguments, got " ++ toString got
  | stepLimit limit => "step limit of " ++ toString limit ++ " exceeded"

end ExecError

end CheckpointRestart
