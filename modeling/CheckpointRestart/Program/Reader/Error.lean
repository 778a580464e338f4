import CheckpointRestart.Program.Structure

/-! # Why a text is not a program -/

namespace CheckpointRestart

inductive LineFault where
  /-- The line does not have the form shown. -/
  | expected (form : String)
  | functionName (name : String)
  | parameter (text : String)
  | parameterName (name : String)
  | valueName (name : String)
  | type (text : String)
  | operand (text : String)
  | number (text : String)
  | operandCount (expected found : Nat)
  | relation (name : String)
  | instruction (name : String)
  | sessionCall (name : String)
  | arguments (call : String)
  | valueTwice (name : String)
  | blockTwice (name : String)
  | functionTwice (name : String)
  | outsideBlock
  | noValue
  | unnamedResult
  | loadType
  | addressType
  | unknownType (value : String)
  | unterminated
  | functionCount (found : Nat)
  deriving DecidableEq, Repr

namespace LineFault

def message : LineFault → String
  | expected form => "expected `" ++ form ++ "`"
  | functionName name => "invalid function name `" ++ name ++ "`"
  | parameter text => "invalid parameter `" ++ text ++ "`"
  | parameterName name => "invalid parameter name `" ++ name ++ "`"
  | valueName name => "invalid value name `" ++ name ++ "`"
  | type text => "invalid type `" ++ text ++ "`"
  | operand text => "invalid operand `" ++ text ++ "`"
  | number text => "invalid number `" ++ text ++ "`"
  | operandCount n m => "expected " ++ toString n ++ " operands, found " ++ toString m
  | relation name => "unknown predicate `" ++ name ++ "`"
  | instruction name => "unknown instruction `" ++ name ++ "`"
  | sessionCall name => "unknown runtime call `" ++ name ++ "`"
  | arguments call => "`" ++ call ++ "` takes no arguments"
  | valueTwice name => "`%" ++ name ++ "` is defined twice"
  | blockTwice name => "block `" ++ name ++ "` is defined twice"
  | functionTwice name => "function `" ++ name ++ "` is defined twice"
  | outsideBlock => "instruction outside of a block"
  | noValue => "instruction does not produce a value"
  | unnamedResult => "instruction result must be named"
  | loadType => "load from a non-pointer"
  | addressType => "address computation on a non-pointer"
  | unknownType value => "cannot infer the type of `%" ++ value ++ "`"
  | unterminated => "unterminated function"
  | functionCount n => "expected one function, found " ++ toString n

end LineFault

inductive ReadError where
  /-- A malformed line, counted from one. -/
  | line (number : Nat) (fault : LineFault)
  | unknownBlock (function label : String)
  | unknownValue (function name : String)
  /-- The function was read but breaks a structural rule. -/
  | illFormed (function : String) (fault : StructureFault)
  deriving DecidableEq, Repr

namespace ReadError

def message : ReadError → String
  | line n fault => "line " ++ toString n ++ ": " ++ fault.message
  | unknownBlock f label => "function `" ++ f ++ "`: unknown block `" ++ label ++ "`"
  | unknownValue f name => "function `" ++ f ++ "`: unknown value `%" ++ name ++ "`"
  | illFormed f fault => "function `" ++ f ++ "`: " ++ fault.message

end ReadError

end CheckpointRestart
