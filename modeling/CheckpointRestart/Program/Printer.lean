import CheckpointRestart.Number.Literal
import CheckpointRestart.Program.Function

/-! # The text of programs

A function is written with one line for each label and each instruction. Value operands carry no
type; constants do.
-/

namespace CheckpointRestart

open Number

def commaSeparated (parts : List String) : String :=
  String.intercalate ", " parts

namespace Constant

def render : Constant → String
  | int bits value => "i" ++ toString bits ++ " " ++ toString value.toInt
  | f32 pattern => "f32 " ++ Layout.source.render .single pattern.toNat
  | f64 pattern => "f64 " ++ Layout.source.render .double pattern.toNat
  | null t => "null " ++ t.render

end Constant

namespace Function

def renderOperand (f : Function) : Operand → String
  | .value v => "%" ++ f.valueName v
  | .const c => c.render

def renderCandidate (f : Function) (c : AliasCandidate) : String :=
  "[" ++ commaSeparated [f.renderOperand c.width, f.renderOperand c.count,
    toString c.index.toNat, f.renderOperand c.address] ++ "]"

def renderSessionCall (f : Function) (c : SessionCall) : String :=
  let args := match c with
    | .setup | .finish | .restartLabel | .restartFinish => []
    | .start label count => [toString label.toNat, toString count.toNat]
    | .savePointer w n a | .readPointer w n a => [w, n, a].map f.renderOperand
    | .saveAlias w n a cs => [w, n, a].map f.renderOperand ++ cs.map f.renderCandidate
    | .readAlias w n => [w, n].map f.renderOperand
  if args.isEmpty then c.mnemonic else c.mnemonic ++ " " ++ commaSeparated args

/-- The text of an operation; `type` is the type of its result, which only a merge spells out. -/
def renderOp (f : Function) (type : Ty) : Op → String
  | .alloca t n => "alloca " ++ t.render ++ ", " ++ toString n.toNat
  | .malloc x => "malloc " ++ f.renderOperand x
  | .free x => "free " ++ f.renderOperand x
  | .phi incoming =>
    let pairs := incoming.map fun (x, b) =>
      "[" ++ f.renderOperand x ++ ", " ++ f.blockName b ++ "]"
    if pairs.isEmpty then "phi " ++ type.render
    else "phi " ++ type.render ++ " " ++ commaSeparated pairs
  | .gep x y => "gep " ++ f.renderOperand x ++ ", " ++ f.renderOperand y
  | .cast x t => "cast " ++ f.renderOperand x ++ " to " ++ t.render
  | .load x => "load " ++ f.renderOperand x
  | .store x y => "store " ++ f.renderOperand x ++ ", " ++ f.renderOperand y
  | .binary op x y => op.mnemonic ++ " " ++ f.renderOperand x ++ ", " ++ f.renderOperand y
  | .compare rel x y =>
    "cmp " ++ rel.mnemonic ++ " " ++ f.renderOperand x ++ ", " ++ f.renderOperand y
  | .call callee args =>
    "call @" ++ callee ++ "(" ++ commaSeparated (args.map f.renderOperand) ++ ")"
  | .session c => f.renderSessionCall c
  | .br b => "br " ++ f.blockName b
  | .condBr x t e =>
    "condbr " ++ commaSeparated [f.renderOperand x, f.blockName t, f.blockName e]
  | .switch x d cases =>
    let arms := cases.map fun (k, b) => toString k.toInt ++ ": " ++ f.blockName b
    "switch " ++ f.renderOperand x ++ ", " ++ f.blockName d ++ " [" ++ commaSeparated arms ++ "]"
  | .ret none => "ret"
  | .ret (some x) => "ret " ++ f.renderOperand x

def renderInstruction (f : Function) (i : Instruction) : String :=
  match i.result with
  | some v => "%" ++ f.valueName v ++ " = " ++ f.renderOp (f.valueType v) i.op
  | none => f.renderOp .void i.op

def renderHeader (f : Function) : String :=
  let params := f.params.map fun p => "%" ++ f.valueName p ++ ": " ++ (f.valueType p).render
  "fn " ++ f.name ++ "(" ++ commaSeparated params ++ ") -> " ++ f.returns.render ++ " \x7b"

def renderBlock (f : Function) (b : BlockId) : List String :=
  (f.blockName b ++ ":") :: (f.body b).map fun i => "  " ++ f.renderInstruction i

def renderLines (f : Function) : List String :=
  [f.renderHeader] ++ f.layout.flatMap f.renderBlock ++ ["\x7d"]

def render (f : Function) : String :=
  String.join (f.renderLines.map (· ++ "\n"))

instance : ToString Function := ⟨render⟩

end Function

namespace Program

def render (p : Program) : String :=
  String.intercalate "\n" (p.functions.map Function.render)

instance : ToString Program := ⟨render⟩

end Program

end CheckpointRestart
