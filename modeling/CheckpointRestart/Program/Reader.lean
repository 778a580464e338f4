import CheckpointRestart.Program.Reader.Instruction

/-! # Reading programs

A function is read in three passes over its lines: the first names its values and blocks, the
second reads the instructions, and the third infers the result types that follow from operand
types. Empty lines and lines that start with a semicolon are ignored.
-/

namespace CheckpointRestart.Reader

open Text Context

/-- Names a new value, which must not be named yet. -/
def define (f : Function) (line : Nat) (name : List Char) (type : Ty) :
    Read (ValueId × Function) :=
  let name := String.ofList name
  if (f.valueNamed? name).isSome then .error (.line line (.valueTwice name))
  else .ok (f.newValue name type)

/-- The name after a percent sign. -/
def percentName? (s : List Char) : Option (List Char) :=
  (afterStart? "%" s).filter isIdentifier

def parameter (line : Nat) (f : Function) (s : List Char) : Read Function := do
  let c : Context := ⟨f, line⟩
  let (name, type) ← c.orFail (splitAtChar? ':' s) (.parameter (String.ofList s))
  let name ← c.orFail (percentName? (trim name)) (.parameterName (String.ofList (trim name)))
  let t ← c.valueType type
  let (v, f) ← define f line name t
  return { f with params := f.params ++ [v] }

def header (line : Line) : Read Function := do
  let c : Context := ⟨.empty "" .void, line.number⟩
  let malformed := LineFault.expected "fn <name>(<params>) -> <type> \x7b"
  let rest ← c.orFail (between? "fn " '\x7b' line.text) malformed
  let (signature, returns) ← c.orFail (splitAtLast? "->".toList rest) malformed
  let (name, params) ← c.orFail (splitAtChar? '(' (trim signature)) malformed
  let params ← c.orFail (beforeEnd? ')' (trim params)) malformed
  let name := trim name
  if !isIdentifier name then
    c.fail (.functionName (String.ofList name))
  let t ← c.orFail (Ty.read? returns) (.type (String.ofList (trim returns)))
  (commaParts params).foldlM (parameter line.number) (.empty (String.ofList name) t)

/-- An instruction line whose result, if it has one, is already named. -/
structure Pending where
  line : Nat
  block : BlockId
  result : Option ValueId
  text : List Char

/-- The blocks and values named so far, and the instruction lines still to be read. -/
structure Outline where
  function : Function
  /-- The last label seen. -/
  current : Option BlockId
  pending : List Pending

def outline (o : Outline) (line : Line) : Read Outline := do
  let c : Context := ⟨o.function, line.number⟩
  match (beforeEnd? ':' line.text).filter isIdentifier with
  | some label =>
    let label := String.ofList label
    if (o.function.blockNamed? label).isSome then
      c.fail (.blockTwice label)
    let (b, f) := o.function.addBlock label
    return { o with function := f, current := some b }
  | none =>
    let (result, text, f) ← match splitAt? " = ".toList line.text with
      | some (lhs, text) => do
        let name ← c.orFail (percentName? (trim lhs)) (.valueName (String.ofList lhs))
        let (v, f) ← define o.function line.number name .void
        pure (some v, trim text, f)
      | none => pure (none, line.text, o.function)
    match o.current with
    | some b =>
      return { o with
        function := f, pending := o.pending ++ [⟨line.number, b, result, text⟩] }
    | none => c.fail .outsideBlock

/-- The second pass over one instruction line; `untyped` collects the results whose types remain
to be inferred. -/
def readPending (state : Function × List (Nat × ValueId)) (p : Pending) :
    Read (Function × List (Nat × ValueId)) := do
  let (f, untyped) := state
  let c : Context := ⟨f, p.line⟩
  let (op, type) ← c.instruction p.text
  match p.result, op.producesValue with
  | some _, false => c.fail .noValue
  | none, true => c.fail .unnamedResult
  | none, false => return (f.append p.block ⟨none, op⟩, untyped)
  | some v, true =>
    let f := f.append p.block ⟨some v, op⟩
    match type with
    | some t => return (f.setValueType v t, untyped)
    | none => return (f, untyped ++ [(p.line, v)])

/-- The type of an operand, if it is known already. -/
def knownType? (f : Function) (x : Operand) : Option Ty :=
  let t := f.operandType x
  if t.isVoid then none else some t

/-- The result type that follows from the operand types known so far. -/
def inferOp (f : Function) (line : Nat) : Op → Read (Option Ty)
  | .load x =>
    match knownType? f x with
    | some (.ptr t) => .ok (some t)
    | some _ => .error (.line line .loadType)
    | none => .ok none
  | .gep x _ =>
    match knownType? f x with
    | some t => if t.isPointer then .ok (some t) else .error (.line line .addressType)
    | none => .ok none
  | .binary _ x y => .ok ((knownType? f x).or (knownType? f y))
  | _ => .ok none

def inferPass (definition? : ValueId → Option Op) (f : Function) :
    List (Nat × ValueId) → Read (Function × List (Nat × ValueId))
  | [] => .ok (f, [])
  | (line, v) :: rest => do
    match ← ((definition? v).map (inferOp f line)).getD (.ok none) with
    | some t => inferPass definition? (f.setValueType v t) rest
    | none =>
      let (f, still) ← inferPass definition? f rest
      return (f, (line, v) :: still)

/-- Repeats the passes while each one types something; at most `fuel` passes can. -/
def inferTypes (definition? : ValueId → Option Op) :
    Nat → Function → List (Nat × ValueId) → Read Function
  | _, f, [] => .ok f
  | 0, f, (line, v) :: _ => .error (.line line (.unknownType (f.valueName v)))
  | fuel + 1, f, untyped => do
    let (f, still) ← inferPass definition? f untyped
    match still with
    | [] => return f
    | (line, v) :: _ =>
      if still.length = untyped.length then
        .error (.line line (.unknownType (f.valueName v)))
      else inferTypes definition? fuel f still

def function (first : Line) (body : List Line) : Read Function := do
  let f ← header first
  let o ← body.foldlM outline ⟨f, none, []⟩
  let (f, untyped) ← o.pending.foldlM readPending (o.function, [])
  let definition? (v : ValueId) : Option Op :=
    ((f.definition? v).bind f.instructionAt?).map (·.op)
  let f ← inferTypes definition? untyped.length f untyped
  match f.validate with
  | .ok () => return f
  | .error fault => .error (.illFormed f.name fault)

/-- The functions read so far, and the lines of the one that is still open. -/
structure Progress where
  functions : List Function
  opened : Option (Line × List Line)

def progress (p : Progress) (line : Line) : Read Progress := do
  if line.text.isEmpty || line.text.head? == some ';' then
    return p
  match p.opened with
  | none =>
    if (afterStart? "fn " line.text).isSome then
      return { p with opened := some (line, []) }
    else .error (.line line.number (.expected "fn"))
  | some (first, body) =>
    if line.text = ['\x7d'] then
      let f ← function first body.reverse
      if p.functions.any (·.name == f.name) then
        .error (.line first.number (.functionTwice f.name))
      return ⟨p.functions ++ [f], none⟩
    else return { p with opened := some (first, line :: body) }

def numberedLines (text : String) : List Line :=
  (lines text.toList).zipIdx.map fun (l, i) => ⟨i + 1, trim l⟩

end CheckpointRestart.Reader

namespace CheckpointRestart

namespace Program

open Reader in
def read (text : String) : Except ReadError Program := do
  let ls := numberedLines text
  let p ← ls.foldlM progress ⟨[], none⟩
  if p.opened.isSome then
    throw (.line ls.length .unterminated)
  return ⟨p.functions⟩

end Program

namespace Function

def read (text : String) : Except ReadError Function := do
  match (← Program.read text).functions with
  | [f] => return f
  | fs => throw (.line 1 (.functionCount fs.length))

end Function

end CheckpointRestart
