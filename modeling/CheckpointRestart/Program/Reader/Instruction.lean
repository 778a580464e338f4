import CheckpointRestart.Number.Literal
import CheckpointRestart.Program.Reader.Error
import CheckpointRestart.Text.Split

/-! # Reading instructions

An instruction is read in the context of a function whose values and blocks are already named, so
operands and branches may refer forward. Reading also gives the type of the result where the text
spells it out; the other types are inferred later.
-/

namespace CheckpointRestart.Reader

open Text Number

/-- A line of the text, counted from one, without the white space around it. -/
structure Line where
  number : Nat
  text : List Char
  deriving DecidableEq, Repr

/-- The function being read and the line looked at. -/
structure Context where
  function : Function
  line : Nat

namespace Context

abbrev Read (α : Type) := Except ReadError α

def fail {α : Type} (c : Context) (fault : LineFault) : Read α :=
  .error (.line c.line fault)

/-- The value of `x?`, or the fault if there is none. -/
def orFail {α : Type} (c : Context) (x? : Option α) (fault : LineFault) : Read α :=
  match x? with
  | some x => .ok x
  | none => c.fail fault

def block (c : Context) (s : List Char) : Read BlockId :=
  let label := String.ofList (trim s)
  match c.function.blockNamed? label with
  | some b => .ok b
  | none => .error (.unknownBlock c.function.name label)

def constant? (s : List Char) : Option Constant := do
  let (type, literal) ← splitAtChar? ' ' s
  if type = "null".toList then
    let t ← Ty.read? literal
    if t.isPointer then some (.null t) else none
  else
    match ← Ty.read? type with
    | .int bits => (int64? (trim literal)).map (Constant.ofInt bits)
    | .f32 => (Literal.read? (trim literal)).map fun l => .f32 (.ofNat (l.toBits .single))
    | .f64 => (Literal.read? (trim literal)).map fun l => .f64 (.ofNat (l.toBits .double))
    | _ => none

def operand (c : Context) (s : List Char) : Read Operand :=
  match trim s with
  | '%' :: name =>
    match c.function.valueNamed? (String.ofList name) with
    | some v => .ok (.value v)
    | none => .error (.unknownValue c.function.name (String.ofList name))
  | s => (c.orFail (constant? s) (.operand (String.ofList s))).map .const

/-- As many comma-separated operands as `count` says. -/
def operands (c : Context) (count : Nat) (s : List Char) : Read (List Operand) :=
  let parts := commaParts s
  if parts.length = count then parts.mapM c.operand
  else c.fail (.operandCount count parts.length)

def pair (c : Context) (s : List Char) : Read (Operand × Operand) := do
  match ← c.operands 2 s with
  | [x, y] => return (x, y)
  | xs => c.fail (.operandCount 2 xs.length)

def triple (c : Context) (s : List Char) : Read (Operand × Operand × Operand) := do
  match ← c.operands 3 s with
  | [x, y, z] => return (x, y, z)
  | xs => c.fail (.operandCount 3 xs.length)

def number {α : Type} (c : Context) (read? : List Char → Option α) (s : List Char) : Read α :=
  c.orFail (read? (trim s)) (.number (String.ofList (trim s)))

/-- A type other than `void`. -/
def valueType (c : Context) (s : List Char) : Read Ty :=
  c.orFail (Ty.readValue? s) (.type (String.ofList (trim s)))

/-- One incoming value of a merge with its block. -/
def incoming (c : Context) (s : List Char) : Read (Operand × BlockId) := do
  let malformed := LineFault.expected "[<value>, <block>]"
  let inner ← c.orFail (between? "[" ']' s) malformed
  match commaParts inner with
  | [x, b] => return (← c.operand x, ← c.block b)
  | _ => c.fail malformed

def phi (c : Context) (args : List Char) : Read (Op × Option Ty) := do
  let (type, rest) := (splitAtChar? ' ' args).getD (args, [])
  let t ← c.orFail (Ty.read? type) (.type (String.ofList (trim type)))
  return (.phi (← (commaParts rest).mapM c.incoming), some t)

def alloca (c : Context) (args : List Char) : Read (Op × Option Ty) := do
  match commaParts args with
  | [type, count] =>
    let t ← c.valueType type
    return (.alloca t (← c.number uint64? count), some (.ptr t))
  | _ => c.fail (.expected "alloca <type>, <count>")

def cast (c : Context) (args : List Char) : Read (Op × Option Ty) := do
  let (value, type) ←
    c.orFail (splitAtLast? " to ".toList args) (.expected "cast <value> to <type>")
  let t ← c.valueType type
  return (.cast (← c.operand value) t, some t)

def compare (c : Context) (args : List Char) : Read (Op × Option Ty) := do
  let (name, rest) ← c.orFail (splitAtChar? ' ' args) (.expected "cmp <pred> <lhs>, <rhs>")
  let rel ← c.orFail (Relation.all.find? (·.mnemonic.toList = name))
    (.relation (String.ofList name))
  let (x, y) ← c.pair rest
  return (.compare rel x y, some (.int 1))

def call (c : Context) (args : List Char) : Read (Op × Option Ty) := do
  let (callee, rest) ← c.orFail ((afterStart? "@" args).bind (splitAtChar? '('))
    (.expected "call @<name>(<args>)")
  let inner ← c.orFail (beforeEnd? ')' rest) (.expected ")")
  return (.call (String.ofList (trim callee)) (← (commaParts inner).mapM c.operand), none)

def condBr (c : Context) (args : List Char) : Read (Op × Option Ty) := do
  match commaParts args with
  | [x, t, e] => return (.condBr (← c.operand x) (← c.block t) (← c.block e), none)
  | _ => c.fail (.expected "condbr <cond>, <then>, <else>")

def switch (c : Context) (args : List Char) : Read (Op × Option Ty) := do
  let malformed := LineFault.expected "switch <value>, <default> [<cases>]"
  let (head, tail) ← c.orFail (splitAtChar? '[' args) malformed
  let cases ← c.orFail (beforeEnd? ']' (trim tail)) malformed
  match commaParts head with
  | [x, d] =>
    let value ← c.operand x
    let default ← c.block d
    let arms ← (commaParts cases).mapM fun arm => do
      let (key, target) ← c.orFail (splitAtChar? ':' arm) malformed
      return (← c.number int64? key, ← c.block target)
    return (.switch value default arms, none)
  | _ => c.fail malformed

def candidate (c : Context) (s : List Char) : Read AliasCandidate := do
  let malformed := LineFault.expected "[<bits>, <count>, <index>, <address>]"
  let inner ← c.orFail (between? "[" ']' s) malformed
  match commaParts inner with
  | [width, count, index, address] =>
    return { width := ← c.operand width, count := ← c.operand count,
             index := ← c.number uint64? index, address := ← c.operand address }
  | _ => c.fail malformed

def saveAlias (c : Context) (args : List Char) : Read SessionCall := do
  match commaParts args with
  | width :: count :: address :: rest =>
    let candidates ← rest.mapM c.candidate
    return .saveAlias (← c.operand width) (← c.operand count) (← c.operand address) candidates
  | _ => c.fail (.expected "rt.checkpoint_alias <bits>, <count>, <address>, <candidates>")

def sessionCall (c : Context) (name args : List Char) : Read SessionCall :=
  let alone (call : SessionCall) : Read SessionCall :=
    if args.isEmpty then .ok call else c.fail (.arguments (String.ofList name))
  match String.ofList name with
  | "rt.setup" => alone .setup
  | "rt.finish" => alone .finish
  | "rt.restart_label" => alone .restartLabel
  | "rt.restart_finish" => alone .restartFinish
  | "rt.start" => do
    match commaParts args with
    | [label, count] => return .start (← c.number uint64? label) (← c.number uint64? count)
    | _ => c.fail (.expected "rt.start <label>, <count>")
  | "rt.checkpoint_pointer" => do
    let (w, n, a) ← c.triple args
    return .savePointer w n a
  | "rt.read_pointer" => do
    let (w, n, a) ← c.triple args
    return .readPointer w n a
  | "rt.read_alias" => do
    let (w, n) ← c.pair args
    return .readAlias w n
  | "rt.checkpoint_alias" => c.saveAlias args
  | other => c.fail (.sessionCall other)

/-- The operation written in `s`, and the type of its result if the text spells it out. -/
def instruction (c : Context) (s : List Char) : Read (Op × Option Ty) := do
  let (name, rest) := (splitAtChar? ' ' s).getD (s, [])
  let args := trim rest
  match String.ofList name with
  | "alloca" => c.alloca args
  | "malloc" => return (.malloc (← c.operand args), some .bytePtr)
  | "free" => return (.free (← c.operand args), none)
  | "phi" => c.phi args
  | "gep" =>
    let (x, y) ← c.pair args
    return (.gep x y, none)
  | "cast" => c.cast args
  | "load" => return (.load (← c.operand args), none)
  | "store" =>
    let (x, y) ← c.pair args
    return (.store x y, none)
  | "cmp" => c.compare args
  | "call" => c.call args
  | "br" => return (.br (← c.block args), none)
  | "condbr" => c.condBr args
  | "switch" => c.switch args
  | "ret" =>
    if args.isEmpty then
      return (.ret none, none)
    return (.ret (some (← c.operand args)), none)
  | other =>
    if (afterStart? "rt." name).isSome then
      let call ← c.sessionCall name args
      return (.session call, if call.resultType.isVoid then none else some call.resultType)
    else match BinaryOp.all.find? (·.mnemonic == other) with
      | some op =>
        let (x, y) ← c.pair args
        return (.binary op x y, none)
      | none => c.fail (.instruction other)

end Context

end CheckpointRestart.Reader
