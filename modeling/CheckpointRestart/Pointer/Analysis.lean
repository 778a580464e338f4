import CheckpointRestart.Instrument.Edit
import CheckpointRestart.Pointer.Extent
import CheckpointRestart.Pointer.Roots

/-! # Finding the extents of pointers

Allocations and the argument vector have their extents by themselves. A derived pointer has the
extent of its source. A merged pointer gets two merges of its own, of the widths and of the counts
that come in with it; such a placeholder is dropped again where all predecessors agree. In the end
the alias set of a merged pointer holds no merged pointers any more, but what they stand for.
-/

namespace CheckpointRestart

/-- A derived pointer that waits for the extent of its source. -/
structure DerivedSeed where
  pointer : ValueId
  source : ValueId
  index : Option ValueId

/-- A merged pointer and the placeholders for its sizes. -/
structure MergeSeed where
  pointer : ValueId
  block : BlockId
  incoming : List (Operand × BlockId)
  width : ValueId
  count : ValueId

/-- What one look at every pointer gives. -/
structure Seeds where
  map : ExtentMap
  placeholders : ValueSet
  derived : List DerivedSeed
  merges : List MergeSeed

namespace Edit

def unsupported {α : Type} (v : ValueId) (reason : PointerFault) : Edit α := do
  throw (.unsupportedPointer ((← get).valueName v) reason)

/-- A size as a 64-bit operand. A narrower value is widened by a cast at the given place. -/
def widen (size : Operand) (b : BlockId) (position : Nat) (name : String) : Edit Operand := do
  match size with
  | .const (.int _ value) => return .i64 value
  | .const c => throw (.malformed (.sizeConstant c.render))
  | .value v =>
    let f ← get
    match f.valueType v with
    | .int 64 => return size
    | .int _ =>
      let wide ← newValue name .i64
      modify fun f => f.insertAt b position (.define wide (.cast size .i64))
      return .value wide
    | t => throw (.malformed (.sizeValue (f.valueName v) t.render))

end Edit

namespace Seeds

open Edit

def addExtent (s : Seeds) (v : ValueId) (e : Extent) : Seeds :=
  { s with map := s.map.insert v e }

def addDerived (s : Seeds) (d : DerivedSeed) : Seeds :=
  { s with derived := s.derived ++ [d] }

/-- The only pointer parameter with a known extent is the argument vector. -/
def parameter (s : Seeds) (p : ValueId) : Edit Seeds := do
  let f ← get
  if !(f.valueType p).isPointer then
    return s
  match f.params with
  | [argc, argv] =>
    if f.takesArguments && p == argv then
      let count ← widen (.value argc) f.entry 0 (f.valueName argc ++ ".wide")
      return s.addExtent p ⟨.parameter, .i64 64, count, {p}, none⟩
    unsupported p .parameter
  | _ => unsupported p .parameter

/-- Gives a merged pointer its two placeholders, in front of the merges of its block. -/
def merge (s : Seeds) (b : BlockId) (v : ValueId) (incoming : List (Operand × BlockId)) :
    Edit Seeds := do
  let name := (← get).valueName v
  let width ← newValue (name ++ ".bits") .i64
  let count ← newValue (name ++ ".count") .i64
  modify fun f => (f.insertFront b (.define count (.phi []))).insertFront b
    (.define width (.phi []))
  let sources := incoming.filterMap (·.1.value?)
  let extent : Extent :=
    ⟨.merge, .value width, .value count, sources.foldl (·.insert ·) ∅, none⟩
  return { s with
    map := s.map.insert v extent
    placeholders := (s.placeholders.insert count).insert width
    merges := s.merges ++ [⟨v, b, incoming, width, count⟩] }

/-- The seed of the pointer that `v` gets from `op` in block `b`. -/
def definition (s : Seeds) (d : BlockId × ValueId × Op) : Edit Seeds := do
  let (b, v, op) := d
  match op with
  | .alloca t n =>
    return s.addExtent v
      ⟨.allocation, .i64 (.ofNat t.storeBits), .i64 n.toInt64, {v}, none⟩
  | .malloc bytes =>
    let f ← get
    let position := ((Function.position? (f.body b) v).map (· + 1)).getD 0
    let count ← widen bytes b position (f.valueName v ++ ".bytes")
    return s.addExtent v ⟨.allocation, .i64 8, count, {v}, none⟩
  | .phi incoming => s.merge b v incoming
  | .gep (.value source) index => return s.addDerived ⟨v, source, index.value?⟩
  | .gep (.const _) _ => unsupported v .constantAddress
  | .load (.value source) => return s.addDerived ⟨v, source, none⟩
  | .load (.const _) => unsupported v .constantLoad
  | .cast x _ =>
    if !((← get).operandType x).isPointer then
      unsupported v .fromInteger
    match x with
    | .value source => return s.addDerived ⟨v, source, none⟩
    | .const _ => unsupported v .constantReinterpretation
  | .session (.readAlias _ _) => unsupported v .restored
  | _ => unsupported v .noRule

def collect : Edit Seeds := do
  let s ← (← get).params.foldlM parameter ⟨∅, ∅, [], []⟩
  (← get).pointerDefinitions.foldlM definition s

end Seeds

/-! ## Derived pointers -/

namespace ExtentMap

/-- Gives a derived pointer the extent of its source if that is known, or keeps it waiting. -/
def derive (state : ExtentMap × List DerivedSeed) (d : DerivedSeed) :
    ExtentMap × List DerivedSeed :=
  let (map, waiting) := state
  match map[d.source]? with
  | some source =>
    (map.insert d.pointer ⟨.derived d.source, source.width, source.count, {d.source}, d.index⟩,
      waiting)
  | none => (map, waiting ++ [d])

/-- Repeats passes over the waiting pointers while each one settles some. What is left in the end
is returned beside the map. -/
def settle : Nat → ExtentMap → List DerivedSeed → ExtentMap × List DerivedSeed
  | 0, map, waiting => (map, waiting)
  | fuel + 1, map, waiting =>
    let (map, still) := waiting.foldl derive (map, [])
    if still.length = waiting.length then (map, still) else settle fuel map still

end ExtentMap

/-- Settles all derived pointers. -/
def closeDerived (s : Seeds) : Edit ExtentMap := do
  let (map, waiting) := ExtentMap.settle s.derived.length s.map s.derived
  match (waiting.map (·.pointer.index)).min? with
  | none => return map
  | some v => throw (.unresolvedDerivedPointer ((← get).valueName ⟨v⟩))

/-! ## Placeholders -/

/-- The width and the count that come in with a merged pointer. The null pointer has none. -/
def incomingSizes (map : ExtentMap) (merged : ValueId) : Operand → Edit (Operand × Operand)
  | .value v =>
    match map[v]? with
    | some e => return (e.width, e.count)
    | none => Edit.unsupported merged .incomingUnknown
  | .const _ => return (.i64 0, .i64 0)

namespace Function

/-- Sets the incoming values of the merge that defines `phi` in block `b`. -/
def setIncoming (f : Function) (b : BlockId) (phi : ValueId)
    (incoming : List (Operand × BlockId)) : Function :=
  f.modifyBody b (·.map fun i => if i.result = some phi then { i with op := .phi incoming } else i)

/-- The distinct operands other than itself that flow into the merge `phi` of the given body. -/
def otherIncoming (body : List Instruction) (phi : ValueId) : List Operand :=
  match body.find? (·.result == some phi) with
  | some ⟨_, .phi incoming⟩ =>
    ((incoming.map (·.1)).filter (· ≠ .value phi)).eraseDups
  | _ => []

end Function

/-- Fills the placeholders of a merged pointer from each predecessor. -/
def fillPlaceholders (map : ExtentMap) (m : MergeSeed) : Edit Unit := do
  let sizes ← m.incoming.mapM fun (x, b) => do
    let (width, count) ← incomingSizes map m.pointer x
    return (width, count, b)
  modify fun f =>
    (f.setIncoming m.block m.width (sizes.map fun (w, _, b) => (w, b))).setIncoming m.block m.count
      (sizes.map fun (_, n, b) => (n, b))

/-- A placeholder into which only one operand flows, and that operand. -/
def agreedPlaceholder? (f : Function) (placeholders : ValueSet) : Option (ValueId × Operand) :=
  placeholders.toList.findSome? fun v => do
    let l ← f.definition? v
    match Function.otherIncoming (f.body l.block) v with
    | [x] => some (v, x)
    | _ => none

/-- Drops placeholders on which all predecessors agree, one after the other. -/
def collapsePlaceholders : Nat → Extents → Function → Extents × Function
  | 0, e, f => (e, f)
  | fuel + 1, e, f =>
    match agreedPlaceholder? f e.placeholders with
    | none => (e, f)
    | some (v, x) =>
      let map := e.map.map fun _ extent => extent.mapSizes (Operand.replace v x)
      collapsePlaceholders fuel ⟨map, e.placeholders.erase v⟩
        ((f.eraseDefinition v).2.replaceUses v x)

/-! ## Alias sets of merged pointers -/

/-- The extents, and for each merged pointer the merged pointers already replaced in its alias
set. -/
structure AliasClosure where
  map : ExtentMap
  expanded : Std.ExtTreeMap ValueId ValueSet

namespace AliasClosure

def aliases (c : AliasClosure) (v : ValueId) : ValueSet :=
  match c.map[v]? with
  | some e => e.aliases
  | none => ∅

/-- Replaces the merged pointer `m` in the alias set of `p` by those of its own members that may
alias `p` and have not been replaced there before. -/
def expand (oracle : AliasOracle) (p : ValueId) (c : AliasClosure) (m : ValueId) : AliasClosure :=
  let replaced := (c.expanded.getD p ∅).insert m
  let members := if m = p then [] else
    (c.aliases m).toList.filter fun x => x ≠ p && !replaced.contains x && oracle p x
  { map := c.map.modify p fun e =>
      { e with aliases := members.foldl (·.insert ·) (e.aliases.erase m) }
    expanded := c.expanded.insert p replaced }

/-- The merged pointers in the alias set of `p`. -/
def unexpanded (merged : ValueSet) (c : AliasClosure) (p : ValueId) : List ValueId :=
  (c.aliases p).toList.filter merged.contains

/-- Expands each merged pointer once over. -/
def pass (oracle : AliasOracle) (merged : ValueSet) (c : AliasClosure) : AliasClosure :=
  merged.toList.foldl (fun c p => (c.unexpanded merged p).foldl (expand oracle p) c) c

def done (merged : ValueSet) (c : AliasClosure) : Bool :=
  merged.toList.all fun p => (c.unexpanded merged p).isEmpty

/-- Repeats passes until no alias set of a merged pointer holds a merged pointer. -/
def close (oracle : AliasOracle) (merged : ValueSet) : Nat → AliasClosure → AliasClosure
  | 0, c => c
  | fuel + 1, c =>
    if c.done merged then c else close oracle merged fuel (c.pass oracle merged)

end AliasClosure

/-- Replaces merged pointers in the alias sets of merged pointers. No pair of them is expanded
twice, which bounds the number of passes. -/
def closeAliases (oracle : AliasOracle) (merged : ValueSet) (map : ExtentMap) : ExtentMap :=
  (AliasClosure.close oracle merged (merged.size * merged.size + 1) ⟨map, ∅⟩).map

/-- Finds the extents of all pointers. Placeholders, and casts that widen sizes, are added to the
function. -/
def findExtents (oracle : AliasOracle) : Edit Extents := do
  let s ← Seeds.collect
  let map ← closeDerived s
  s.merges.forM (fillPlaceholders map)
  let e ← modifyGet (collapsePlaceholders s.placeholders.size ⟨map, s.placeholders⟩)
  let merged := s.merges.foldl (fun set m => set.insert m.pointer) (∅ : ValueSet)
  return { e with map := closeAliases oracle merged e.map }

end CheckpointRestart
