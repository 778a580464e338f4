import CheckpointRestart.Collection.IndexedSet
import CheckpointRestart.Instrument.Edit
import CheckpointRestart.Instrument.Site
import CheckpointRestart.Instrument.Slots

/-! # Code for one site

For each value live at a site, code that saves it is added to the checkpoint block and code that
restores it to the restart block, after the code for everything it depends on. Scalars are saved
through a spill slot, allocations by their contents. A derived pointer is computed again from
restored operands. A merged pointer is saved as a reference to the entry of the pointer it equals;
members without an entry of their own get an empty one to be referred to.

A value that is being visited is not visited again from within, so the recursion ends unless an
address is computed from itself; the depth allowed is more than any other function needs.
-/

namespace CheckpointRestart

/-- What is fixed while the code for a site is made. -/
structure EmissionPlan where
  extents : Extents
  params : List ValueId
  /-- The operations that define pointers, as they were before any code was added. -/
  pointerOps : Std.ExtTreeMap ValueId Op
  live : ValueSet

structure Emission where
  function : Function
  slots : Slots
  /-- The values with an entry; the position of a value is that of its entry. -/
  written : IndexedSet ValueId
  /-- The restart-side counterparts of the values dealt with. -/
  restored : Std.ExtTreeMap ValueId Operand
  visiting : ValueSet
  /-- Both sides of alias members that were computed again at the site. -/
  recomputed : Std.ExtTreeMap ValueId (Operand × Operand)
  /-- The checkpoint-side addresses of members that got an empty entry. -/
  anchors : Std.ExtTreeMap ValueId Operand
  checkpoint : List Instruction
  restart : List Instruction

abbrev Emit := EStateM InstrumentError Emission

namespace Emission

def begin (f : Function) (slots : Slots) : Emission :=
  ⟨f, slots, ∅, ∅, ∅, ∅, ∅, [], []⟩

def unsupported {α : Type} (v : ValueId) (reason : LiveFault) : Emit α := do
  throw (.unsupportedLiveValue ((← get).function.valueName v) reason)

def newValue (name : String) (type : Ty) : Emit ValueId :=
  modifyGet fun st =>
    let (v, f) := st.function.newValue name type
    (v, { st with function := f })

def atCheckpoint (i : Instruction) : Emit Unit :=
  modify fun st => { st with checkpoint := st.checkpoint ++ [i] }

def atRestart (i : Instruction) : Emit Unit :=
  modify fun st => { st with restart := st.restart ++ [i] }

def markWritten (v : ValueId) : Emit Unit :=
  modify fun st => { st with written := st.written.insert v }

def setRestored (v : ValueId) (x : Operand) : Emit Unit :=
  modify fun st => { st with restored := st.restored.insert v x }

def call (c : SessionCall) : Instruction :=
  .effect (.session c)

variable (plan : EmissionPlan)

/-- The restart-side counterpart of an operand, if there is one yet. Constants and parameters are
their own. -/
def counterpart? (st : Emission) : Operand → Option Operand
  | .const c => some (.const c)
  | .value v => if plan.params.contains v then some (.value v) else st.restored[v]?

/-- The restart-side counterpart of an operand that `v` depends on. -/
def counterpart (x : Operand) (v : ValueId) : Emit Operand := do
  let st ← get
  match counterpart? plan st x with
  | some y => return y
  | none => unsupported v (.dependency (st.function.renderOperand x))

def scalar (v : ValueId) : Emit Unit := do
  let t := (← get).function.valueType v
  if t.isPointer then
    unsupported v .noExtent
  if t.isVoid then
    unsupported v .void
  let width : Operand := .i64 (.ofNat t.bitWidth)
  let slot ← modifyGet fun st =>
    let (slot, slots, f) := st.slots.acquire st.function t
    (slot, { st with slots, function := f })
  atCheckpoint (.effect (.store (.value v) (.value slot)))
  atCheckpoint (call (.savePointer width (.i64 1) (.value slot)))
  atRestart (call (.readPointer width (.i64 1) (.value slot)))
  let r ← newValue ((← get).function.valueName v ++ ".restored") t
  atRestart (.define r (.load (.value slot)))
  modify fun st => { st with slots := st.slots.release t slot }
  markWritten v
  setRestored v (.value r)

/-- Saves the contents of an allocation, and restores them into a new one of the same size. -/
def allocation (v : ValueId) (e : Extent) (name : String) (t : Ty) : Emit Unit := do
  let width ← counterpart plan e.width v
  let count ← counterpart plan e.count v
  let op ← match plan.pointerOps[v]? with
    | some (.alloca t n) => pure (.alloca t n)
    | some (.malloc _) => pure (.malloc count)
    | _ => unsupported v .noAllocation
  atCheckpoint (call (.savePointer e.width e.count (.value v)))
  let r ← newValue name t
  atRestart (.define r op)
  atRestart (call (.readPointer width count (.value r)))
  markWritten v
  setRestored v (.value r)

/-- The address computation or reinterpretation of a derived pointer with restored operands. -/
def reissued? (st : Emission) (v : ValueId) : Option Op :=
  match plan.pointerOps[v]? with
  | some (.gep x y) => do
    return .gep (← counterpart? plan st x) (← counterpart? plan st y)
  | some (.cast x t) => do
    return .cast (← counterpart? plan st x) t
  | _ => none

/-- Computes a derived pointer again from its restored operands. It gets no entry. -/
def reissue (v : ValueId) (name : String) (t : Ty) : Emit Unit := do
  match reissued? plan (← get) v with
  | none => unsupported v .operandsUnavailable
  | some op =>
    let r ← newValue name t
    atRestart (.define r op)
    setRestored v (.value r)

/-- Refuses derived pointers that cannot be computed again. -/
def checkDerived (v : ValueId) : Emit Unit :=
  match plan.pointerOps[v]? with
  | some (.gep _ _) | some (.cast _ _) => return
  | some (.load _) => unsupported v .loaded
  | _ => unsupported v .notRecomputable

/-- Gives `m` an empty entry, so that alias entries can refer to it. -/
def anchor (m : ValueId) (address restored : Operand) : Emit Unit := do
  atCheckpoint (call (.savePointer (.i64 8) (.i64 0) address))
  modify fun st => { st with anchors := st.anchors.insert m address }
  atRestart (call (.readPointer (.i64 8) (.i64 0) restored))
  markWritten m

/-- The members with an entry, ordered by its position. -/
def writtenMembers (st : Emission) (members : List ValueId) : List (Nat × ValueId) :=
  (members.filterMap fun m => (st.written.index? m).map (·, m)).mergeSort fun a b => a.1 ≤ b.1

def candidates (st : Emission) (members : List (Nat × ValueId)) : List AliasCandidate :=
  members.filterMap fun (i, m) =>
    (plan.extents.get? m).map fun e =>
      ⟨e.width, e.count, .ofNat i, st.anchors.getD m (.value m)⟩

/-- Saves a merged pointer as a reference to the member it equals, all of which have been dealt
with. -/
def reference (v : ValueId) (e : Extent) (members : List ValueId) (name : String) (t : Ty) :
    Emit Unit := do
  let st ← get
  let entries := writtenMembers st members
  if entries.isEmpty then
    unsupported v .noAlias
  let width ← counterpart plan e.width v
  let count ← counterpart plan e.count v
  atCheckpoint (call (.saveAlias e.width e.count (.value v) (candidates plan st entries)))
  let raw ← newValue (name ++ ".raw") .bytePtr
  atRestart (.define raw (.session (.readAlias width count)))
  let r ← if t = .bytePtr then pure raw else do
    let r ← newValue name t
    atRestart (.define r (.cast (.value raw) t))
    pure r
  markWritten v
  setRestored v (.value r)

/-- Adds both sides of an alias member that is computed again at the site. -/
def recomputedAs (m : ValueId) (checkpoint restart : Op) : Emit (Operand × Operand) := do
  let f := (← get).function
  let t := f.valueType m
  let name := f.valueName m
  let c ← newValue (name ++ ".at_checkpoint") t
  atCheckpoint (.define c checkpoint)
  let r ← newValue (name ++ ".restored") t
  atRestart (.define r restart)
  let both : Operand × Operand := (.value c, .value r)
  modify fun st => { st with recomputed := st.recomputed.insert m both }
  return both

mutual

/-- Adds the code for `v`, after the code for everything it depends on. -/
def visit : Nat → ValueId → Emit Unit
  | 0, v => unsupported v .circular
  | depth + 1, v => do
    let st ← get
    if plan.params.contains v || v ∈ st.restored || st.visiting.contains v then
      return
    modify fun st => { st with visiting := st.visiting.insert v }
    match plan.extents.get? v with
    | none => scalar v
    | some e =>
      e.sizeValues.forM (visit depth)
      let f := (← get).function
      let t := f.valueType v
      let name := f.valueName v ++ ".restored"
      match e.provenance with
      | .parameter => pure ()
      | .allocation => allocation plan v e name t
      | .derived source =>
        checkDerived plan v
        visit depth source
        e.index.toList.forM (visit depth)
        reissue plan v name t
      | .merge =>
        let members := e.aliases.toList
        members.forM fun m => if plan.live.contains m then visit depth m else pure ()
        members.forM (anchorMember depth)
        reference plan v e members name t
    modify fun st => { st with visiting := st.visiting.erase v }

/-- Gives an alias member an empty entry if it has none and is, or can be made, available. -/
def anchorMember : Nat → ValueId → Emit Unit
  | 0, m => unsupported m .circular
  | depth + 1, m => do
    let st ← get
    if (st.written.index? m).isSome then
      return
    match counterpart? plan st (.value m) with
    | some restored => anchor m (.value m) restored
    | none =>
      if !plan.live.contains m then
        if let some (address, restored) ← recompute depth m then
          anchor m address restored

/-- An operand as it reads at the checkpoint and as restored, if it is available there. -/
def bothSides : Nat → Operand → Emit (Option (Operand × Operand))
  | 0, .const c => return some (.const c, .const c)
  | 0, .value v => unsupported v .circular
  | depth + 1, x => do
    match counterpart? plan (← get) x, x with
    | some y, _ => return some (x, y)
    | none, .const _ => return some (x, x)
    | none, .value v =>
      if plan.live.contains v then
        visit depth v
        return (counterpart? plan (← get) x).map (x, ·)
      else if (plan.extents.get? v).isSome then
        recompute depth v
      else return none

/-- Computes an alias member that is not live again, on both sides, from operands that are
available; `none` if that cannot be done. -/
def recompute : Nat → ValueId → Emit (Option (Operand × Operand))
  | 0, m => unsupported m .circular
  | depth + 1, m => do
    if let some both := (← get).recomputed[m]? then
      return some both
    match plan.pointerOps[m]? with
    | some (.gep x y) =>
      let some (cx, rx) ← bothSides depth x | return none
      let some (cy, ry) ← bothSides depth y | return none
      return some (← recomputedAs m (.gep cx cy) (.gep rx ry))
    | some (.cast x t) =>
      let some (cx, rx) ← bothSides depth x | return none
      return some (← recomputedAs m (.cast cx t) (.cast rx t))
    | _ => return none

end

/-- More than the nesting of visits can be in a function with `n` values: visits within one
another are of different values, and so are the recomputations between two of them. -/
def depthBound (n : Nat) : Nat :=
  4 * (n + 1) * (n + 2)

/-- Adds the code for all values live at a site. -/
def visitAll (values : List ValueId) : Emit Unit := do
  let depth := depthBound (← get).function.values.size
  values.forM (visit plan depth)

end Emission

end CheckpointRestart
