import CheckpointRestart.Flow.Liveness
import CheckpointRestart.Instrument.Insertion
import CheckpointRestart.Pointer.Analysis

/-! # Repairing dominance

After sites have been added, a restored value and the value it stands for can both reach a use. At
the start of every block into which such a value is live, a new merge picks the one that control
came with, and the uses in the block go through it. A merge into which only one operand flows is
dropped again, unless it is to be kept.
-/

namespace CheckpointRestart

/-- An incoming value of a merge that is to become what `value` is at the end of `source`. -/
structure OpenIncoming where
  block : BlockId
  phi : ValueId
  position : Nat
  source : BlockId
  value : ValueId

structure Repair where
  function : Function
  /-- What each value is at the end of each block, where it is not itself. -/
  mapping : Redefinitions
  incoming : List OpenIncoming
  /-- The merges added, with their blocks. -/
  added : List (BlockId × ValueId)

namespace Repair

/-- The incoming values of the old merges of `b` that are `v` and come from `source`. -/
def mergeUses (r : Repair) (b : BlockId) (v : ValueId) (source : BlockId) : List OpenIncoming :=
  (r.function.block b).phis.flatMap fun i =>
    match i.result, i.op with
    | some phi, .phi incoming =>
      if r.added.any (·.2 == phi) then []
      else incoming.zipIdx.filterMap fun ((x, p), position) =>
        if x = .value v ∧ p = source then some ⟨b, phi, position, source, v⟩ else none
    | _, _ => []

/-- Adds a merge of `v` at the start of `b` and lets the uses in `b` go through it. -/
def addMerge (r : Repair) (b : BlockId) (v : ValueId) (preds : List BlockId) : Repair :=
  let f := r.function
  let (phi, f) := f.newValue (f.valueName v ++ ".cr") (f.valueType v)
  let f := f.replaceUsesIn b v (.value phi)
  let f := f.insertFront b (.define phi (.phi (preds.map fun p => (.value v, p))))
  { function := f
    mapping := r.mapping.insert b ((r.mapping.getD b ∅).insert v (.value phi))
    incoming := r.incoming ++ preds.zipIdx.map fun (p, i) => ⟨b, phi, i, p, v⟩
    added := r.added ++ [(b, phi)] }

/-- Deals with the values of `values` that are live into `b`. -/
def block (values : ValueSet) (live : Liveness) (r : Repair) (b : BlockId) : Repair :=
  let preds := r.function.predecessors b
  if preds.isEmpty then r
  else (live.liveIn b).toList.foldl (fun r u =>
    if values.contains u.value then
      match u.source with
      | some source => { r with incoming := r.incoming ++ r.mergeUses b u.value source }
      | none => r.addMerge b u.value preds
    else r) r

end Repair

namespace Function

def setIncomingAt (f : Function) (b : BlockId) (phi : ValueId) (position : Nat) (x : Operand) :
    Function :=
  f.modifyBody b (·.map fun i =>
    match i.result, i.op with
    | some v, .phi incoming =>
      if v = phi then { i with op := .phi (incoming.modify position fun (_, p) => (x, p)) } else i
    | _, _ => i)

end Function

namespace Repair

/-- Sets the open incoming values to what the values are at the ends of their sources. -/
def connect (r : Repair) : Function :=
  r.incoming.foldl (fun f o =>
    let x := match r.mapping[o.source]? with
      | some m => m.getD o.value (.value o.value)
      | none => .value o.value
    f.setIncomingAt o.block o.phi o.position x) r.function

end Repair

namespace Function

/-- Drops a merge into which only one operand other than itself flows. -/
def dropRedundant (state : Function × List (BlockId × ValueId)) (m : BlockId × ValueId) :
    Function × List (BlockId × ValueId) :=
  let (f, kept) := state
  match otherIncoming (f.body m.1) m.2 with
  | [x] => ((f.eraseDefinition m.2).2.replaceUses m.2 x, kept)
  | _ => (f, kept ++ [m])

/-- Drops redundant merges until none of those listed is redundant. -/
def dropAllRedundant : Nat → Function → List (BlockId × ValueId) → Function
  | 0, f, _ => f
  | fuel + 1, f, merges =>
    let (f, kept) := merges.foldl dropRedundant (f, [])
    if kept.length = merges.length then f else dropAllRedundant fuel f kept

/-- Merges every restored value with the one it stands for wherever both can reach. -/
def repairDominance (f : Function) (redefined : Redefinitions) (keepRedundant : Bool) : Function :=
  let values : ValueSet :=
    redefined.foldl (fun set _ m => m.foldl (fun set v _ => set.insert v) set) ∅
  if values.isEmpty then f
  else
    let summary := redefined.foldl (fun s r m => s.define r m.keys) (f.summarize ∅ .none)
    let live := Liveness.compute summary
    let r := f.layout.foldl (Repair.block values live) ⟨f, redefined, [], []⟩
    let f := r.connect
    if keepRedundant then f else f.dropAllRedundant (r.added.length + 1) r.added

end Function

end CheckpointRestart
