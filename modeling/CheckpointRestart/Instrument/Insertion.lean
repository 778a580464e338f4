import CheckpointRestart.Instrument.Emission

/-! # Checkpoint and restart blocks

Each site gets a checkpoint block on the edge that leads into it and a restart block beside it,
both of which branch to the site. When all sites have theirs, the entry of the function becomes a
dispatch: it asks the session for the label of the newest checkpoint and goes to the restart block
of that label, or to the code that was the entry.
-/

namespace CheckpointRestart

/-- What was added for one site. -/
structure SiteReport where
  label : Nat
  block : String
  checkpointBlock : String
  restartBlock : String
  /-- The names of the live values. -/
  live : List String
  /-- The number of entries a checkpoint holds. -/
  entries : Nat
  deriving DecidableEq, Repr

/-- The values that each restart block defines anew. -/
abbrev Redefinitions := Std.ExtTreeMap BlockId (Std.ExtTreeMap ValueId Operand)

/-- What is carried from site to site. -/
structure Insertion where
  slots : Slots
  restartBlocks : List (Nat × BlockId)
  redefined : Redefinitions
  reports : List SiteReport

namespace Insertion

def empty : Insertion :=
  ⟨.empty, [], ∅, []⟩

end Insertion

namespace Function

/-- The operations that define pointers with known extents. -/
def pointerOps (f : Function) (e : Extents) : Std.ExtTreeMap ValueId Op :=
  f.instructions.foldl (fun ops (_, i) =>
    match i.result with
    | some v => if (e.get? v).isSome then ops.insert v i.op else ops
    | none => ops) ∅

/-- Puts a checkpoint block on the edges into `n`, and an unconnected restart block behind it. -/
def openSite (f : Function) (n : BlockId) (label : Nat) : BlockId × BlockId × Function :=
  let preds := f.predecessors n
  let (c, f) := f.insertBlockAfter (preds.getLast?.getD n) ("checkpoint." ++ toString label)
  let (r, f) := f.insertBlockAfter c ("restart." ++ toString label)
  (c, r, preds.foldl (fun f p => (f.retarget p n c).replacePhiBlock n p c) f)

end Function

/-- Runs an emission as an edit of the function it works on. -/
def Emission.perform (m : Emit Unit) (slots : Slots) : Edit Emission := fun f =>
  match m (.begin f slots) with
  | .ok () st => .ok st st.function
  | .error e st => .error e st.function

/-- Adds the checkpoint and the restart block of a site. -/
def insertSite (e : Extents) (pointerOps : Std.ExtTreeMap ValueId Op) (s : Insertion)
    (site : Site) : Edit Insertion := do
  let n := site.block
  let (c, r) ← modifyGet fun f =>
    let (c, r, f) := f.openSite n site.label
    ((c, r), f)
  let plan : EmissionPlan :=
    { extents := e, params := (← get).params, pointerOps,
      live := site.live.foldl (·.insert ·) ∅ }
  let st ← Emission.perform (Emission.visitAll plan site.live) s.slots
  let entries := st.written.size
  let checkpoint := [Emission.call (.start (.ofNat site.label) (.ofNat entries))] ++
    st.checkpoint ++ [Emission.call .finish, .effect (.br n)]
  let restart := st.restart ++ [Emission.call .restartFinish, .effect (.br n)]
  modify fun f => (f.setBody c checkpoint).setBody r restart
  let f ← get
  return {
    slots := st.slots
    restartBlocks := s.restartBlocks ++ [(site.label, r)]
    redefined := s.redefined.insert r st.restored
    reports := s.reports ++ [{
      label := site.label
      block := f.blockName n
      checkpointBlock := f.blockName c
      restartBlock := f.blockName r
      live := site.live.map f.valueName
      entries }] }

namespace Function

/-- Moves the code of the entry to a block of its own and makes the entry dispatch to it or to one
of the restart blocks. -/
def dispatch (f : Function) (s : Insertion) : Function :=
  let entry := f.entry
  let (start, f) := f.insertBlockAfter entry (f.blockName entry ++ ".no_cr")
  let f := (f.setBody start (f.body entry)).setBody entry []
  let f := (f.successors start).foldl (fun f b => f.replacePhiBlock b entry start) f
  let f := s.slots.materialize f entry
  let (label, f) := f.newValue "restart.label" .i64
  let cases := s.restartBlocks.map fun (l, r) => (Int64.ofNat l, r)
  f.modifyBody entry (· ++ [
    .define label (.session .restartLabel),
    .effect (.session .setup),
    .effect (.switch (.value label) start cases)])

end Function

end CheckpointRestart
