import Std.Data.ExtTreeMap
import Std.Data.ExtTreeSet
import CheckpointRestart.Program.Function

/-! # Definitions and uses of blocks

What each block defines, and what it uses before defining it. A use by a merge belongs to the edge
it comes in by, so it is tagged with the block at the other end of that edge. Using a value may
bring further values along that have to be kept wherever it is; these are its companions.
-/

namespace CheckpointRestart

abbrev ValueSet := Std.ExtTreeSet ValueId

abbrev BlockSet := Std.ExtTreeSet BlockId

/-- A use of a value, by a merge for the edge from `source` if that is given. -/
structure Use where
  value : ValueId
  source : Option BlockId
  deriving DecidableEq, Repr, Inhabited

namespace Use

/-- Orders the uses of one value: the ordinary one first, then by source. -/
def rank (u : Use) : Nat :=
  match u.source with
  | none => 0
  | some b => b.index + 1

instance : Ord Use := ⟨compareLex (compareOn Use.value) (compareOn Use.rank)⟩

instance : Std.TransOrd Use :=
  inferInstanceAs (Std.TransCmp (compareLex (compareOn Use.value) (compareOn Use.rank)))

instance : Std.LawfulEqOrd Use where
  eq_of_compare {a b} h := by
    obtain ⟨hv, hr⟩ := compareLex_eq_eq.mp h
    have hvalue : a.value = b.value := Std.LawfulEqOrd.eq_of_compare hv
    have hrank : a.rank = b.rank := Nat.compare_eq_eq.mp hr
    obtain ⟨av, as⟩ := a
    obtain ⟨bv, bs⟩ := b
    cases as <;> cases bs <;> simp_all [rank]
    · next x y => cases x; cases y; simp_all

def ordinary (v : ValueId) : Use :=
  ⟨v, none⟩

/-- Whether the use flows back along the edge from `pred`. -/
def passes (u : Use) (pred : BlockId) : Bool :=
  match u.source with
  | none => true
  | some b => b = pred

/-- The use as the block at the other end of the edge sees it. -/
def cleared (u : Use) : Use :=
  ordinary u.value

end Use

abbrev UseSet := Std.ExtTreeSet Use

/-- A place at which a value is used: before a position of a block, or at its end. -/
structure UsePoint where
  block : BlockId
  position : Option Nat
  deriving DecidableEq, Repr

/-- The values to keep along with a value used at a place. -/
abbrev Companions := ValueId → UsePoint → List ValueId

namespace Companions

def none : Companions :=
  fun _ _ => []

end Companions

/-- What the analyses need to know about a block. -/
structure Node where
  /-- Whether the block holds nothing but merges and a branch. -/
  isMerge : Bool
  successors : List BlockId
  predecessors : List BlockId
  defs : ValueSet
  /-- The values used before any definition in the block. -/
  uses : UseSet
  deriving Inhabited

structure Summary where
  /-- The blocks in layout order. -/
  layout : List BlockId
  nodes : Std.ExtTreeMap BlockId Node

namespace Summary

def node (s : Summary) (b : BlockId) : Node :=
  s.nodes.getD b default

/-- Counts `values` as defined at the start of `b`. -/
def define (s : Summary) (b : BlockId) (values : List ValueId) : Summary :=
  if b ∈ s.nodes then
    let node := s.node b
    { s with nodes := s.nodes.insert b { node with
        defs := values.foldl (·.insert ·) node.defs
        uses := values.foldl (fun uses v => uses.erase (.ordinary v)) node.uses } }
  else s

end Summary

/-- Adds a use and the uses of its companions. -/
def addUse (companions : Companions) (uses : UseSet) (v : ValueId) (source : Option BlockId)
    (point : UsePoint) : UseSet :=
  (v :: companions v point).foldl (fun uses w => uses.insert ⟨w, source⟩) uses

/-- Adds the uses of the instruction at `position` of `b`. A merge that refers to itself adds
nothing for that. -/
def addInstructionUses (companions : Companions) (b : BlockId) (position : Nat) (i : Instruction)
    (uses : UseSet) : UseSet :=
  match i.op with
  | .phi incoming =>
    incoming.foldl (fun uses (x, source) =>
      match x with
      | .value v =>
        if some v = i.result then uses
        else addUse companions uses v (some source) ⟨source, none⟩
      | .const _ => uses) uses
  | op => op.usedValues.foldl
      (fun uses v => addUse companions uses v none ⟨b, some position⟩) uses

namespace Function

/-- The definitions and uses of a block, collected from its last instruction to its first. -/
def blockUses (f : Function) (companions : Companions) (b : BlockId) : ValueSet × UseSet :=
  (f.body b).zipIdx.foldr (fun (i, position) (defs, uses) =>
    let (defs, uses) := match i.result with
      | some r => (defs.insert r, uses.erase (.ordinary r))
      | none => (defs, uses)
    (defs, addInstructionUses companions b position i uses)) (∅, ∅)

def node (f : Function) (merges : BlockSet) (companions : Companions) (b : BlockId) : Node :=
  let (defs, uses) := f.blockUses companions b
  { isMerge := merges.contains b
    successors := f.successors b
    predecessors := f.predecessors b
    defs := if b = f.entry then f.params.foldl (·.insert ·) defs else defs
    uses }

/-- Summarizes every block. The parameters count as defined by the entry. -/
def summarize (f : Function) (merges : BlockSet) (companions : Companions) : Summary where
  layout := f.layout
  nodes := f.layout.foldl (fun nodes b => nodes.insert b (f.node merges companions b)) ∅

end Function

end CheckpointRestart
