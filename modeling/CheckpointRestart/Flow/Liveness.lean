import CheckpointRestart.Collection.Tree
import CheckpointRestart.Flow.Uses

/-! # Live values

A use is live into a block if the block makes it, or if it is live out of the block and the block
does not define its value. It is live out of a block if it is live into a successor and flows back
along that edge.

The live sets are found by applying these equations to the blocks of a queue, at first all blocks
from the last to the first. Where a live set grows, the predecessors of the block have to be looked
at again. There are only finitely many uses to add, so the queue runs empty.
-/

namespace CheckpointRestart

/-- The live sets at the starts of blocks, empty where there is no entry. -/
abbrev LiveMap := Std.ExtTreeMap BlockId UseSet

namespace Summary

variable {s : Summary} {ins ins' : LiveMap} {b : BlockId} {u : Use}

/-- What is live out of `b`, given what is live into its successors. -/
def liveOut (s : Summary) (ins : LiveMap) (b : BlockId) : UseSet :=
  (s.node b).successors.foldl (fun out succ =>
    (ins.getD succ ∅).foldl (fun out u => if u.passes b then out.insert u.cleared else out) out) ∅

/-- What is live into `b`, given what is live out of it. -/
def liveIn (s : Summary) (out : UseSet) (b : BlockId) : UseSet :=
  let node := s.node b
  out.foldl (fun live u => if node.defs.contains u.value then live else live.insert u) node.uses

/-- What the equations give for `b` from the present live sets. -/
def transfer (s : Summary) (ins : LiveMap) (b : BlockId) : UseSet :=
  s.liveIn (s.liveOut ins b) b

theorem mem_liveOut_iff :
    u ∈ s.liveOut ins b ↔
      ∃ c ∈ (s.node b).successors, ∃ w ∈ ins.getD c ∅, w.passes b = true ∧ u = w.cleared := by
  have inner : ∀ (out : UseSet) c,
      u ∈ (ins.getD c ∅).foldl
        (fun out w => if w.passes b then out.insert w.cleared else out) out ↔
      u ∈ out ∨ ∃ w ∈ ins.getD c ∅, w.passes b = true ∧ u = w.cleared := by
    intro out c
    rw [Std.ExtTreeSet.foldl_eq_foldl_toList]
    have spec : ∀ (t : UseSet) (w : Use),
        u ∈ (if w.passes b then t.insert w.cleared else t) ↔
          u ∈ t ∨ (w.passes b = true ∧ u = w.cleared) := by
      intro t w
      split
      · next h =>
        rw [TreeSet.mem_insert_iff]
        simp [h, or_comm]
      · next h => simp [h]
    simpa using mem_foldl_iff (fun t : UseSet => u ∈ t) _ spec (ins.getD c ∅).toList out
  have outer := mem_foldl_iff (fun t : UseSet => u ∈ t) _ inner (s.node b).successors ∅
  simpa [liveOut] using outer

theorem mem_liveIn_iff {out : UseSet} :
    u ∈ s.liveIn out b ↔ u ∈ (s.node b).uses ∨ (u ∈ out ∧ u.value ∉ (s.node b).defs) := by
  rw [liveIn, Std.ExtTreeSet.foldl_eq_foldl_toList]
  have spec : ∀ (t : UseSet) (w : Use),
      u ∈ (if (s.node b).defs.contains w.value then t else t.insert w) ↔
        u ∈ t ∨ (u = w ∧ w.value ∉ (s.node b).defs) := by
    intro t w
    split
    · next h => simp [Std.ExtTreeSet.contains_iff_mem.mp h]
    · next h =>
      rw [Std.ExtTreeSet.contains_iff_mem] at h
      rw [TreeSet.mem_insert_iff]
      simp [h, or_comm]
  rw [mem_foldl_iff (fun t : UseSet => u ∈ t) _ spec]
  refine or_congr Iff.rfl ⟨?_, fun ⟨hu, free⟩ => ⟨u, Std.ExtTreeSet.mem_toList.mpr hu, rfl, free⟩⟩
  rintro ⟨_, hu, rfl, free⟩
  exact ⟨Std.ExtTreeSet.mem_toList.mp hu, free⟩

theorem mem_transfer_iff :
    u ∈ s.transfer ins b ↔ u ∈ (s.node b).uses ∨
      ∃ c ∈ (s.node b).successors, ∃ w ∈ ins.getD c ∅,
        w.passes b = true ∧ w.value ∉ (s.node b).defs ∧ u = w.cleared := by
  rw [transfer, mem_liveIn_iff, mem_liveOut_iff]
  refine or_congr Iff.rfl ⟨?_, ?_⟩
  · rintro ⟨⟨c, hc, w, hw, passes, rfl⟩, free⟩
    exact ⟨c, hc, w, hw, passes, free, rfl⟩
  · rintro ⟨c, hc, w, hw, passes, free, rfl⟩
    exact ⟨⟨c, hc, w, hw, passes, rfl⟩, free⟩

/-- Everything live by `x` is live by `y`. -/
def Below (x y : LiveMap) : Prop :=
  ∀ b, ∀ u ∈ x.getD b ∅, u ∈ y.getD b ∅

theorem transfer_mono (h : Below ins ins') (hu : u ∈ s.transfer ins b) :
    u ∈ s.transfer ins' b := by
  rcases mem_transfer_iff.1 hu with hu | ⟨c, hc, w, hw, rest⟩
  · exact mem_transfer_iff.2 (.inl hu)
  · exact mem_transfer_iff.2 (.inr ⟨c, hc, w, h c w hw, rest⟩)

/-- Every use that can ever be live: those the blocks make, as made and as seen from before. -/
def conceivable (s : Summary) : List Use :=
  s.nodes.keys.flatMap fun b => (s.node b).uses.toList.flatMap fun u => [u, u.cleared]

theorem mem_conceivable_iff : u ∈ s.conceivable ↔
    ∃ c ∈ s.nodes, ∃ w ∈ (s.node c).uses, u = w ∨ u = w.cleared := by
  simp [conceivable]

theorem node_eq_default (h : b ∉ s.nodes) : s.node b = default :=
  Std.ExtTreeMap.getD_eq_fallback h

theorem mem_conceivable_of_mem_uses (h : u ∈ (s.node b).uses) : u ∈ s.conceivable := by
  refine mem_conceivable_iff.2 ⟨b, Decidable.byContradiction fun missing => ?_, u, h, .inl rfl⟩
  rw [node_eq_default missing] at h
  simp [default, instInhabitedNode.default] at h

theorem cleared_mem_conceivable (h : u ∈ s.conceivable) : u.cleared ∈ s.conceivable := by
  obtain ⟨c, hc, w, hw, rfl | rfl⟩ := mem_conceivable_iff.1 h
  · exact mem_conceivable_iff.2 ⟨c, hc, u, hw, .inr rfl⟩
  · exact mem_conceivable_iff.2 ⟨c, hc, w, hw, .inr rfl⟩

theorem mem_conceivable_of_mem_transfer (h : ∀ c, ∀ u ∈ ins.getD c ∅, u ∈ s.conceivable)
    (hu : u ∈ s.transfer ins b) : u ∈ s.conceivable := by
  rcases mem_transfer_iff.1 hu with hu | ⟨c, -, w, hw, -, -, rfl⟩
  · exact mem_conceivable_of_mem_uses hu
  · exact cleared_mem_conceivable (h c w hw)

def degree (s : Summary) : Nat :=
  (s.nodes.keys.flatMap fun b => (s.node b).predecessors).length

theorem length_predecessors_le : (s.node b).predecessors.length ≤ s.degree := by
  by_cases h : b ∈ s.nodes
  · obtain ⟨front, back, split⟩ := List.append_of_mem (Std.ExtTreeMap.mem_keys.mpr h)
    rw [degree, split, List.flatMap_append, List.flatMap_cons, List.length_append,
      List.length_append]
    omega
  · rw [node_eq_default h]
    exact Nat.zero_le _

end Summary

/-- Live sets on the way to a solution. -/
structure LiveSets (s : Summary) where
  /-- What is live into each block. -/
  ins : LiveMap
  /-- What is live out of each block. -/
  outs : LiveMap
  /-- Nothing is live that the equations do not give. -/
  rising : ∀ b, ∀ u ∈ ins.getD b ∅, u ∈ s.transfer ins b
  /-- Nothing is live that no block uses. -/
  within : ∀ b, ∀ u ∈ ins.getD b ∅, u ∈ s.conceivable
  /-- Every block has its live sets. -/
  total : ∀ b ∈ s.layout, b ∈ ins ∧ b ∈ outs

def enqueue (queue blocks : List BlockId) : List BlockId :=
  blocks.foldl (fun queue b => if queue.contains b then queue else queue ++ [b]) queue

theorem length_enqueue_le (queue blocks : List BlockId) :
    (enqueue queue blocks).length ≤ queue.length + blocks.length := by
  induction blocks generalizing queue with
  | nil => exact Nat.le_refl _
  | cons b blocks ih =>
    refine Nat.le_trans (ih _) ?_
    rw [List.length_cons]
    dsimp only
    split
    · omega
    · rw [List.length_append, List.length_singleton]
      omega

namespace LiveSets

variable {s : Summary}

def blank (blocks : List BlockId) : LiveMap :=
  blocks.foldl (fun sets b => sets.insert b ∅) ∅

theorem mem_blank_iff {blocks : List BlockId} {b : BlockId} : b ∈ blank blocks ↔ b ∈ blocks := by
  have spec : ∀ (sets : LiveMap) (c : BlockId), b ∈ sets.insert c ∅ ↔ b ∈ sets ∨ b = c := by
    intro sets c
    rw [TreeMap.mem_insert_iff, or_comm]
  simpa [blank] using mem_foldl_iff (fun sets : LiveMap => b ∈ sets) (b = ·) spec blocks ∅

theorem getD_blank (blocks : List BlockId) (b : BlockId) : (blank blocks).getD b ∅ = ∅ := by
  refine List.foldlRecOn (motive := fun sets : LiveMap => sets.getD b ∅ = ∅) blocks _ (by simp) ?_
  intro sets none c _
  rw [TreeMap.getD_insert_iff, none]
  split <;> rfl

def empty (s : Summary) : LiveSets s where
  ins := blank s.layout
  outs := blank s.layout
  rising b u hu := by simp [getD_blank] at hu
  within b u hu := by simp [getD_blank] at hu
  total _ hb := ⟨mem_blank_iff.2 hb, mem_blank_iff.2 hb⟩

variable (x : LiveSets s) (b : BlockId)

theorem below_insert_transfer : Summary.Below x.ins (x.ins.insert b (s.transfer x.ins b)) := by
  intro c u hu
  rw [TreeMap.getD_insert_iff]
  split
  · next same => exact same ▸ x.rising c u hu
  · exact hu

def visit : LiveSets s where
  ins := x.ins.insert b (s.transfer x.ins b)
  outs := x.outs.insert b (s.liveOut x.ins b)
  rising c u hu := by
    apply Summary.transfer_mono (x.below_insert_transfer b)
    rw [TreeMap.getD_insert_iff] at hu
    split at hu
    · next same => exact same ▸ hu
    · exact x.rising c u hu
  within c u hu := by
    rw [TreeMap.getD_insert_iff] at hu
    split at hu
    · exact Summary.mem_conceivable_of_mem_transfer x.within hu
    · exact x.within c u hu
  total c hc := by
    rw [TreeMap.mem_insert_iff, TreeMap.mem_insert_iff]
    exact ⟨.inr (x.total c hc).1, .inr (x.total c hc).2⟩

/-- How many uses could still become live. -/
def room : Nat :=
  (s.nodes.keys.flatMap fun b => s.conceivable.map (b, ·)).countP fun p => p.2 ∉ x.ins.getD p.1 ∅

theorem exists_new (changed : (x.visit b).ins.getD b ∅ ≠ x.ins.getD b ∅) :
    b ∈ s.nodes ∧ ∃ u ∈ s.conceivable, u ∈ (x.visit b).ins.getD b ∅ ∧ u ∉ x.ins.getD b ∅ := by
  have found : ∃ u, u ∈ (x.visit b).ins.getD b ∅ ∧ u ∉ x.ins.getD b ∅ := by
    refine Classical.byContradiction fun none => changed (Std.ExtTreeSet.ext_mem fun u => ⟨?_, ?_⟩)
    · exact fun hu => Decidable.byContradiction fun new => none ⟨u, hu, new⟩
    · exact x.below_insert_transfer b b u
  obtain ⟨u, hu, new⟩ := found
  refine ⟨Decidable.byContradiction fun missing => ?_, u, (x.visit b).within b u hu, hu, new⟩
  -- a block without a node makes no uses and has no successors
  rw [visit, TreeMap.getD_insert_iff, if_pos rfl, Summary.mem_transfer_iff,
    Summary.node_eq_default missing] at hu
  simp [default, instInhabitedNode.default] at hu

theorem countP_visit_le (l : List (BlockId × Use)) :
    l.countP (fun p => p.2 ∉ (x.visit b).ins.getD p.1 ∅) ≤
      l.countP (fun p => p.2 ∉ x.ins.getD p.1 ∅) := by
  refine List.countP_mono_left fun p _ gone => ?_
  rw [decide_eq_true_iff] at gone ⊢
  exact mt (x.below_insert_transfer b p.1 p.2) gone

theorem room_visit_le : (x.visit b).room ≤ x.room :=
  x.countP_visit_le b _

theorem room_visit_lt (changed : (x.visit b).ins.getD b ∅ ≠ x.ins.getD b ∅) :
    (x.visit b).room < x.room := by
  obtain ⟨hb, u, conceivable, hu, new⟩ := x.exists_new b changed
  have mem : (b, u) ∈ s.nodes.keys.flatMap fun b => s.conceivable.map (b, ·) := by
    simp [hb, conceivable]
  obtain ⟨front, back, split⟩ := List.append_of_mem mem
  have before := x.countP_visit_le b front
  have behind := x.countP_visit_le b back
  rw [room, room, split, List.countP_append, List.countP_append, List.countP_cons,
    List.countP_cons, if_neg (by simpa using hu), if_pos (by simpa using new)]
  omega

/-- Applies the equations to the blocks of a queue until it is empty, and says whether a live set
changed. -/
def drain (x : LiveSets s) (changed : Bool) : List BlockId → Bool × LiveSets s
  | [] => (changed, x)
  | b :: queue =>
    let y := x.visit b
    if y.ins.getD b ∅ = x.ins.getD b ∅ then
      y.drain (changed || y.outs.getD b ∅ != x.outs.getD b ∅) queue
    else
      y.drain true (enqueue queue (s.node b).predecessors)
termination_by queue => x.room * (s.degree + 1) + queue.length
decreasing_by
  · have room := Nat.mul_le_mul_right (s.degree + 1) (x.room_visit_le b)
    rw [List.length_cons]
    omega
  · next grown =>
    -- a use was added, which makes up for all the predecessors that wait now
    have room := Nat.mul_le_mul_right (s.degree + 1) (x.room_visit_lt b grown)
    have queued := length_enqueue_le queue (s.node b).predecessors
    have degree := s.length_predecessors_le (b := b)
    rw [Nat.succ_mul] at room
    rw [List.length_cons]
    omega

end LiveSets

/-- The live sets of the blocks of a function. -/
structure Liveness where
  summary : Summary
  sets : LiveSets summary

namespace Liveness

def compute (s : Summary) : Liveness where
  summary := s
  sets := ((LiveSets.empty s).drain false s.layout.reverse).2

def liveIn (l : Liveness) (b : BlockId) : UseSet :=
  l.sets.ins.getD b ∅

def liveOut (l : Liveness) (b : BlockId) : UseSet :=
  l.sets.outs.getD b ∅

def liveValues (l : Liveness) (b : BlockId) : List ValueId :=
  ((l.liveIn b).foldl (fun values u => values.insert u.value) (∅ : ValueSet)).toList

/-- Solves again from the present solution, and tells whether anything changed. -/
def recompute (l : Liveness) : Bool × Liveness :=
  let (changed, sets) := l.sets.drain false l.summary.layout.reverse
  (changed, { l with sets })

end Liveness

end CheckpointRestart
