import CheckpointRestart.Flow.Liveness
import CheckpointRestart.Proofs.Flow.Uses
import Mathlib

/-! # What liveness comes to

A use is live into a block exactly if control can get from there to a block that makes it, without
passing a definition of its value. While blocks wait in the queue, the equations may fail at those
blocks only, so they hold everywhere once it is empty. Everything found on the way is live, so what
is found is the least solution.
-/

namespace CheckpointRestart

namespace Summary

/-- Control can get from the start of a block to a use of a value without passing a definition of
it. A use by a merge is one at the end of the edge it comes in by. -/
inductive Live (s : Summary) : BlockId → Use → Prop
  | here {b : BlockId} {u : Use} : u ∈ (s.node b).uses → Live s b u
  | later {b c : BlockId} {u : Use} : c ∈ (s.node b).successors → Live s c u →
    u.passes b = true → u.value ∉ (s.node b).defs → Live s b u.cleared

/-- The blocks of the layout have nodes, and an edge is known at both of its ends. -/
structure Coherent (s : Summary) : Prop where
  mem_nodes_iff : ∀ b, b ∈ s.nodes ↔ b ∈ s.layout
  linked : ∀ b ∈ s.layout, ∀ c ∈ s.layout,
    c ∈ (s.node b).successors → b ∈ (s.node c).predecessors

variable {s : Summary} {ins ins' : LiveMap} {b c : BlockId} {u : Use}

theorem Live.mem_nodes (live : s.Live b u) : b ∈ s.nodes := by
  by_contra missing
  cases live with
  | here use =>
    rw [node_eq_default missing] at use
    simp [default, instInhabitedNode.default] at use
  | later edge =>
    rw [node_eq_default missing] at edge
    cases edge

theorem liveOut_congr (same : ∀ c ∈ (s.node b).successors, ins.getD c ∅ = ins'.getD c ∅) :
    s.liveOut ins b = s.liveOut ins' b := by
  refine Std.ExtTreeSet.ext_mem fun u => ?_
  rw [mem_liveOut_iff, mem_liveOut_iff]
  refine exists_congr fun c => and_congr_right fun edge => ?_
  rw [same c edge]

theorem edges_define {values : List ValueId} :
    ((s.define b values).node c).successors = (s.node c).successors ∧
      ((s.define b values).node c).predecessors = (s.node c).predecessors := by
  rw [define]
  split
  · rw [node, TreeMap.getD_insert_iff]
    split
    · next same => exact same ▸ ⟨rfl, rfl⟩
    · exact ⟨rfl, rfl⟩
  · exact ⟨rfl, rfl⟩

theorem mem_nodes_define_iff {values : List ValueId} :
    c ∈ (s.define b values).nodes ↔ c ∈ s.nodes := by
  rw [define]
  split
  · next hb =>
    rw [TreeMap.mem_insert_iff]
    exact ⟨fun hc => hc.elim (fun same => same ▸ hb) id, .inr⟩
  · rfl

theorem layout_define {values : List ValueId} : (s.define b values).layout = s.layout := by
  rw [define]
  split <;> rfl

theorem Coherent.define (h : s.Coherent) (b : BlockId) (values : List ValueId) :
    (s.define b values).Coherent where
  mem_nodes_iff c := by rw [mem_nodes_define_iff, layout_define, h.mem_nodes_iff]
  linked := by
    rw [layout_define]
    intro c hc d hd
    rw [edges_define.1, edges_define.2]
    exact h.linked c hc d hd

end Summary

theorem Function.coherent_summarize (f : Function) (merges : BlockSet) (companions : Companions) :
    (f.summarize merges companions).Coherent where
  mem_nodes_iff b := by
    have spec : ∀ (nodes : Std.ExtTreeMap BlockId Node) (c : BlockId),
        b ∈ nodes.insert c (f.node merges companions c) ↔ b ∈ nodes ∨ b = c := by
      intro nodes c
      rw [TreeMap.mem_insert_iff, or_comm]
    refine (mem_foldl_iff (fun nodes => b ∈ nodes) (b = ·) spec f.layout ∅).trans ?_
    simp [summarize]
  linked b hb c hc edge := by
    rw [node_summarize hb] at edge
    rw [node_summarize hc]
    exact mem_predecessors_iff.2 ⟨hb, edge⟩

theorem mem_enqueue_iff {queue blocks : List BlockId} {b : BlockId} :
    b ∈ enqueue queue blocks ↔ b ∈ queue ∨ b ∈ blocks := by
  have spec : ∀ (queue : List BlockId) c,
      b ∈ (if queue.contains c then queue else queue ++ [c]) ↔ b ∈ queue ∨ b = c := by
    intro queue c
    split
    · next waits =>
      rw [List.contains_iff_mem] at waits
      exact ⟨.inl, fun h => h.elim id fun same => same ▸ waits⟩
    · simp
  exact (mem_foldl_iff (b ∈ ·) (b = ·) spec blocks queue).trans (by simp)

namespace LiveSets

variable {s : Summary} {x : LiveSets s} {b c : BlockId} {u : Use}

/-- Everything found is live. -/
def Sound (x : LiveSets s) : Prop :=
  ∀ b, ∀ u ∈ x.ins.getD b ∅, s.Live b u

/-- The equations hold at `b`. -/
def Solved (x : LiveSets s) (b : BlockId) : Prop :=
  x.outs.getD b ∅ = s.liveOut x.ins b ∧ x.ins.getD b ∅ = s.transfer x.ins b

theorem getD_ins_visit :
    (x.visit b).ins.getD c ∅ = if c = b then s.transfer x.ins b else x.ins.getD c ∅ :=
  TreeMap.getD_insert_iff

theorem getD_outs_visit :
    (x.visit b).outs.getD c ∅ = if c = b then s.liveOut x.ins b else x.outs.getD c ∅ :=
  TreeMap.getD_insert_iff

theorem sound_empty (s : Summary) : (empty s).Sound := by
  intro b u hu
  rw [empty, getD_blank] at hu
  simp at hu

theorem Sound.visit (sound : x.Sound) : (x.visit b).Sound := by
  intro c u hu
  rw [getD_ins_visit] at hu
  split at hu
  · next same =>
    subst same
    rcases Summary.mem_transfer_iff.1 hu with use | ⟨d, edge, w, hw, passes, free, rfl⟩
    · exact .here use
    · exact .later edge (sound d w hw) passes free
  · exact sound c u hu

theorem Sound.drain {changed : Bool} {queue : List BlockId} (sound : x.Sound) :
    (x.drain changed queue).2.Sound := by
  induction x, changed, queue using LiveSets.drain.induct with
  | case1 => rwa [LiveSets.drain]
  | case2 x changed b queue y same ih =>
    rw [LiveSets.drain, if_pos same]
    exact ih sound.visit
  | case3 x changed b queue y grown ih =>
    rw [LiveSets.drain, if_neg grown]
    exact ih sound.visit

/-- The equations come to hold at the block visited, and still hold at a block whose successors
keep their live sets. -/
theorem solved_visit (unread : ∀ d ∈ (s.node c).successors, (x.visit b).ins.getD d ∅ = x.ins.getD d ∅)
    (before : c = b ∨ x.Solved c) : (x.visit b).Solved c := by
  have out : s.liveOut (x.visit b).ins c = s.liveOut x.ins c := Summary.liveOut_congr unread
  rw [Solved, Summary.transfer, out, getD_outs_visit, getD_ins_visit]
  split
  · next same => exact same ▸ ⟨rfl, rfl⟩
  · next other => exact before.resolve_left other

/-- The equations can fail at waiting blocks only, and in the end none wait. -/
theorem solved_drain (coherent : s.Coherent) {changed : Bool} {queue : List BlockId}
    (waiting : ∀ c ∈ s.layout, c ∈ queue ∨ x.Solved c) :
    ∀ c ∈ s.layout, (x.drain changed queue).2.Solved c := by
  induction x, changed, queue using LiveSets.drain.induct with
  | case1 x changed =>
    rw [LiveSets.drain]
    exact fun c hc => (waiting c hc).resolve_left List.not_mem_nil
  | case2 x changed b queue y same ih =>
    rw [LiveSets.drain, if_pos same]
    refine ih fun c hc => or_iff_not_imp_left.mpr fun served => solved_visit (fun d _ => ?_) ?_
    · by_cases e : d = b
      · rw [e]
        exact same
      · rw [getD_ins_visit, if_neg e]
    · simpa [served] using waiting c hc
  | case3 x changed b queue y grown ih =>
    rw [LiveSets.drain, if_neg grown]
    refine ih fun c hc => or_iff_not_imp_left.mpr fun served => solved_visit (fun d edge => ?_) ?_
    · -- a block with an edge to the one that changed waits now
      rw [mem_enqueue_iff, not_or] at served
      rw [getD_ins_visit, if_neg]
      rintro rfl
      exact served.2 (coherent.linked c hc d ((coherent.mem_nodes_iff d).mp (x.exists_new d grown).1) edge)
    · rw [mem_enqueue_iff, not_or] at served
      simpa [served.1] using waiting c hc

end LiveSets

namespace Liveness

variable {s : Summary} {b : BlockId} {u : Use}

theorem solved_compute (coherent : s.Coherent) :
    ∀ b ∈ s.layout, LiveSets.Solved (s := s) (compute s).sets b :=
  LiveSets.solved_drain coherent fun _ hc => .inl (List.mem_reverse.mpr hc)

theorem sound_compute (s : Summary) : (compute s).sets.Sound :=
  (LiveSets.sound_empty s).drain

/-- The live sets computed hold exactly the uses that are live. -/
theorem mem_liveIn_compute_iff (coherent : s.Coherent) :
    u ∈ (compute s).liveIn b ↔ s.Live b u := by
  refine ⟨sound_compute s b u, fun live => ?_⟩
  have equation {b u} (live : s.Live b u) :
      (compute s).liveIn b = s.transfer (compute s).sets.ins b :=
    (solved_compute coherent b ((coherent.mem_nodes_iff b).mp live.mem_nodes)).2
  induction live with
  | here use =>
    rw [equation (.here use)]
    exact Summary.mem_transfer_iff.2 (.inl use)
  | later edge live passes free ih =>
    rw [equation (.later edge live passes free)]
    exact Summary.mem_transfer_iff.2 (.inr ⟨_, edge, _, ih, passes, free, rfl⟩)

theorem exists_use_of_mem_liveIn (coherent : s.Coherent) (h : u ∈ (compute s).liveIn b) :
    ∃ c ∈ s.layout, ∃ w ∈ (s.node c).uses, w.value = u.value := by
  obtain ⟨c, hc, w, use, same⟩ := Summary.mem_conceivable_iff.1 ((compute s).sets.within b u h)
  refine ⟨c, (coherent.mem_nodes_iff c).mp hc, w, use, ?_⟩
  rcases same with rfl | rfl <;> rfl

theorem mem_liveValues_iff {l : Liveness} {v : ValueId} :
    v ∈ l.liveValues b ↔ ∃ u ∈ l.liveIn b, u.value = v := by
  rw [liveValues, Std.ExtTreeSet.mem_toList, Std.ExtTreeSet.foldl_eq_foldl_toList]
  have spec : ∀ (t : ValueSet) (u : Use), v ∈ t.insert u.value ↔ v ∈ t ∨ u.value = v := by
    intro t u
    rw [TreeSet.mem_insert_iff, or_comm, eq_comm]
  simpa using mem_foldl_iff (fun t : ValueSet => v ∈ t) (·.value = v) spec (l.liveIn b).toList ∅

end Liveness

end CheckpointRestart
