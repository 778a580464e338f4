import CheckpointRestart.Proofs.Program.Insertion

/-! # Changing operands only

An edit that gives instructions other operands, or adds values that nothing defines yet, leaves the
flow of control and the places of definitions as they are.
-/

namespace CheckpointRestart

/-- Two instructions that differ in their operands at most. -/
structure SameKind (i j : Instruction) : Prop where
  result : j.result = i.result
  isPhi : j.op.isPhi = i.op.isPhi
  isTerminator : j.op.isTerminator = i.op.isTerminator
  targets : j.op.targets = i.op.targets
  producesValue : j.op.producesValue = i.op.producesValue

namespace SameKind

variable {i j k : Instruction}

theorem refl (i : Instruction) : SameKind i i :=
  ⟨rfl, rfl, rfl, rfl, rfl⟩

theorem trans (h : SameKind i j) (h' : SameKind j k) : SameKind i k :=
  ⟨h'.1.trans h.1, h'.2.trans h.2, h'.3.trans h.3, h'.4.trans h.4, h'.5.trans h.5⟩

theorem mapOperands (g : Operand → Operand) (i : Instruction) :
    SameKind i (i.mapOp (Op.mapOperands g)) :=
  ⟨rfl, Op.isPhi_mapOperands, Op.isTerminator_mapOperands, Op.targets_mapOperands,
    Op.producesValue_mapOperands⟩

theorem phi {pairs pairs' : List (Operand × BlockId)} (h : i.op = .phi pairs) :
    SameKind i { i with op := .phi pairs' } := by
  constructor <;> simp [h, Op.isPhi, Op.isTerminator, Op.targets, Op.producesValue]

end SameKind

section Bodies

variable {g : Instruction → Instruction} {is : List Instruction}

theorem results_map (same : ∀ i ∈ is, SameKind i (g i)) : results (is.map g) = results is := by
  rw [results, List.filterMap_map, results]
  exact List.filterMap_congr fun i hi => (same i hi).result

theorem Terminated.map (h : Terminated is) (same : ∀ i ∈ is, SameKind i (g i)) :
    Terminated (is.map g) := by
  obtain ⟨inner, t, rfl, ht, hi⟩ := terminated_iff.1 h
  refine terminated_iff.2 ⟨inner.map g, g t, by simp, ?_, fun i hi' => ?_⟩
  · rw [(same t (by simp)).isTerminator, ht]
  · obtain ⟨j, hj, rfl⟩ := List.mem_map.mp hi'
    rw [(same j (List.mem_append_left _ hj)).isTerminator, hi j hj]

theorem PhisLead.map (h : PhisLead is) (same : ∀ i ∈ is, SameKind i (g i)) :
    PhisLead (is.map g) := by
  have split : is.takeWhile (·.op.isPhi) ++ is.dropWhile (·.op.isPhi) = is :=
    List.takeWhile_append_dropWhile
  rw [← split, List.map_append]
  rw [← split] at same
  refine phisLead_append (fun i hi => ?_) fun i hi => ?_
  · obtain ⟨j, hj, rfl⟩ := List.mem_map.mp hi
    rw [(same j (List.mem_append_left _ hj)).isPhi, isPhi_of_mem_takeWhile hj]
  · obtain ⟨j, hj, rfl⟩ := List.mem_map.mp hi
    rw [(same j (List.mem_append_right _ hj)).isPhi, h j hj]

theorem targetsOf_map (same : ∀ i ∈ is, SameKind i (g i)) :
    Function.targetsOf (is.map g) = Function.targetsOf is := by
  rw [Function.targetsOf, Function.targetsOf, List.getLast?_map]
  cases hl : is.getLast? with
  | none => rfl
  | some t =>
    have kind := same t (List.mem_of_getLast? hl)
    simp only [Option.map_some, Option.filter, kind.isTerminator]
    split <;> simp [kind.targets]

end Bodies

namespace Function

variable {f f' f'' : Function} {b : BlockId} {v : ValueId}

/-- `f'` is `f` with other operands, and possibly with more values. -/
structure Relabelled (f f' : Function) : Prop where
  layout : f'.layout = f.layout
  params : f'.params = f.params
  size : f.values.size ≤ f'.values.size
  types : ∀ v, v.index < f.values.size → f'.valueType v = f.valueType v
  blocks : f'.blocks.size = f.blocks.size
  body : ∀ b, ∃ g : Instruction → Instruction,
    f'.body b = (f.body b).map g ∧ ∀ i ∈ f.body b, SameKind i (g i)

theorem relabelled_newValue (name : String) (t : Ty) : Relabelled f (f.newValue name t).2 :=
  ⟨rfl, rfl, by simp, fun _ => valueType_newValue_of_lt, rfl,
    fun b => ⟨id, by simp, fun i _ => .refl i⟩⟩

theorem relabelled_modifyBody {g : Instruction → Instruction}
    (same : ∀ i ∈ f.body b, SameKind i (g i)) : Relabelled f (f.modifyBody b (·.map g)) := by
  refine ⟨rfl, rfl, Nat.le_refl _, fun _ _ => rfl, size_blocks_modifyBody, fun c => ?_⟩
  by_cases hc : c = b
  · subst hc
    by_cases lt : c.index < f.blocks.size
    · exact ⟨g, body_modifyBody_self lt, same⟩
    · refine ⟨id, ?_, fun i _ => .refl i⟩
      simp [Function.body, block, Array.getD, lt]
  · exact ⟨id, by simp [body_modifyBody_of_ne hc], fun i _ => .refl i⟩

namespace Relabelled

theorem entry (h : Relabelled f f') : f'.entry = f.entry := by
  rw [Function.entry, h.layout, Function.entry]

theorem coherent (h : Relabelled f f') (co : f.Coherent) : f'.Coherent :=
  ⟨fun b => by rw [h.layout, h.blocks, co.mem_layout], h.layout ▸ co.nodup,
    fun p hp => (co.params p (h.params ▸ hp)).trans_le h.size⟩

theorem results_body (h : Relabelled f f') : results (f'.body b) = results (f.body b) := by
  obtain ⟨g, hg, same⟩ := h.body b
  rw [hg, results_map same]

theorem defined (h : Relabelled f f') : f'.defined = f.defined := by
  unfold Function.defined
  rw [h.layout]
  congr
  exact funext fun b => h.results_body

theorem successors (h : Relabelled f f') : f'.successors b = f.successors b := by
  obtain ⟨g, hg, same⟩ := h.body b
  rw [successors_eq, successors_eq, hg, targetsOf_map same]

theorem predecessors (h : Relabelled f f') : f'.predecessors b = f.predecessors b :=
  predecessors_congr h.layout fun _ _ => h.successors

theorem lacks_iff (h : Relabelled f f') : f'.Lacks v b ↔ f.Lacks v b :=
  ⟨fun lacks => lacks.transfer h.entry (fun _ _ => by simp [h.successors])
      fun _ => by simp [h.results_body],
    fun lacks => lacks.transfer h.entry.symm (fun _ _ => by simp [h.successors])
      fun _ => by simp [h.results_body]⟩

theorem mem_body (h : Relabelled f f') {j : Instruction} (hj : j ∈ f'.body b) :
    ∃ i ∈ f.body b, SameKind i j := by
  obtain ⟨g, hg, same⟩ := h.body b
  rw [hg] at hj
  obtain ⟨i, hi, rfl⟩ := List.mem_map.mp hj
  exact ⟨i, hi, same i hi⟩

theorem shaped (h : Relabelled f f') (shaped : f.Shaped)
    (operands : ∀ b ∈ f.layout, ∀ i ∈ f'.body b, ∀ v ∈ i.op.usedValues,
      v.index < f'.values.size) : f'.Shaped where
  nonempty := h.layout ▸ shaped.nonempty
  entry_free := by rw [h.entry, h.predecessors, shaped.entry_free]
  terminated := by
    intro b hb
    obtain ⟨g, hg, same⟩ := h.body b
    exact hg ▸ (shaped.terminated b (h.layout ▸ hb)).map same
  phisLead := by
    intro b hb
    obtain ⟨g, hg, same⟩ := h.body b
    exact hg ▸ (shaped.phisLead b (h.layout ▸ hb)).map same
  fits := by
    intro b hb i hi
    obtain ⟨j, hj, same⟩ := h.mem_body hi
    have fits := shaped.fits b (h.layout ▸ hb) j hj
    refine ⟨operands b (h.layout ▸ hb) i hi, ?_, fun v hv => ?_, fun hr => ?_⟩
    · rw [same.targets, h.layout]
      exact fits.targets
    · have typed := fits.typed v (same.result ▸ hv)
      rw [h.types v (index_lt_of_typed typed), typed]
    · rw [same.producesValue, fits.produces (same.result ▸ hr)]
  once := h.defined ▸ shaped.once
  params := by
    rw [h.defined, h.params]
    exact shaped.params

end Relabelled

end Function

end CheckpointRestart
