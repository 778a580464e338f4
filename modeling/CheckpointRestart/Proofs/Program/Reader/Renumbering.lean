import CheckpointRestart.Proofs.Program.Reader.Inference
import CheckpointRestart.Proofs.Program.Reader.Passes

/-! # The same function with other numbers

Reading what is written of a function gives the same function with other numbers of its values and
blocks. It is well formed as the function is, and what is written of it is the same again.
-/

namespace CheckpointRestart

open Text

/-! ## Operations with other numbers -/

namespace Op

variable {ρ : ValueId → ValueId} {β : BlockId → BlockId} {op : Op}

theorem operands_reread : (op.reread ρ β).operands = op.operands.map (Operand.reread ρ) := by
  cases op with
  | session call =>
    cases call <;> simp [reread, mapOperands, mapTargets, mapPhiBlocks, operands, SessionCall.operands,
      SessionCall.mapOperands, List.map_flatMap, List.flatMap_map]
  | ret x => cases x <;> rfl
  | phi pairs => simp [reread_phi, operands]
  | _ => rfl

theorem isPhi_reread : (op.reread ρ β).isPhi = op.isPhi := by
  cases op <;> rfl

theorem isTerminator_reread : (op.reread ρ β).isTerminator = op.isTerminator := by
  cases op <;> rfl

theorem targets_reread : (op.reread ρ β).targets = op.targets.map β := by
  cases op with
  | switch x d cases => simp [reread_switch, targets]
  | _ => rfl

theorem mem_usedValues_reread {w : ValueId} (hw : w ∈ (op.reread ρ β).usedValues) :
    ∃ v ∈ op.usedValues, w = ρ v := by
  rw [mem_usedValues_iff, operands_reread] at hw
  obtain ⟨x, hx, e⟩ := List.mem_map.mp hw
  cases x with
  | value v =>
    cases e
    exact ⟨v, mem_usedValues_iff.2 hx, rfl⟩
  | const c => cases e

end Op

namespace Instruction

variable {ρ : ValueId → ValueId} {β : BlockId → BlockId} {is : List Instruction}

theorem result_reread (i : Instruction) : (i.reread ρ β).result = i.result.map ρ := rfl

theorem isPhi_reread (i : Instruction) : (i.reread ρ β).op.isPhi = i.op.isPhi := Op.isPhi_reread

end Instruction

section Bodies

variable {ρ : ValueId → ValueId} {β : BlockId → BlockId} {is : List Instruction}

theorem results_reread : results (is.map (·.reread ρ β)) = (results is).map ρ := by
  rw [results, List.filterMap_map, results, List.map_filterMap]
  rfl

theorem Terminated.reread (h : Terminated is) : Terminated (is.map (·.reread ρ β)) := by
  obtain ⟨inner, t, rfl, last, others⟩ := terminated_iff.1 h
  refine terminated_iff.2 ⟨inner.map (·.reread ρ β), t.reread ρ β, by simp, ?_, fun i hi => ?_⟩
  · exact Op.isTerminator_reread.trans last
  · obtain ⟨j, hj, rfl⟩ := List.mem_map.mp hi
    exact Op.isTerminator_reread.trans (others j hj)

theorem PhisLead.reread (h : PhisLead is) : PhisLead (is.map (·.reread ρ β)) := by
  have split : is.takeWhile (·.op.isPhi) ++ is.dropWhile (·.op.isPhi) = is :=
    List.takeWhile_append_dropWhile
  rw [← split, List.map_append]
  refine phisLead_append (fun i hi => ?_) fun i hi => ?_
  · obtain ⟨j, hj, rfl⟩ := List.mem_map.mp hi
    exact j.isPhi_reread.trans (isPhi_of_mem_takeWhile hj)
  · obtain ⟨j, hj, rfl⟩ := List.mem_map.mp hi
    exact j.isPhi_reread.trans (h j hj)

theorem mem_targetsOf_reread {c : BlockId} : c ∈ Function.targetsOf (is.map (·.reread ρ β)) ↔
    ∃ b ∈ Function.targetsOf is, c = β b := by
  rw [Function.targetsOf, Function.targetsOf, List.getLast?_map]
  cases last : is.getLast? with
  | none => simp
  | some t =>
    have same : (t.reread ρ β).op.isTerminator = t.op.isTerminator := Op.isTerminator_reread
    by_cases ends : t.op.isTerminator = true
    · have targets : (t.reread ρ β).op.targets = t.op.targets.map β := Op.targets_reread
      simp [Option.filter, same, ends, targets, eq_comm]
    · simp [Option.filter, same, ends]

end Bodies

/-! ## Functions with other numbers -/

namespace Function

variable {g h : Function} {v : ValueId} {b c : BlockId} {i : Instruction} {x : Operand} {op : Op}

/-- `h` is `g` with the values and blocks numbered in the order in which they are written. The types
are the same where the text gives them. -/
structure Renumbers (g h : Function) : Prop where
  name : h.name = g.name
  returns : h.returns = g.returns
  params : h.params = g.params.map g.newValueId
  layout : h.layout = g.layout.map g.newBlockId
  size : h.values.size = g.named.length
  valueName : ∀ v ∈ g.named, h.valueName (g.newValueId v) = g.valueName v
  blockName : ∀ b ∈ g.layout, h.blockName (g.newBlockId b) = g.blockName b
  body : ∀ b ∈ g.layout, h.body (g.newBlockId b) =
    (g.body b).map (·.reread g.newValueId g.newBlockId)
  typed : ∀ v ∈ g.named, (h.valueType (g.newValueId v)).isVoid = false
  paramType : ∀ v ∈ g.params, h.valueType (g.newValueId v) = g.valueType v
  mergeType : ∀ b ∈ g.layout, ∀ i ∈ g.body b, i.op.isPhi = true → ∀ v, i.result = some v →
    h.valueType (g.newValueId v) = g.valueType v

theorem newValueId_injOn : ∀ v ∈ g.named, ∀ w ∈ g.named, g.newValueId v = g.newValueId w → v = w := by
  intro v hv w hw e
  exact (List.idxOf_inj hv).mp (congrArg ValueId.index e)

theorem newBlockId_injOn : ∀ b ∈ g.layout, ∀ c ∈ g.layout, g.newBlockId b = g.newBlockId c → b = c := by
  intro b hb c hc e
  exact (List.idxOf_inj hb).mp (congrArg BlockId.index e)

theorem index_newValueId (hv : v ∈ g.named) : (g.newValueId v).index < g.named.length :=
  List.idxOf_lt_length_iff.mpr hv

theorem mem_named_of_result (hb : b ∈ g.layout) (hi : i ∈ g.body b) (hv : i.result = some v) :
    v ∈ g.named :=
  List.mem_append_right _ (List.mem_flatMap.mpr ⟨b, hb, mem_results_iff.2 ⟨i, hi, hv⟩⟩)

theorem WellFormed.typed_of_named (wf : g.WellFormed) (legible : g.Legible) (hv : v ∈ g.named) :
    (g.valueType v).isVoid = false := by
  rcases List.mem_append.mp hv with given | defined
  · exact (legible.params v given).2
  · obtain ⟨b, hb, mem⟩ := List.mem_flatMap.mp defined
    obtain ⟨i, hi, result⟩ := mem_results_iff.1 mem
    exact (wf.fits b hb i hi).typed v result

/-! ### The text -/

/-- The text of an operation does not depend on numbers. -/
theorem renderOp_reread {ρ : ValueId → ValueId} {β : BlockId → BlockId} (t : Ty)
    (operands : ∀ x ∈ op.operands, h.renderOperand (x.reread ρ) = g.renderOperand x)
    (blocks : ∀ b ∈ op.targets ++ op.sources, h.blockName (β b) = g.blockName b) :
    h.renderOp t (op.reread ρ β) = g.renderOp t op := by
  have all {xs : List Operand} (h' : ∀ x ∈ xs, h.renderOperand (x.reread ρ) = g.renderOperand x) :
      (xs.map (Operand.reread ρ)).map h.renderOperand = xs.map g.renderOperand := by
    rw [List.map_map]
    exact List.map_congr_left h'
  cases op with
  | alloca t n => rfl
  | phi pairs =>
    have texts : pairs.map (fun p => "[" ++ h.renderOperand (p.1.reread ρ) ++ ", " ++ h.blockName (β p.2) ++ "]") =
        pairs.map fun p => "[" ++ g.renderOperand p.1 ++ ", " ++ g.blockName p.2 ++ "]" := by
      refine List.map_congr_left fun p hp => ?_
      rw [operands p.1 (List.mem_map_of_mem hp), blocks p.2 (List.mem_append_right _ (List.mem_map_of_mem hp))]
    rw [Op.reread_phi]
    simp only [renderOp, List.map_map, Function.comp_def, texts]
  | switch x d cases =>
    have texts : cases.map (fun arm => toString arm.1.toInt ++ ": " ++ h.blockName (β arm.2)) =
        cases.map fun arm => toString arm.1.toInt ++ ": " ++ g.blockName arm.2 := by
      refine List.map_congr_left fun arm harm => ?_
      rw [blocks arm.2 (List.mem_append_left _ (List.mem_cons_of_mem _ (List.mem_map_of_mem harm)))]
    rw [Op.reread_switch]
    simp only [renderOp, List.map_map, Function.comp_def, texts,
      operands x List.mem_cons_self, blocks d (List.mem_append_left _ List.mem_cons_self)]
  | session call =>
    cases call with
    | setup | finish | restartLabel | restartFinish | start label count => rfl
    | savePointer w n a | readPointer w n a | readAlias w n =>
      simp only [Op.operands, SessionCall.operands, List.forall_mem_cons] at operands
      simp [Op.reread, Op.mapOperands, Op.mapTargets, Op.mapPhiBlocks, SessionCall.mapOperands, renderOp,
        renderSessionCall, SessionCall.mnemonic, operands]
    | saveAlias w n a cs =>
      have candidates : (cs.map fun k : AliasCandidate =>
          ({ k with
            width := k.width.reread ρ, count := k.count.reread ρ, address := k.address.reread ρ } : AliasCandidate)).map
          h.renderCandidate = cs.map g.renderCandidate := by
        rw [List.map_map]
        refine List.map_congr_left fun k hk => ?_
        have known : ∀ x ∈ [k.width, k.count, k.address], h.renderOperand (x.reread ρ) = g.renderOperand x :=
          fun x hx => operands x (List.mem_append_right _ (List.mem_flatMap.mpr ⟨k, hk, hx⟩))
        simp only [List.forall_mem_cons] at known
        simp [renderCandidate, known]
      have known : ∀ x ∈ [w, n, a], h.renderOperand (x.reread ρ) = g.renderOperand x :=
        fun x hx => operands x (List.mem_append_left _ hx)
      simp only [List.forall_mem_cons] at known
      simp only [Op.reread, Op.mapOperands, Op.mapTargets, Op.mapPhiBlocks, SessionCall.mapOperands, renderOp,
        renderSessionCall, candidates, List.map_cons, List.map_nil, known, SessionCall.mnemonic]
  | call callee args =>
    change "call @" ++ callee ++ "(" ++ commaSeparated ((args.map (Operand.reread ρ)).map h.renderOperand) ++ ")" = _
    rw [@all args operands]
    rfl
  | br b =>
    change "br " ++ h.blockName (β b) = _
    rw [blocks b (by simp [Op.targets])]
    rfl
  | condBr x t e =>
    change "condbr " ++ commaSeparated [h.renderOperand (x.reread ρ), h.blockName (β t), h.blockName (β e)] = _
    rw [operands x List.mem_cons_self, blocks t (by simp [Op.targets]), blocks e (by simp [Op.targets])]
    rfl
  | ret x =>
    cases x with
    | none => rfl
    | some x =>
      change "ret " ++ h.renderOperand (x.reread ρ) = _
      rw [operands x List.mem_cons_self]
      rfl
  | malloc x | free x | load x | cast x t =>
    simp [Op.reread, Op.mapOperands, Op.mapTargets, Op.mapPhiBlocks, renderOp, operands x List.mem_cons_self]
  | gep x y | store x y | binary o x y | compare r x y =>
    simp [Op.reread, Op.mapOperands, Op.mapTargets, Op.mapPhiBlocks, renderOp, operands x List.mem_cons_self,
      operands y (List.mem_cons_of_mem _ List.mem_cons_self)]

namespace Renumbers

variable (h' : Renumbers g h)

include h'

theorem renderOperand (hx : ∀ v, x = .value v → v ∈ g.named) :
    h.renderOperand (x.reread g.newValueId) = g.renderOperand x := by
  cases x with
  | value v => rw [Operand.reread, Function.renderOperand, Function.renderOperand, h'.valueName v (hx v rfl)]
  | const c => exact c.render_canonical

theorem renderInstruction (legible : g.Legible) (hb : b ∈ g.layout) (hi : i ∈ g.body b) :
    h.renderInstruction (i.reread g.newValueId g.newBlockId) = g.renderInstruction i := by
  have written := legible.instructions b hb i hi
  have op (t : Ty) : h.renderOp t (i.op.reread g.newValueId g.newBlockId) = g.renderOp t i.op := by
    refine renderOp_reread t (fun x hx => h'.renderOperand ?_) fun c hc => h'.blockName c (written.blocks c hc)
    rintro v rfl
    exact written.uses v (Op.mem_usedValues_iff.2 hx)
  unfold Function.renderInstruction
  rw [i.result_reread]
  cases result : i.result with
  | none => exact op .void
  | some v =>
    have name := h'.valueName v (mem_named_of_result hb hi result)
    simp only [Option.map_some, name]
    by_cases merge : i.op.isPhi = true
    · rw [h'.mergeType b hb i hi merge v result]
      exact congrArg _ (op _)
    · -- only a merge spells out the type of its result
      have plain (t u : Ty) : g.renderOp t i.op = g.renderOp u i.op := by
        cases e : i.op with
        | phi pairs =>
          rw [e] at merge
          exact absurd rfl merge
        | ret x => cases x <;> rfl
        | _ => rfl
      exact congrArg _ ((op _).trans (plain _ _))

theorem renderBlock (legible : g.Legible) (hb : b ∈ g.layout) :
    h.renderBlock (g.newBlockId b) = g.renderBlock b := by
  rw [Function.renderBlock, Function.renderBlock, h'.blockName b hb, h'.body b hb, List.map_map]
  refine congrArg _ (List.map_congr_left fun i hi => ?_)
  exact congrArg _ (h'.renderInstruction legible hb hi)

theorem renderHeader : h.renderHeader = g.renderHeader := by
  have params : (g.params.map g.newValueId).map (fun p => "%" ++ h.valueName p ++ ": " ++ (h.valueType p).render) =
      g.params.map fun p => "%" ++ g.valueName p ++ ": " ++ (g.valueType p).render := by
    rw [List.map_map]
    refine List.map_congr_left fun p hp => ?_
    simp only [Function.comp_apply, h'.valueName p (List.mem_append_left _ hp), h'.paramType p hp]
  rw [Function.renderHeader, Function.renderHeader, h'.params, h'.name, h'.returns]
  simp only [params]

theorem render (legible : g.Legible) : h.render = g.render := by
  have blocks : (g.layout.map g.newBlockId).flatMap h.renderBlock = g.layout.flatMap g.renderBlock := by
    rw [List.flatMap_map]
    exact List.flatMap_congr fun b hb => h'.renderBlock legible hb
  rw [Function.render, Function.render, renderLines, renderLines, h'.renderHeader, h'.layout, blocks]

/-! ### Well-formedness -/

theorem entry (nonempty : g.layout ≠ []) : h.entry = g.newBlockId g.entry := by
  rw [Function.entry, Function.entry, h'.layout]
  cases layout : g.layout with
  | nil => exact absurd layout nonempty
  | cons b bs => rfl

theorem contains_successors (wf : g.WellFormed) (hb : b ∈ g.layout) (hc : c ∈ g.layout) :
    (h.successors (g.newBlockId b)).contains (g.newBlockId c) = (g.successors b).contains c := by
  rw [Bool.eq_iff_iff, List.contains_iff_mem, List.contains_iff_mem, successors_eq, h'.body b hb,
    mem_targetsOf_reread, ← successors_eq]
  constructor
  · rintro ⟨d, hd, e⟩
    rwa [newBlockId_injOn c hc d (wf.successor_mem hb hd) e]
  · exact fun hd => ⟨c, hd, rfl⟩

theorem predecessors (wf : g.WellFormed) (hb : b ∈ g.layout) :
    h.predecessors (g.newBlockId b) = (g.predecessors b).map g.newBlockId := by
  rw [Function.predecessors, Function.predecessors, h'.layout, List.filter_map]
  refine congrArg _ (List.filter_congr fun p hp => ?_)
  exact h'.contains_successors wf hp hb

theorem defined : h.defined = g.defined.map g.newValueId := by
  rw [Function.defined, Function.defined, h'.layout, List.flatMap_map, List.map_flatMap]
  refine List.flatMap_congr fun b hb => ?_
  rw [h'.body b hb, results_reread]

theorem fits (legible : g.Legible) (wf : g.WellFormed) (hb : b ∈ g.layout) (hi : i ∈ g.body b) :
    h.Fits (i.reread g.newValueId g.newBlockId) where
  operands w hw := by
    obtain ⟨v, hv, rfl⟩ := Op.mem_usedValues_reread hw
    rw [h'.size]
    exact index_newValueId ((legible.instructions b hb i hi).uses v hv)
  targets c hc := by
    have hc : c ∈ i.op.targets.map g.newBlockId := Op.targets_reread ▸ hc
    obtain ⟨d, hd, rfl⟩ := List.mem_map.mp hc
    rw [h'.layout]
    exact List.mem_map_of_mem ((wf.fits b hb i hi).targets d hd)
  typed w hw := by
    rw [i.result_reread] at hw
    obtain ⟨v, hv, rfl⟩ := Option.map_eq_some_iff.mp hw
    exact h'.typed v (mem_named_of_result hb hi hv)
  produces none := by
    rw [i.result_reread, Option.map_eq_none_iff] at none
    exact (Op.producesValue_reread _ _ _).trans ((wf.fits b hb i hi).produces none)

theorem merges (wf : g.WellFormed) (hb : b ∈ g.layout) (hi : i ∈ g.body b) :
    h.Merges (g.newBlockId b) (i.reread g.newValueId g.newBlockId) := by
  intro pairs hop
  cases e : i.op with
  | phi pairs' =>
    have hop : (Op.phi pairs').reread g.newValueId g.newBlockId = .phi pairs := e ▸ hop
    rw [Op.reread_phi] at hop
    cases hop
    have sources : (pairs'.map fun p => (p.1.reread g.newValueId, g.newBlockId p.2)).map (·.2) =
        (pairs'.map (·.2)).map g.newBlockId := by simp
    rw [h'.predecessors wf hb, sources]
    exact (wf.merges b hb i hi pairs' e).map _
  | _ =>
    have phi : (i.op.reread g.newValueId g.newBlockId).isPhi = i.op.isPhi := Op.isPhi_reread
    have hop : i.op.reread g.newValueId g.newBlockId = .phi pairs := hop
    rw [hop, e] at phi
    cases phi

theorem wellFormed (legible : g.Legible) (wf : g.WellFormed) : h.WellFormed := by
  have block {c : BlockId} (hc : c ∈ h.layout) : ∃ b ∈ g.layout, g.newBlockId b = c :=
    List.mem_map.mp (h'.layout ▸ hc)
  have nodup := legible.nodup_named
  rw [named, List.nodup_append] at nodup
  refine ⟨⟨?_, ?_, ?_, ?_, ?_, ?_, ?_⟩, ?_⟩
  · rw [h'.layout]
    simpa using wf.nonempty
  · rw [h'.entry wf.nonempty, h'.predecessors wf wf.entry_mem, wf.entry_free]
    rfl
  · intro c hc
    obtain ⟨b, hb, rfl⟩ := block hc
    rw [h'.body b hb]
    exact (wf.terminated b hb).reread
  · intro c hc
    obtain ⟨b, hb, rfl⟩ := block hc
    rw [h'.body b hb]
    exact (wf.phisLead b hb).reread
  · intro c hc j hj
    obtain ⟨b, hb, rfl⟩ := block hc
    rw [h'.body b hb] at hj
    obtain ⟨i, hi, rfl⟩ := List.mem_map.mp hj
    exact h'.fits legible wf hb hi
  · rw [h'.defined]
    refine nodup.2.1.map_on fun v hv w hw e => ?_
    exact newValueId_injOn v (List.mem_append_right _ hv) w (List.mem_append_right _ hw) e
  · rw [h'.defined, h'.params]
    intro v hv given
    obtain ⟨w, hw, rfl⟩ := List.mem_map.mp hv
    obtain ⟨p, hp, e⟩ := List.mem_map.mp given
    have same := newValueId_injOn p (List.mem_append_left _ hp) w (List.mem_append_right _ hw) e
    exact nodup.2.2 p hp w hw same
  · intro c hc j hj
    obtain ⟨b, hb, rfl⟩ := block hc
    rw [h'.body b hb] at hj
    obtain ⟨i, hi, rfl⟩ := List.mem_map.mp hj
    exact h'.merges wf hb hi

end Renumbers

end Function

end CheckpointRestart
