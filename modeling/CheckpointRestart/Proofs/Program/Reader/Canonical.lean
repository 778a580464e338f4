import CheckpointRestart.Proofs.Program.Reader.Reread

/-! # Reading again what was read

A function that was read is legible, and the types of its results follow from one another. Reading
what is written of it gives the function again, with its numbers and its types; only the constants
that are not numbers lose their bit patterns.
-/

namespace CheckpointRestart

open Text

def Instruction.canonical (i : Instruction) : Instruction :=
  i.mapOp Op.canonical

theorem Operand.reread_congr {ρ : ValueId → ValueId} {x : Operand} (values : ∀ v, x = .value v → ρ v = v) :
    x.reread ρ = x.canonical := by
  cases x with
  | value v => exact congrArg value (values v rfl)
  | const c => rfl

namespace Op

variable {ρ : ValueId → ValueId} {β : BlockId → BlockId} {op : Op}

theorem mapOperands_congr {k k' : Operand → Operand} (same : ∀ x ∈ op.operands, k x = k' x) :
    op.mapOperands k = op.mapOperands k' := by
  cases op with
  | session call =>
    cases call with
    | saveAlias w n a cs =>
      simp only [operands, SessionCall.operands, List.mem_append, List.mem_flatMap] at same
      have members : cs.map (fun c => { c with width := k c.width, count := k c.count, address := k c.address }) =
          cs.map fun c => { c with width := k' c.width, count := k' c.count, address := k' c.address } := by
        refine List.map_congr_left fun c hc => ?_
        rw [same c.width (.inr ⟨c, hc, by simp⟩), same c.count (.inr ⟨c, hc, by simp⟩),
          same c.address (.inr ⟨c, hc, by simp⟩)]
      simp only [mapOperands, SessionCall.mapOperands, members]
      rw [same w (by simp), same n (by simp), same a (by simp)]
    | _ => simp_all [mapOperands, operands, SessionCall.mapOperands, SessionCall.operands]
  | phi pairs =>
    refine congrArg phi (List.map_congr_left fun p hp => ?_)
    exact congrArg (·, p.2) (same p.1 (List.mem_map_of_mem hp))
  | call callee args => exact congrArg (call callee) (List.map_congr_left same)
  | ret value => cases value <;> simp_all [mapOperands, operands]
  | _ => simp_all [mapOperands, operands]

theorem mapTargets_eq_self (same : ∀ b ∈ op.targets, β b = b) : op.mapTargets β = op := by
  cases op with
  | switch x d cases =>
    have arms : cases.map (fun arm => (arm.1, β arm.2)) = cases :=
      (List.map_congr_left fun arm harm => by
        rw [same arm.2 (List.mem_cons_of_mem _ (List.mem_map_of_mem harm))]; rfl).trans (List.map_id _)
    rw [mapTargets, arms, same d List.mem_cons_self]
  | _ => simp_all [mapTargets, targets]

theorem mapPhiBlocks_eq_self (same : ∀ b ∈ op.sources, β b = b) : op.mapPhiBlocks β = op := by
  cases op with
  | phi pairs =>
    refine congrArg phi ((List.map_congr_left fun p hp => ?_).trans (List.map_id _))
    exact congrArg (p.1, ·) (same p.2 (List.mem_map_of_mem hp))
  | _ => rfl

theorem sources_mapOperands {k : Operand → Operand} : (op.mapOperands k).sources = op.sources := by
  cases op with
  | phi pairs => simp [mapOperands, sources]
  | _ => rfl

theorem reread_congr (values : ∀ v ∈ op.usedValues, ρ v = v)
    (blocks : ∀ b ∈ op.targets ++ op.sources, β b = b) : op.reread ρ β = op.canonical := by
  have operands : op.mapOperands (Operand.reread ρ) = op.canonical := by
    refine mapOperands_congr fun x hx => Operand.reread_congr ?_
    rintro v rfl
    exact values v (mem_usedValues_iff.2 hx)
  have targets : op.canonical.mapTargets β = op.canonical :=
    mapTargets_eq_self fun b hb => blocks b (List.mem_append_left _ (by rwa [canonical, targets_mapOperands] at hb))
  have sources : op.canonical.mapPhiBlocks β = op.canonical :=
    mapPhiBlocks_eq_self fun b hb => blocks b (List.mem_append_right _ (by rwa [canonical, sources_mapOperands] at hb))
  rw [reread, operands, targets, sources]

end Op

namespace Function

def canonical (f : Function) : Function :=
  f.mapInstructions Instruction.canonical

variable {f g : Function} {v : ValueId} {b : BlockId}

theorem Numbered.named (h : f.Numbered) : f.named = f.valueIds :=
  h.values

theorem Numbered.newValueId (h : f.Numbered) (hv : v ∈ f.named) : f.newValueId v = v := by
  rw [h.named, mem_valueIds_iff] at hv
  have nodup : f.valueIds.Nodup := List.nodup_range.map fun n m e => by cases e; rfl
  have at_v : f.valueIds[v.index]? = some v := by simp [valueIds, hv]
  obtain ⟨lt, e⟩ := List.getElem?_eq_some_iff.mp at_v
  have number := nodup.idxOf_getElem v.index lt
  rw [e] at number
  rw [Function.newValueId, h.named, number]

theorem Numbered.newBlockId (h : f.Numbered) (hb : b ∈ f.layout) : f.newBlockId b = b := by
  rw [h.layout, mem_blockIds_iff] at hb
  have nodup : f.blockIds.Nodup := List.nodup_range.map fun n m e => by cases e; rfl
  have at_b : f.blockIds[b.index]? = some b := by simp [blockIds, hb]
  obtain ⟨lt, e⟩ := List.getElem?_eq_some_iff.mp at_b
  have number := nodup.idxOf_getElem b.index lt
  rw [e] at number
  rw [Function.newBlockId, h.layout, number]

theorem map_valueInfo_valueIds : f.valueIds.map f.valueInfo = f.values.toList := by
  refine List.ext_getElem (by simp [valueIds]) fun n h₁ h₂ => ?_
  have lt : n < f.values.size := by simpa using h₂
  simp [valueIds, valueInfo, lt]

theorem map_block_blockIds : f.blockIds.map f.block = f.blocks.toList := by
  refine List.ext_getElem (by simp [blockIds]) fun n h₁ h₂ => ?_
  have lt : n < f.blocks.size := by simpa using h₂
  simp [blockIds, block, lt]

end Function

namespace Reader

open CheckpointRestart.Function

variable {f g : Function} {untyped : List (Nat × ValueId)} {v : ValueId} {b : BlockId} {i : Instruction}

/-- A function that was read, and the function that its third pass started from. -/
structure Typed (g f : Function) (untyped : List (Nat × ValueId)) : Prop where
  transcript : Transcript g untyped
  types : inferTypes g.definedOp? untyped.length g untyped = .ok f
  wellFormed : f.WellFormed

namespace Typed

variable (h : Typed g f untyped)

include h

theorem frame : SameFrame g f ∧ f.blocks = g.blocks :=
  inferTypes_frame h.types

theorem body (b : BlockId) : f.body b = g.body b :=
  body_of_blocks h.frame.2

theorem numbered : f.Numbered :=
  Numbered.of_frame h.transcript.numbered h.frame.1 h.frame.2

theorem nodup_defined : g.defined.Nodup := by
  have once := h.wellFormed.once
  simpa only [defined, h.frame.1.layout, h.body] using once

theorem instructions : f.instructions = g.instructions := by
  simp only [Function.instructions, h.frame.1.layout, h.body]

theorem mem_untyped_iff : v ∈ untyped.map (·.2) ↔ ∃ b ∈ f.layout, ∃ i ∈ f.body b, i.result = some v ∧
    i.op.spelled? .void = none := by
  rw [h.transcript.untyped, List.mem_filterMap]
  constructor
  · rintro ⟨⟨b, i⟩, mem, inferred⟩
    rw [← h.instructions, mem_instructions_iff] at mem
    unfold Instruction.inferred? at inferred
    split at inferred
    · next none => exact ⟨b, mem.1, i, mem.2, inferred, by simpa using none⟩
    · cases inferred
  · rintro ⟨b, hb, i, hi, result, none⟩
    refine ⟨(b, i), ?_, by simp [Instruction.inferred?, none, result]⟩
    rw [← h.instructions, mem_instructions_iff]
    exact ⟨hb, hi⟩

theorem exists_inferred : ∃ rank n, Inferred g.definedOp? g (untyped.map (·.2)) f rank ∧ ∀ w, rank w < n := by
  refine inferred_of_inferTypes ?_ (fun v hv => ?_) (fun v hv => ?_) h.types
  · rw [h.transcript.untyped, ← h.instructions]
    exact f.inferred_sublist.nodup h.wellFormed.once
  · obtain ⟨b, -, i, hi, result, none⟩ := h.mem_untyped_iff.1 hv
    have unspelled : i.op.spelled? (g.valueType v) = Option.none := by
      rw [← Option.isNone_iff_eq_none, i.op.isNone_spelled? _ .void, none]
      rfl
    rw [h.transcript.spelled b i (h.body b ▸ hi) v result, unspelled]
    rfl
  · obtain ⟨b, hb, i, hi, result, -⟩ := h.mem_untyped_iff.1 hv
    rw [← h.frame.1.sizeValues, ← mem_valueIds_iff, ← h.numbered.named]
    exact mem_named_of_result hb hi result

theorem kept (hv : v ∉ untyped.map (·.2)) : f.valueType v = g.valueType v := by
  obtain ⟨rank, n, inferred, -⟩ := h.exists_inferred
  exact inferred.kept v hv

theorem not_mem_untyped_of_param (hv : v ∈ f.params) : v ∉ untyped.map (·.2) := by
  intro mem
  obtain ⟨b, hb, i, hi, result, -⟩ := h.mem_untyped_iff.1 mem
  exact h.wellFormed.params v (List.mem_flatMap.mpr ⟨b, hb, mem_results_iff.2 ⟨i, hi, result⟩⟩) hv

theorem mem_layout (lt : b.index < f.blocks.size) : b ∈ f.layout := by
  rw [h.numbered.layout]
  exact mem_blockIds_iff.2 lt

theorem recorded (hi : i ∈ f.body b) : Recorded f i :=
  (h.transcript.recorded b i (h.body b ▸ hi)).of_size (Nat.le_of_eq h.frame.1.sizeValues.symm)
    (Nat.le_of_eq h.frame.1.sizeBlocks.symm)

theorem legal (v : ValueId) : (f.valueType v).Legal := by
  obtain ⟨rank, n, inferred, -⟩ := h.exists_inferred
  refine inferred.legal h.transcript.legal (fun v op found c hc => ?_) v
  obtain ⟨b, -, i, hi, -, rfl⟩ := exists_of_definedOp? found
  have legal : c.Legal := (h.transcript.recorded b i hi).operands _ hc
  cases c with
  | int bits n => exact legal.1
  | null t => exact legal.1
  | f32 | f64 => trivial

theorem legible : f.Legible := by
  have named := h.frame.1.named h.transcript.named
  have values {v : ValueId} (hv : v ∈ f.named) : v.index < f.values.size := by
    rwa [h.numbered.named, mem_valueIds_iff] at hv
  refine ⟨by rw [h.frame.1.name]; exact h.transcript.name, fun v hv => named.valueName (values hv),
    fun b hb => named.blockName ?_, ?_, ?_, fun p hp => ⟨h.legal p, ?_⟩,
    h.frame.1.returns.symm ▸ h.transcript.returns, fun b hb i hi => ?_⟩
  · rwa [h.numbered.layout, mem_blockIds_iff] at hb
  · have names : f.valueIds.map f.valueName = f.values.toList.map (·.name) := by
      rw [← map_valueInfo_valueIds, List.map_map]
      rfl
    rw [h.numbered.named, names]
    exact named.distinctValues
  · have names : f.blockIds.map f.blockName = f.blocks.toList.map (·.name) := by
      rw [← map_block_blockIds, List.map_map]
      rfl
    rw [h.numbered.layout, names]
    exact named.distinctBlocks
  · rw [h.kept (h.not_mem_untyped_of_param hp)]
    exact h.transcript.params p (h.frame.1.params ▸ hp)
  · have recorded := h.recorded hi
    refine ⟨fun v hv => ?_, fun k hk => recorded.operands _ hk, fun c hc => h.mem_layout (recorded.blocks c hc),
      recorded.types, fun _ => ?_, recorded.callee, recorded.productive⟩
    · rw [h.numbered.named, mem_valueIds_iff]
      exact recorded.operands _ (Op.mem_usedValues_iff.1 hv)
    · unfold resultType
      cases i.result with
      | none => trivial
      | some v => exact h.legal v

theorem exists_rank : ∃ rank n, (∀ w, rank w < n) ∧ ∀ b ∈ f.layout, ∀ i ∈ f.body b, ∀ v, i.result = some v →
    i.op.Follows f.valueType rank v := by
  obtain ⟨rank, n, inferred, bound⟩ := h.exists_inferred
  refine ⟨rank, n, bound, fun b hb i hi v result => ?_⟩
  have hi' : i ∈ g.body b := h.body b ▸ hi
  by_cases mem : v ∈ untyped.map (·.2)
  · obtain ⟨op, found, -, follows⟩ := inferred.follows v mem
    rw [definedOp?_of_mem h.nodup_defined (h.frame.1.layout ▸ hb) hi' result] at found
    rwa [Option.some.inj found]
  · have spelled : i.op.spelled? .void ≠ none := fun none =>
      mem (h.mem_untyped_iff.2 ⟨b, hb, i, hi, result, none⟩)
    have type := h.transcript.spelled b i hi' v result
    rw [← h.kept mem] at type
    have self : i.op.spelled? (f.valueType v) = some (f.valueType v) := by
      cases e : i.op.spelled? (f.valueType v) with
      | none =>
        rw [← Option.isNone_iff_eq_none, i.op.isNone_spelled? _ .void, Option.isNone_iff_eq_none] at e
        exact absurd e spelled
      | some t =>
        rw [e] at type
        rw [type]
        rfl
    cases e : i.op with
    | load | gep | binary =>
      rw [e] at spelled
      exact absurd rfl spelled
    | _ =>
      rw [e] at self
      exact self

/-- Reading again gives the same numbers. -/
theorem reread (hb : b ∈ f.layout) (hi : i ∈ f.body b) :
    i.reread f.newValueId f.newBlockId = i.canonical := by
  have legible := h.legible.instructions b hb i hi
  have op : i.op.reread f.newValueId f.newBlockId = i.op.canonical :=
    Op.reread_congr (fun v hv => h.numbered.newValueId (legible.uses v hv))
      fun c hc => h.numbered.newBlockId (legible.blocks c hc)
  have result : i.result.map f.newValueId = i.result := by
    cases e : i.result with
    | none => rfl
    | some v => exact congrArg some (h.numbered.newValueId (mem_named_of_result hb hi e))
  rw [Instruction.reread, op, result]
  rfl

theorem spelledType (hv : v ∈ f.named) : f.spelledType f.instructions v = g.valueType v := by
  rcases List.mem_append.mp hv with given | defined
  · rw [Function.spelledType, if_pos given, h.kept (h.not_mem_untyped_of_param given)]
  · obtain ⟨b, hb, mem⟩ := List.mem_flatMap.mp defined
    obtain ⟨i, hi, result⟩ := mem_results_iff.1 mem
    rw [h.legible.spelledType_of_mem hb hi result, h.transcript.spelled b i (h.body b ▸ hi) v result]
    by_cases untyped : v ∈ untyped.map (·.2)
    · obtain ⟨c, hc, j, hj, result', none⟩ := h.mem_untyped_iff.1 untyped
      have same : i.op = j.op := Option.some.inj ((definedOp?_of_mem h.wellFormed.once hb hi result).symm.trans
        (definedOp?_of_mem h.wellFormed.once hc hj result'))
      have unspelled (t : Ty) : i.op.spelled? t = Option.none := by
        rw [← Option.isNone_iff_eq_none, i.op.isNone_spelled? _ .void, same, none]
        rfl
      rw [unspelled, unspelled]
    · rw [h.kept untyped, ← h.transcript.spelled b i (h.body b ▸ hi) v result]

/-- What the second pass makes of the text: the function with canonical constants, without the types
that remain to be inferred. -/
theorem renumbered : f.renumbered f.instructions = { f.canonical with values := g.values } := by
  have params : (f.renumbered f.instructions).params = f.params := by
    rw [h.legible.params_renumbered]
    refine (List.map_congr_left fun v hv => ?_).trans (List.map_id _)
    exact h.numbered.newValueId (List.mem_append_left _ hv)
  have layout : (f.renumbered f.instructions).layout = f.layout := by
    rw [h.legible.layout_renumbered]
    refine (List.map_congr_left fun b hb => ?_).trans (List.map_id _)
    exact h.numbered.newBlockId hb
  have values : (f.renumbered f.instructions).values = g.values := by
    have ids : f.valueIds = g.valueIds := by rw [valueIds, valueIds, h.frame.1.sizeValues]
    rw [Function.renumbered, h.numbered.named, ids, ← @Array.toArray_toList _ g.values,
      ← map_valueInfo_valueIds]
    refine congrArg List.toArray (List.map_congr_left fun v hv => ?_)
    rw [h.frame.1.valueName, h.spelledType (h.numbered.named ▸ ids ▸ hv)]
    rfl
  have blocks : (f.renumbered f.instructions).blocks = f.canonical.blocks := by
    have list : f.canonical.blocks = (f.layout.map fun b => (f.block b).mapBody (·.map Instruction.canonical)).toArray := by
      rw [h.numbered.layout, canonical, mapInstructions, ← @Array.toArray_toList _ f.blocks,
        ← map_block_blockIds, List.map_toArray, List.map_map]
      rfl
    rw [Function.renumbered, list]
    refine congrArg List.toArray (List.map_congr_left fun b hb => ?_)
    have body := filter_instructions h.legible.nodup_layout hb
    have same : (f.instructions.filter (·.1 = b)).map (·.2.reread f.newValueId f.newBlockId) =
        (f.body b).map Instruction.canonical := by
      rw [← body, List.map_map]
      refine List.map_congr_left fun x hx => ?_
      obtain ⟨mem, at_b⟩ := List.mem_filter.mp hx
      obtain ⟨hc, hi⟩ := mem_instructions_iff.1 (show (x.1, x.2) ∈ f.instructions from mem)
      exact h.reread hc hi
    rw [same]
    rfl
  have name : (f.renumbered f.instructions).name = f.name := rfl
  have returns : (f.renumbered f.instructions).returns = f.returns := rfl
  generalize f.renumbered f.instructions = r at name params returns values blocks layout
  cases r
  cases name
  cases params
  cases returns
  cases values
  cases blocks
  cases layout
  rfl

theorem definedOp? (v : ValueId) :
    (f.renumbered f.instructions).definedOp? v = (g.definedOp? v).map Op.canonical := by
  have image {b : BlockId} {i : Instruction} (hb : b ∈ f.layout) (hi : i ∈ f.body b) :
      i.op.reread f.newValueId f.newBlockId = i.op.canonical :=
    congrArg Instruction.op (h.reread hb hi)
  cases e : g.definedOp? v with
  | some op =>
    obtain ⟨b, hb, i, hi, result, rfl⟩ := exists_of_definedOp? e
    rw [← h.frame.1.layout] at hb
    rw [← h.body] at hi
    have found := h.legible.definedOp?_renumbered hb hi result
    rwa [h.numbered.newValueId (mem_named_of_result hb hi result), image hb hi] at found
  | none =>
    cases e' : (f.renumbered f.instructions).definedOp? v with
    | none => rfl
    | some op =>
      obtain ⟨b, hb, i, hi, w, result, rfl, -⟩ := h.legible.exists_of_definedOp?_renumbered e'
      rw [h.numbered.newValueId (mem_named_of_result hb hi result),
        definedOp?_of_mem h.nodup_defined (h.frame.1.layout ▸ hb) (h.body b ▸ hi) result] at e
      cases e

/-- Reading what is written of a function that was read gives it again, with canonical constants. -/
theorem function_canonical {first : Line} {body : List Line} (head : first.text = f.renderHeader.toList)
    (lines : body.map (·.text) = f.layout.flatMap (blockTexts f)) :
    function first body = .ok f.canonical ∧ f.canonical.render = f.render := by
  obtain ⟨untyped₁, values, finish⟩ := function_of_passes h.legible head lines
  have same : untyped₁.map (·.2) = untyped.map (·.2) := by
    rw [values, h.transcript.untyped, ← h.instructions]
    refine (List.map_congr_left fun v hv => ?_).trans (List.map_id _)
    exact h.numbered.newValueId (List.mem_append_right _ (f.inferred_sublist.subset hv))
  have length : untyped₁.length = untyped.length := by simpa using congrArg List.length same
  have values : (f.renumbered f.instructions).values = g.values := by rw [h.renumbered]
  have third := inferTypes_canonical values same h.definedOp? h.types
  have result : ({ f.renumbered f.instructions with values := f.values } : Function) = f.canonical := by
    rw [h.renumbered]
    rfl
  rw [result, ← length] at third
  have type {v : ValueId} (hv : v ∈ f.named) : f.canonical.valueType (f.newValueId v) = f.valueType v := by
    rw [h.numbered.newValueId hv]
    rfl
  have renumbers : Renumbers f f.canonical := by
    refine .of_inferTypes h.legible third (fun v hv => ?_) (fun v hv => type (List.mem_append_left _ hv))
      fun b hb i hi _ v result => type (mem_named_of_result hb hi result)
    rw [type hv]
    exact h.wellFormed.typed_of_named h.legible hv
  exact ⟨finish _ third (renumbers.wellFormed h.legible h.wellFormed), renumbers.render h.legible⟩

end Typed

end Reader

end CheckpointRestart
