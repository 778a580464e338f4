import CheckpointRestart.Proofs.Program.Reader.Renumbering
import CheckpointRestart.Proofs.Program.Reader.Transcript

/-! # Reading a function that was written

A function whose text is legible and whose types follow from one another is read again from what is
written of it, with other numbers. A function that was read before keeps even its numbers.
-/

namespace CheckpointRestart

open Text

theorem map_idxOf_eq_range {α : Type} [DecidableEq α] {xs : List α} (nodup : xs.Nodup) :
    xs.map xs.idxOf = List.range xs.length := by
  refine List.ext_getElem (by simp) fun n h₁ h₂ => ?_
  rw [List.getElem_map, List.getElem_range, nodup.idxOf_getElem]

namespace Function

variable {f g : Function} {b : BlockId} {i : Instruction} {v : ValueId} {op : Op}

/-! ## The operation that defines a value -/

theorem definedOp?_of_mem (nodup : f.defined.Nodup) (hb : b ∈ f.layout) (hi : i ∈ f.body b)
    (hv : i.result = some v) : f.definedOp? v = some i.op := by
  obtain ⟨n, hn⟩ := List.getElem?_of_mem hi
  have here : (v, (⟨b, n⟩ : Location)) ∈ f.definitions := mem_definitions_iff.2 ⟨hb, i, hn, hv⟩
  have found : f.definition? v = some ⟨b, n⟩ := by
    cases e : f.definitions.reverse.find? (·.1 == v) with
    | none =>
      have := List.find?_eq_none.mp e (v, ⟨b, n⟩) (List.mem_reverse.mpr here)
      simp at this
    | some p =>
      obtain ⟨w, l⟩ := p
      obtain rfl : w = v := by simpa using List.find?_some e
      have there := List.mem_reverse.mp (List.mem_of_find?_eq_some e)
      have same := List.inj_on_of_nodup_map (map_fst_definitions f ▸ nodup) there here rfl
      rw [definition?, e, same]
      rfl
  rw [definedOp?, found]
  exact congrArg (Option.map _) hn

theorem exists_of_definedOp? (h : f.definedOp? v = some op) :
    ∃ b ∈ f.layout, ∃ i ∈ f.body b, i.result = some v ∧ i.op = op := by
  obtain ⟨i, found, rfl⟩ := Option.map_eq_some_iff.mp h
  obtain ⟨l, defined, at_l⟩ := Option.bind_eq_some_iff.mp found
  obtain ⟨⟨w, l'⟩, searched, rfl⟩ := Option.map_eq_some_iff.mp defined
  obtain rfl : w = v := by simpa using List.find?_some searched
  have mem := List.mem_reverse.mp (List.mem_of_find?_eq_some searched)
  obtain ⟨hb, j, hj, result⟩ := mem_definitions_iff.1 mem
  obtain rfl : j = i := Option.some.inj (hj.symm.trans at_l)
  exact ⟨l'.block, hb, j, List.mem_of_getElem? hj, result, rfl⟩

/-! ## The function after the second pass -/

theorem filter_instructions (nodup : g.layout.Nodup) (hb : b ∈ g.layout) :
    (g.instructions.filter (·.1 = b)).map (·.2) = g.body b := by
  rw [instructions]
  generalize g.layout = bs at nodup hb
  induction bs with
  | nil => cases hb
  | cons c bs ih =>
    rw [List.nodup_cons] at nodup
    have other {c : BlockId} (ne : c ≠ b) :
        ((g.body c).map fun i => (c, i)).filter (fun x => decide (x.1 = b)) = [] := by
      simp [ne]
    rw [List.flatMap_cons, List.filter_append, List.map_append]
    by_cases e : c = b
    · subst e
      have rest : (bs.flatMap fun b => (g.body b).map fun i => (b, i)).filter (fun x => decide (x.1 = c)) = [] := by
        rw [List.filter_flatMap, List.flatMap_eq_nil_iff]
        intro d hd
        have ne : d ≠ c := fun e => nodup.1 (e ▸ hd)
        simp [ne]
      rw [rest]
      simp [List.filter_map, Function.comp_def]
    · rw [other e, List.map_nil, List.nil_append]
      exact ih nodup.2 ((List.mem_cons.mp hb).resolve_left (Ne.symm e))

theorem valueInfo_renumbered {is : List (BlockId × Instruction)} (hv : v ∈ g.named) :
    (g.renumbered is).valueInfo (g.newValueId v) = ⟨g.valueName v, g.spelledType is v⟩ := by
  simp [valueInfo, renumbered, newValueId, Array.getD_eq_getD_getElem?, List.getElem?_idxOf hv]

namespace Legible

variable (h : g.Legible)

include h

theorem params_renumbered {is : List (BlockId × Instruction)} :
    (g.renumbered is).params = g.params.map g.newValueId := by
  have front : g.params.map g.newValueId = g.params.map fun v => ⟨g.params.idxOf v⟩ := by
    refine List.map_congr_left fun v hv => ?_
    rw [newValueId, named, List.idxOf_append_of_mem hv]
  have nodup : g.params.Nodup := (List.nodup_append.mp h.nodup_named).1
  rw [front, renumbered, ← map_idxOf_eq_range nodup, List.map_map]
  rfl

theorem layout_renumbered {is : List (BlockId × Instruction)} :
    (g.renumbered is).layout = g.layout.map g.newBlockId := by
  rw [renumbered, ← map_idxOf_eq_range h.nodup_layout, List.map_map]
  rfl

theorem block_renumbered (hb : b ∈ g.layout) : (g.renumbered g.instructions).block (g.newBlockId b) =
    ⟨g.blockName b, (g.body b).map (·.reread g.newValueId g.newBlockId)⟩ := by
  have body := filter_instructions h.nodup_layout hb
  simp only [block, renumbered, newBlockId, Array.getD_eq_getD_getElem?, List.getElem?_toArray,
    List.getElem?_map, List.getElem?_idxOf hb, Option.map_some, Option.getD_some]
  rw [← body, List.map_map]
  rfl

theorem defined_renumbered : (g.renumbered g.instructions).defined = g.defined.map g.newValueId := by
  rw [defined, defined, h.layout_renumbered, List.flatMap_map, List.map_flatMap]
  refine List.flatMap_congr fun b hb => ?_
  rw [body, h.block_renumbered hb, results_reread]

theorem nodup_renumbered : (g.renumbered g.instructions).defined.Nodup := by
  rw [h.defined_renumbered]
  refine (List.nodup_append.mp h.nodup_named).2.1.map_on fun v hv w hw e => ?_
  exact newValueId_injOn v (List.mem_append_right _ hv) w (List.mem_append_right _ hw) e

theorem definedOp?_renumbered (hb : b ∈ g.layout) (hi : i ∈ g.body b) (hv : i.result = some v) :
    (g.renumbered g.instructions).definedOp? (g.newValueId v) =
      some (i.op.reread g.newValueId g.newBlockId) := by
  have layout : g.newBlockId b ∈ (g.renumbered g.instructions).layout := by
    rw [h.layout_renumbered]
    exact List.mem_map_of_mem hb
  have mem : i.reread g.newValueId g.newBlockId ∈ (g.renumbered g.instructions).body (g.newBlockId b) := by
    rw [body, h.block_renumbered hb]
    exact List.mem_map_of_mem hi
  exact definedOp?_of_mem h.nodup_renumbered layout mem (by rw [i.result_reread, hv]; rfl)

theorem exists_of_definedOp?_renumbered {w : ValueId}
    (found : (g.renumbered g.instructions).definedOp? w = some op) :
    ∃ b ∈ g.layout, ∃ i ∈ g.body b, ∃ v, i.result = some v ∧ w = g.newValueId v ∧
      op = i.op.reread g.newValueId g.newBlockId := by
  obtain ⟨c, hc, j, hj, result, rfl⟩ := exists_of_definedOp? found
  rw [h.layout_renumbered] at hc
  obtain ⟨b, hb, rfl⟩ := List.mem_map.mp hc
  rw [body, h.block_renumbered hb] at hj
  obtain ⟨i, hi, rfl⟩ := List.mem_map.mp hj
  rw [i.result_reread] at result
  obtain ⟨v, hv, rfl⟩ := Option.map_eq_some_iff.mp result
  exact ⟨b, hb, i, hi, v, hv, rfl, rfl⟩

theorem spelledType_of_mem (hb : b ∈ g.layout) (hi : i ∈ g.body b) (hv : i.result = some v) :
    g.spelledType g.instructions v = (i.op.spelled? (g.valueType v)).getD .void := by
  have nodup := h.nodup_named
  rw [named, List.nodup_append] at nodup
  have mem : (b, i) ∈ g.instructions := mem_instructions_iff.2 ⟨hb, hi⟩
  have defined : v ∈ g.defined := by
    rw [defined_eq_filterMap]
    exact List.mem_filterMap.mpr ⟨(b, i), mem, hv⟩
  have given : v ∉ g.params := fun given => nodup.2.2 v given v defined rfl
  cases found : g.instructions.find? (·.2.result == some v) with
  | none =>
    have := List.find?_eq_none.mp found (b, i) mem
    simp [hv] at this
  | some x =>
    -- no two instructions have the same result
    obtain ⟨c, j⟩ := x
    have hj : j.result = some v := by simpa using List.find?_some found
    obtain ⟨hc, mem_j⟩ := mem_instructions_iff.1 (List.mem_of_find?_eq_some found)
    have here := definedOp?_of_mem nodup.2.1 hb hi hv
    have there := definedOp?_of_mem nodup.2.1 hc mem_j hj
    have same : j.op = i.op := Option.some.inj (there.symm.trans here)
    rw [spelledType, if_neg given, found]
    exact congrArg (fun op => (Op.spelled? (g.valueType v) op).getD .void) same

end Legible

/-! ## After the third pass -/

theorem SameFrame.valueName {f f' : Function} (frame : SameFrame f f') (v : ValueId) :
    f'.valueName v = f.valueName v := by
  have name (f : Function) : f.valueName v = ((f.values.toList.map (·.name))[v.index]?).getD "" := by
    rw [Function.valueName, valueInfo, Array.getD_eq_getD_getElem?, List.getElem?_map, Array.getElem?_toList]
    cases f.values[v.index]? <;> rfl
  rw [name, name, frame.values]

theorem Renumbers.of_inferTypes {g h : Function} {d : ValueId → Option Op} {fuel : Nat}
    {untyped : List (Nat × ValueId)} (legible : g.Legible)
    (run : Reader.inferTypes d fuel (g.renumbered g.instructions) untyped = .ok h)
    (typed : ∀ v ∈ g.named, (h.valueType (g.newValueId v)).isVoid = false)
    (paramType : ∀ v ∈ g.params, h.valueType (g.newValueId v) = g.valueType v)
    (mergeType : ∀ b ∈ g.layout, ∀ i ∈ g.body b, i.op.isPhi = true → ∀ v, i.result = some v →
      h.valueType (g.newValueId v) = g.valueType v) : Renumbers g h := by
  obtain ⟨frame, blocks⟩ := Reader.inferTypes_frame run
  have block {b : BlockId} (hb : b ∈ g.layout) : h.block (g.newBlockId b) =
      ⟨g.blockName b, (g.body b).map (·.reread g.newValueId g.newBlockId)⟩ := by
    rw [← legible.block_renumbered hb, Function.block, Function.block, blocks]
  refine ⟨frame.name, frame.returns, frame.params.trans legible.params_renumbered,
    frame.layout.trans legible.layout_renumbered, ?_, fun v hv => ?_, fun b hb => ?_, fun b hb => ?_, typed,
    paramType, mergeType⟩
  · rw [frame.sizeValues]
    simp [renumbered]
  · rw [frame.valueName, Function.valueName, valueInfo_renumbered hv]
  · rw [Function.blockName, block hb]
  · rw [Function.body, block hb]

/-- The type that a value of the function that is read should have. -/
def oldType (g : Function) (w : ValueId) : Ty :=
  (g.named[w.index]?.map g.valueType).getD .void

def oldRank (g : Function) (rank : ValueId → Nat) (w : ValueId) : Nat :=
  (g.named[w.index]?.map rank).getD 0

theorem oldType_newValueId (hv : v ∈ g.named) : g.oldType (g.newValueId v) = g.valueType v := by
  simp [oldType, newValueId, List.getElem?_idxOf hv]

theorem oldRank_newValueId {rank : ValueId → Nat} (hv : v ∈ g.named) :
    g.oldRank rank (g.newValueId v) = rank v := by
  simp [oldRank, newValueId, List.getElem?_idxOf hv]

/-- The types of all results follow from one another, and no pointer is the result of a binary
operation. -/
structure Typable (g : Function) (rank : ValueId → Nat) : Prop where
  follows : ∀ b ∈ g.layout, ∀ i ∈ g.body b, ∀ v, i.result = some v → i.op.Follows g.valueType rank v
  scalar : ∀ b ∈ g.layout, ∀ i ∈ g.body b, ∀ v, i.result = some v → ∀ o x y, i.op = .binary o x y →
    (g.valueType v).isPointer = false

theorem typeIn_reread {x : Operand} (hx : ∀ v, x = .value v → v ∈ g.named) :
    (x.reread g.newValueId).typeIn g.oldType = x.typeIn g.valueType := by
  cases x with
  | value v => exact oldType_newValueId (hx v rfl)
  | const c => exact c.type_canonical

theorem precedes_reread {rank : ValueId → Nat} {x : Operand} (hx : ∀ v, x = .value v → v ∈ g.named)
    (hv : v ∈ g.named) (before : x.Precedes rank v) :
    (x.reread g.newValueId).Precedes (g.oldRank rank) (g.newValueId v) := by
  intro w e
  cases x with
  | value u =>
    cases e
    rw [oldRank_newValueId (hx u rfl), oldRank_newValueId hv]
    exact before u rfl
  | const c => cases e

theorem follows_reread {rank : ValueId → Nat} (uses : ∀ v ∈ op.usedValues, v ∈ g.named) (hv : v ∈ g.named)
    (follows : op.Follows g.valueType rank v) :
    (op.reread g.newValueId g.newBlockId).Follows g.oldType (g.oldRank rank) (g.newValueId v) := by
  have known {x : Operand} (hx : x ∈ op.operands) : ∀ v, x = .value v → v ∈ g.named := by
    rintro v rfl
    exact uses v (Op.mem_usedValues_iff.2 hx)
  have type := oldType_newValueId hv
  cases op with
  | load x =>
    have hx := known (x := x) (by simp [Op.operands])
    exact ⟨by rw [typeIn_reread hx, type]; exact follows.1, precedes_reread hx hv follows.2⟩
  | gep x y =>
    have hx := known (x := x) (by simp [Op.operands])
    exact ⟨by rw [type]; exact follows.1, by rw [typeIn_reread hx, type]; exact follows.2.1,
      precedes_reread hx hv follows.2.2⟩
  | binary o x y =>
    have hx := known (x := x) (by simp [Op.operands])
    have hy := known (x := y) (by simp [Op.operands])
    rcases follows with ⟨typed, before⟩ | ⟨typed, before⟩
    · exact .inl ⟨by rw [typeIn_reread hx]; exact typed, precedes_reread hx hv before⟩
    · exact .inr ⟨by rw [typeIn_reread hy]; exact typed, precedes_reread hy hv before⟩
  | session call =>
    change Op.spelled? _ ((Op.session call).reread g.newValueId g.newBlockId) = _
    rw [type]
    cases call <;> exact follows
  | _ =>
    change Op.spelled? _ (Op.reread g.newValueId g.newBlockId _) = _
    rw [type]
    exact follows

theorem mem_inferred_iff {w : ValueId} : w ∈ (g.instructions.filterMap (·.2.inferred?)).map g.newValueId ↔
    ∃ b ∈ g.layout, ∃ i ∈ g.body b, ∃ v, i.result = some v ∧ i.op.spelled? .void = none ∧
      w = g.newValueId v := by
  simp only [List.mem_map, List.mem_filterMap, Prod.exists, mem_instructions_iff]
  constructor
  · rintro ⟨v, ⟨b, i, ⟨hb, hi⟩, inferred⟩, rfl⟩
    unfold Instruction.inferred? at inferred
    split at inferred
    · next none => exact ⟨b, hb, i, hi, v, inferred, by simpa using none, rfl⟩
    · cases inferred
  · rintro ⟨b, hb, i, hi, v, result, none, rfl⟩
    exact ⟨v, ⟨b, i, ⟨hb, hi⟩, by simp [Instruction.inferred?, none, result]⟩, rfl⟩

theorem inferred_sublist (g : Function) : (g.instructions.filterMap (·.2.inferred?)).Sublist g.defined := by
  have part : g.instructions.filterMap (·.2.inferred?) =
      (g.instructions.filter fun x => (x.2.op.spelled? .void).isNone).filterMap (·.2.result) := by
    rw [List.filterMap_filter]
    rfl
  rw [part, defined_eq_filterMap]
  exact List.filter_sublist.filterMap _

theorem nodup_inferred (h : g.Legible) : ((g.instructions.filterMap (·.2.inferred?)).map g.newValueId).Nodup := by
  have sub := g.inferred_sublist
  refine (sub.nodup (List.nodup_append.mp h.nodup_named).2.1).map_on fun v hv w hw e => ?_
  exact newValueId_injOn v (List.mem_append_right _ (sub.subset hv)) w
    (List.mem_append_right _ (sub.subset hw)) e

end Function

theorem Op.isInferred_of_unspelled {op : Op} {t : Ty} (produces : op.producesValue = true)
    (none : op.spelled? t = none) : op.isInferred = true := by
  cases op with
  | load | gep | binary => rfl
  | session call =>
    simp only [producesValue, Bool.not_eq_true'] at produces
    simp [spelled?, produces] at none
  | alloca | malloc | phi | cast | compare => cases none
  | _ => cases produces

theorem Op.Follows.spelled? {op : Op} {τ : ValueId → Ty} {rank : ValueId → Nat} {v : ValueId}
    (h : op.Follows τ rank v) (some : op.spelled? .void ≠ none) : op.spelled? (τ v) = .some (τ v) := by
  cases op with
  | load | gep | binary => exact absurd rfl some
  | _ => exact h

namespace Reader

open CheckpointRestart.Function

variable {g : Function} {rank : ValueId → Nat}

/-- The third pass over what was written types every value. -/
theorem inferable_renumbered (h : g.Legible) (typable : g.Typable rank) :
    Inferable (g.renumbered g.instructions).definedOp? g.oldType (g.oldRank rank)
      (g.renumbered g.instructions) ((g.instructions.filterMap (·.2.inferred?)).map g.newValueId) := by
  have type {v : ValueId} (hv : v ∈ g.named) :
      (g.renumbered g.instructions).valueType (g.newValueId v) = g.spelledType g.instructions v := by
    rw [Function.valueType, valueInfo_renumbered hv]
  refine ⟨nodup_inferred h, fun w hw => ?_, fun w hw => ?_, fun w hw => ?_, fun w hw => ?_, fun w hw => ?_⟩
  · obtain ⟨b, hb, i, hi, v, result, none, rfl⟩ := mem_inferred_iff.1 hw
    have unspelled : i.op.spelled? (g.valueType v) = Option.none := by
      rw [← Option.isNone_iff_eq_none, i.op.isNone_spelled? _ .void, none]
      rfl
    rw [type (mem_named_of_result hb hi result), h.spelledType_of_mem hb hi result, unspelled]
    rfl
  · obtain ⟨b, hb, i, hi, v, result, none, rfl⟩ := mem_inferred_iff.1 hw
    have size : (g.renumbered g.instructions).values.size = g.named.length := by simp [renumbered]
    rw [size]
    exact index_newValueId (mem_named_of_result hb hi result)
  · obtain ⟨b, hb, i, hi, v, result, none, rfl⟩ := mem_inferred_iff.1 hw
    have legible := h.instructions b hb i hi
    have produces : i.op.producesValue = true := by rw [← legible.productive, result]; rfl
    refine ⟨i.op.reread g.newValueId g.newBlockId, h.definedOp?_renumbered hb hi result, ?_,
      follows_reread legible.uses (mem_named_of_result hb hi result) (typable.follows b hb i hi v result)⟩
    have inferred := Op.isInferred_of_unspelled produces none
    cases e : i.op with
    | load | gep | binary => rfl
    | _ =>
      rw [e] at inferred
      cases inferred
  · obtain ⟨o, x, y, found⟩ := hw
    obtain ⟨b, hb, i, hi, v, result, rfl, op⟩ := h.exists_of_definedOp?_renumbered found
    rw [oldType_newValueId (mem_named_of_result hb hi result)]
    cases e : i.op with
    | binary o' x' y' => exact typable.scalar b hb i hi v result o' x' y' e
    | _ =>
      rw [e] at op
      cases op
  · refine .inl ?_
    by_cases lt : w.index < g.named.length
    · obtain ⟨v, hv, rfl⟩ : ∃ v ∈ g.named, g.newValueId v = w := by
        refine ⟨g.named[w.index], List.getElem_mem lt, ?_⟩
        cases w
        simp [newValueId, h.nodup_named.idxOf_getElem]
      rw [type hv, oldType_newValueId hv]
      rcases List.mem_append.mp hv with given | defined
      · rw [spelledType, if_pos given]
      · obtain ⟨b, hb, mem⟩ := List.mem_flatMap.mp defined
        obtain ⟨i, hi, result⟩ := mem_results_iff.1 mem
        have spelled : i.op.spelled? .void ≠ none := fun none =>
          hw (mem_inferred_iff.2 ⟨b, hb, i, hi, v, result, none, rfl⟩)
        rw [h.spelledType_of_mem hb hi result, (typable.follows b hb i hi v result).spelled? spelled]
        rfl
    · have none : g.named[w.index]? = Option.none := by simpa using lt
      simp [valueType, valueInfo, renumbered, Array.getD_eq_getD_getElem?, oldType, none]

theorem function_of_passes {first : Line} {body : List Line} (h : g.Legible)
    (head : first.text = g.renderHeader.toList) (lines : body.map (·.text) = g.layout.flatMap (blockTexts g)) :
    ∃ untyped, untyped.map (·.2) = (g.instructions.filterMap (·.2.inferred?)).map g.newValueId ∧
      ∀ f, inferTypes (g.renumbered g.instructions).definedOp? untyped.length (g.renumbered g.instructions)
        untyped = .ok f → f.WellFormed → function first body = .ok f := by
  have header := header_text h.signature head
  rw [declared_eq_outlined] at header
  have outline : ∃ qs last, body.foldlM outline ⟨outlined g g.params [], none, []⟩ =
        .ok ⟨g.renumbered [], last, [] ++ qs⟩ ∧
      qs.map Pending.content = (g.layout.flatMap fun b => (g.body b).map fun i => (b, i)).map
        (pendingContent g) :=
    outline_blocks none [] h rfl (by simp) lines
  obtain ⟨ps, last, outline, contents⟩ := outline
  have second : ∃ more, ps.foldlM readPending (g.renumbered [], []) =
        .ok (g.renumbered g.instructions, [] ++ more) ∧
      more.map (·.2) = (g.instructions.filterMap (·.2.inferred?)).map g.newValueId :=
    readPending_all [] h rfl contents
  obtain ⟨untyped, second, values⟩ := second
  rw [List.nil_append] at outline second
  refine ⟨untyped, values, fun f third wf => ?_⟩
  have valid := validate_eq_ok_iff.2 wf
  simp only [function, header, ok_bind, outline, second]
  change (inferTypes (g.renumbered g.instructions).definedOp? untyped.length (g.renumbered g.instructions)
    untyped >>= _) = _
  rw [third, ok_bind, valid]
  rfl

/-- A well-formed function that can be written and typed is read again. -/
theorem function_text {first : Line} {body : List Line} (h : g.Legible) (wf : g.WellFormed)
    (typable : g.Typable rank) (head : first.text = g.renderHeader.toList)
    (lines : body.map (·.text) = g.layout.flatMap (blockTexts g)) :
    ∃ f, function first body = .ok f ∧ f.name = g.name ∧ f.render = g.render := by
  obtain ⟨untyped, values, finish⟩ := function_of_passes h head lines
  have inferable := inferable_renumbered h typable
  rw [← values] at inferable
  obtain ⟨f, third, suited⟩ := inferable.inferTypes (Nat.le_refl _)
  -- only the result of a binary operation can have another type than before
  have same {v : ValueId} (hv : v ∈ g.named) (plain : ¬ IsBinary (g.renumbered g.instructions).definedOp?
      (g.newValueId v)) : f.valueType (g.newValueId v) = g.valueType v := by
    rcases suited (g.newValueId v) with same | ⟨binary, -⟩
    · rw [same, oldType_newValueId hv]
    · exact absurd binary plain
  have renumbers : Renumbers g f := by
    refine .of_inferTypes h third (fun v hv => ?_) (fun v hv => ?_) fun b hb i hi phi v result => ?_
    · rcases suited (g.newValueId v) with same | ⟨-, typed⟩
      · rw [same, oldType_newValueId hv]
        exact wf.typed_of_named h hv
      · exact typed
    · refine same (List.mem_append_left _ hv) ?_
      rintro ⟨o, x, y, found⟩
      obtain ⟨b, hb, i, hi, w, result, e, -⟩ := h.exists_of_definedOp?_renumbered found
      have eq := newValueId_injOn v (List.mem_append_left _ hv) w (mem_named_of_result hb hi result) e
      have defined : v ∈ g.defined := List.mem_flatMap.mpr ⟨b, hb, mem_results_iff.2 ⟨i, hi, eq ▸ result⟩⟩
      exact (List.nodup_append.mp h.nodup_named).2.2 v hv v defined rfl
    · refine same (mem_named_of_result hb hi result) ?_
      rintro ⟨o, x, y, found⟩
      rw [h.definedOp?_renumbered hb hi result] at found
      have merge : (i.op.reread g.newValueId g.newBlockId).isPhi = i.op.isPhi := Op.isPhi_reread
      rw [Option.some.inj found, phi] at merge
      cases merge
  exact ⟨f, finish f third (renumbers.wellFormed h wf), renumbers.name, renumbers.render h⟩

end Reader

end CheckpointRestart
