import CheckpointRestart.Proofs.Program.Strictness

/-! # What edits do

Each edit of a function in terms of the bodies of its blocks, its layout and its values. Edits of
bodies leave everything else alone; new values and blocks leave those alone that were there.
-/

namespace CheckpointRestart

/-! ## Operands -/

theorem Operand.replace_eq_value_iff {x w : ValueId} {y z : Operand} :
    replace x y z = .value w ↔ (z = .value x ∧ y = .value w) ∨ (z = .value w ∧ w ≠ x) := by
  unfold replace
  split
  · next h => simp [h, eq_comm]
  · next h =>
    constructor
    · rintro rfl
      exact .inr ⟨rfl, fun e => h (congrArg _ e)⟩
    · rintro (⟨e, -⟩ | ⟨rfl, -⟩)
      · exact absurd e h
      · rfl

namespace Op

variable {op : Op} {g : Operand → Operand} {v x : ValueId} {y : Operand}

@[simp] theorem isTerminator_mapOperands : (op.mapOperands g).isTerminator = op.isTerminator := by
  cases op <;> rfl

@[simp] theorem isPhi_mapOperands : (op.mapOperands g).isPhi = op.isPhi := by
  cases op <;> rfl

@[simp] theorem targets_mapOperands : (op.mapOperands g).targets = op.targets := by
  cases op <;> rfl

@[simp] theorem producesValue_mapOperands :
    (op.mapOperands g).producesValue = op.producesValue := by
  cases op with
  | session c => cases c <;> rfl
  | _ => rfl

theorem operands_mapOperands : (op.mapOperands g).operands = op.operands.map g := by
  cases op with
  | session c =>
    cases c <;> simp [mapOperands, operands, SessionCall.mapOperands, SessionCall.operands,
      List.flatMap_map, List.map_flatMap]
  | phi pairs => simp [mapOperands, operands]
  | ret value => cases value <;> rfl
  | _ => rfl

theorem mem_usedValues_iff : v ∈ op.usedValues ↔ .value v ∈ op.operands := by
  rw [usedValues, List.mem_filterMap]
  constructor
  · rintro ⟨x, hx, h⟩
    cases x with
    | value w =>
      cases h
      exact hx
    | const c => cases h
  · exact fun h => ⟨_, h, rfl⟩

theorem mem_usedValues_replace_iff :
    v ∈ (op.mapOperands (Operand.replace x y)).usedValues ↔
      (v ∈ op.usedValues ∧ v ≠ x) ∨ (x ∈ op.usedValues ∧ y = .value v) := by
  simp only [mem_usedValues_iff, operands_mapOperands, List.mem_map, Operand.replace_eq_value_iff]
  constructor
  · rintro ⟨z, hz, ⟨rfl, hy⟩ | ⟨rfl, ne⟩⟩
    · exact .inr ⟨hz, hy⟩
    · exact .inl ⟨hz, ne⟩
  · rintro (⟨hv, ne⟩ | ⟨hx, rfl⟩)
    · exact ⟨_, hv, .inr ⟨rfl, ne⟩⟩
    · exact ⟨_, hx, .inl ⟨rfl, rfl⟩⟩

theorem mapOperands_eq_self (h : ∀ z ∈ op.operands, g z = z) : op.mapOperands g = op := by
  have fixed : ∀ {α : Type} {k : α → α} {xs : List α}, (∀ a ∈ xs, k a = a) → xs.map k = xs :=
    fun hk => (List.map_congr_left hk).trans (List.map_id _)
  cases op with
  | session c =>
    cases c with
    | saveAlias w n a cs =>
      simp only [operands, SessionCall.operands, List.mem_append, List.mem_flatMap] at h
      have members : cs.map (fun c => { c with
          width := g c.width, count := g c.count, address := g c.address }) = cs :=
        fixed fun c hc => by
          rw [h c.width (.inr ⟨c, hc, by simp⟩), h c.count (.inr ⟨c, hc, by simp⟩),
            h c.address (.inr ⟨c, hc, by simp⟩)]
      simp only [mapOperands, SessionCall.mapOperands, members]
      rw [h w (by simp), h n (by simp), h a (by simp)]
    | _ => simp_all [mapOperands, operands, SessionCall.mapOperands, SessionCall.operands]
  | phi pairs =>
    refine congrArg phi (fixed fun ⟨z, p⟩ hp => ?_)
    exact congrArg (·, p) (h z (List.mem_map_of_mem hp))
  | call callee args => exact congrArg (call callee) (fixed h)
  | ret value => cases value <;> simp_all [mapOperands, operands]
  | _ => simp_all [mapOperands, operands]

theorem mapOperands_replace_eq_self (h : x ∉ op.usedValues) :
    op.mapOperands (Operand.replace x y) = op := by
  refine mapOperands_eq_self fun z hz => if_neg ?_
  rintro rfl
  exact h (mem_usedValues_iff.2 hz)

theorem targets_of_not_isTerminator (h : op.isTerminator = false) : op.targets = [] := by
  cases op <;> simp_all [isTerminator, targets]

theorem isTerminator_of_isPhi (h : op.isPhi = true) : op.isTerminator = false := by
  cases op <;> simp_all [isTerminator, isPhi]

end Op

namespace Function

variable {f : Function} {b c : BlockId} {v : ValueId}

/-! ## Bodies -/

section Bodies

variable {g : List Instruction → List Instruction}

@[simp] theorem layout_modifyBody : (f.modifyBody b g).layout = f.layout := rfl

@[simp] theorem params_modifyBody : (f.modifyBody b g).params = f.params := rfl

@[simp] theorem values_modifyBody : (f.modifyBody b g).values = f.values := rfl

@[simp] theorem entry_modifyBody : (f.modifyBody b g).entry = f.entry := rfl

@[simp] theorem valueType_modifyBody : (f.modifyBody b g).valueType v = f.valueType v := rfl

@[simp] theorem size_blocks_modifyBody : (f.modifyBody b g).blocks.size = f.blocks.size :=
  Array.size_modify

theorem body_modifyBody_of_ne (h : c ≠ b) : (f.modifyBody b g).body c = f.body c := by
  have : b.index ≠ c.index := fun e => h (by cases b; cases c; simp_all)
  simp [body, block, modifyBody, Array.getD_eq_getD_getElem?, Array.getElem?_modify, this]

theorem body_modifyBody_self (h : b.index < f.blocks.size) :
    (f.modifyBody b g).body b = g (f.body b) := by
  simp [body, block, modifyBody, Array.getD_eq_getD_getElem?, h, Array.getElem_modify, Block.mapBody]

theorem blockName_modifyBody : (f.modifyBody b g).blockName c = f.blockName c := by
  simp only [blockName, block, modifyBody, Array.getD_eq_getD_getElem?, Array.getElem?_modify]
  split
  · cases f.blocks[c.index]? <;> rfl
  · rfl

theorem Coherent.body_modifyBody (h : f.Coherent) (hb : b ∈ f.layout) :
    (f.modifyBody b g).body c = if c = b then g (f.body b) else f.body c := by
  split
  · next hc =>
    subst hc
    exact body_modifyBody_self ((h.mem_layout c).mp hb)
  · next hc => exact body_modifyBody_of_ne hc

theorem Coherent.modifyBody (h : f.Coherent) : (f.modifyBody b g).Coherent :=
  ⟨fun c => by simpa using h.mem_layout c, h.nodup, h.params⟩

theorem Coherent.body_eq_nil (h : f.Coherent) (hb : b ∉ f.layout) : f.body b = [] := by
  have : ¬ b.index < f.blocks.size := fun lt => hb ((h.mem_layout b).mpr lt)
  simp [body, block, Array.getD, this]

theorem Coherent.mem_layout_of_mem_body (h : f.Coherent) {i : Instruction} (hi : i ∈ f.body b) :
    b ∈ f.layout := by
  by_contra hb
  rw [h.body_eq_nil hb] at hi
  cases hi

end Bodies

section Everywhere

variable {g : Instruction → Instruction}

@[simp] theorem layout_mapInstructions : (f.mapInstructions g).layout = f.layout := rfl

@[simp] theorem params_mapInstructions : (f.mapInstructions g).params = f.params := rfl

@[simp] theorem values_mapInstructions : (f.mapInstructions g).values = f.values := rfl

@[simp] theorem body_mapInstructions : (f.mapInstructions g).body b = (f.body b).map g := by
  simp only [body, block, mapInstructions, Array.getD_eq_getD_getElem?, Array.getElem?_map]
  cases f.blocks[b.index]? <;> simp [Block.mapBody]

theorem blockName_mapInstructions : (f.mapInstructions g).blockName b = f.blockName b := by
  simp only [blockName, block, mapInstructions, Array.getD_eq_getD_getElem?, Array.getElem?_map]
  cases f.blocks[b.index]? <;> rfl

theorem Coherent.mapInstructions (h : f.Coherent) : (f.mapInstructions g).Coherent :=
  ⟨fun c => by simpa [Function.mapInstructions] using h.mem_layout c, h.nodup, h.params⟩

end Everywhere

/-! ## Values -/

section Values

variable {name : String} {t : Ty}

@[simp] theorem fst_newValue : (f.newValue name t).1 = ⟨f.values.size⟩ := rfl

@[simp] theorem layout_newValue : (f.newValue name t).2.layout = f.layout := rfl

@[simp] theorem params_newValue : (f.newValue name t).2.params = f.params := rfl

@[simp] theorem body_newValue : (f.newValue name t).2.body b = f.body b := rfl

@[simp] theorem size_values_newValue :
    (f.newValue name t).2.values.size = f.values.size + 1 := by
  simp [newValue]

theorem valueType_newValue_of_lt (h : v.index < f.values.size) :
    (f.newValue name t).2.valueType v = f.valueType v := by
  simp only [newValue, valueType, valueInfo, Array.getD_eq_getD_getElem?, Array.getElem?_push]
  rw [if_neg (by omega)]

theorem valueName_newValue_of_lt (h : v.index < f.values.size) :
    (f.newValue name t).2.valueName v = f.valueName v := by
  simp only [newValue, valueName, valueInfo, Array.getD_eq_getD_getElem?, Array.getElem?_push]
  rw [if_neg (by omega)]

theorem valueType_newValue_self : (f.newValue name t).2.valueType ⟨f.values.size⟩ = t := by
  simp [newValue, valueType, valueInfo, Array.getD_eq_getD_getElem?]

theorem valueType_newValue (v : ValueId) : (f.newValue name t).2.valueType v =
    if v = ⟨f.values.size⟩ then t else f.valueType v := by
  split
  · next e => rw [e, valueType_newValue_self]
  · next ne =>
    have other : v.index ≠ f.values.size := fun e => ne (by cases v; simpa using e)
    simp only [newValue, valueType, valueInfo, Array.getD_eq_getD_getElem?, Array.getElem?_push, if_neg other]

theorem Coherent.newValue (h : f.Coherent) : (f.newValue name t).2.Coherent :=
  ⟨h.mem_layout, h.nodup, fun p hp => by
    rw [size_values_newValue]
    exact Nat.lt_succ_of_lt (h.params p hp)⟩

theorem index_lt_of_typed (h : (f.valueType v).isVoid = false) : v.index < f.values.size := by
  by_contra ge
  have : f.values[v.index]? = none := by simpa using ge
  simp [valueType, valueInfo, Array.getD_eq_getD_getElem?, this, Ty.isVoid] at h

theorem index_lt_of_isPointer (h : (f.valueType v).isPointer = true) :
    v.index < f.values.size := by
  refine index_lt_of_typed ?_
  cases t : f.valueType v <;> simp_all [Ty.isVoid, Ty.isPointer]

theorem index_lt_of_int {bits : Nat} (h : f.valueType v = .int bits) :
    v.index < f.values.size :=
  index_lt_of_typed (by rw [h]; rfl)

end Values

/-! ## Blocks -/

section Blocks

variable {after : BlockId} {name : String}

theorem mem_insertAfter_iff {new : BlockId} {bs : List BlockId} :
    c ∈ insertAfter after new bs ↔ c = new ∨ c ∈ bs := by
  induction bs with
  | nil => simp [insertAfter]
  | cons b bs ih =>
    rw [insertAfter]
    split
    · simp only [List.mem_cons]
      grind
    · rw [List.mem_cons, ih]
      simp only [List.mem_cons]
      grind

theorem nodup_insertAfter {new : BlockId} {bs : List BlockId} (h : bs.Nodup) (fresh : new ∉ bs) :
    (insertAfter after new bs).Nodup := by
  induction bs with
  | nil => simp [insertAfter]
  | cons b bs ih =>
    rw [insertAfter]
    simp only [List.mem_cons, not_or] at fresh
    obtain ⟨hb, hbs⟩ := List.nodup_cons.mp h
    split
    · refine List.nodup_cons.mpr ⟨?_, List.nodup_cons.mpr ⟨fresh.2, hbs⟩⟩
      simp [hb, Ne.symm fresh.1]
    · refine List.nodup_cons.mpr ⟨?_, ih hbs fresh.2⟩
      rw [mem_insertAfter_iff]
      exact fun h => h.elim (fun e => fresh.1 e.symm) hb

theorem headD_insertAfter {new : BlockId} {bs : List BlockId} (h : bs ≠ []) (d : BlockId) :
    (insertAfter after new bs).headD d = bs.headD d := by
  cases bs with
  | nil => exact absurd rfl h
  | cons b bs =>
    rw [insertAfter]
    split <;> rfl

@[simp] theorem fst_insertBlockAfter :
    (f.insertBlockAfter after name).1 = ⟨f.blocks.size⟩ := rfl

@[simp] theorem layout_insertBlockAfter :
    (f.insertBlockAfter after name).2.layout = insertAfter after ⟨f.blocks.size⟩ f.layout := rfl

@[simp] theorem params_insertBlockAfter :
    (f.insertBlockAfter after name).2.params = f.params := rfl

@[simp] theorem values_insertBlockAfter :
    (f.insertBlockAfter after name).2.values = f.values := rfl

theorem body_insertBlockAfter :
    (f.insertBlockAfter after name).2.body b = if b = ⟨f.blocks.size⟩ then [] else f.body b := by
  simp only [insertBlockAfter, createBlock, body, block, Array.getD_eq_getD_getElem?,
    Array.getElem?_push]
  by_cases h : b.index = f.blocks.size
  · have : b = ⟨f.blocks.size⟩ := by cases b; simp_all
    simp [this]
  · have : b ≠ ⟨f.blocks.size⟩ := fun e => h (by rw [e])
    simp [h, this]

theorem blockName_insertBlockAfter (h : b.index < f.blocks.size) :
    (f.insertBlockAfter after name).2.blockName b = f.blockName b := by
  simp only [blockName, block, insertBlockAfter, createBlock, Array.getD_eq_getD_getElem?,
    Array.getElem?_push]
  rw [if_neg (by omega)]

theorem Coherent.new_not_mem (h : f.Coherent) : (⟨f.blocks.size⟩ : BlockId) ∉ f.layout :=
  fun hb => absurd ((h.mem_layout _).mp hb) (Nat.lt_irrefl _)

theorem Coherent.insertBlockAfter (h : f.Coherent) :
    (f.insertBlockAfter after name).2.Coherent := by
  refine ⟨fun b => ?_, nodup_insertAfter h.nodup h.new_not_mem, h.params⟩
  rw [layout_insertBlockAfter, mem_insertAfter_iff, h.mem_layout]
  have : b = ⟨f.blocks.size⟩ ↔ b.index = f.blocks.size := by cases b; simp
  simp only [Function.insertBlockAfter, createBlock, Array.size_push, this]
  omega

end Blocks

/-! ## Where control goes -/

/-- Where control goes from a block with the given body. -/
def targetsOf (body : List Instruction) : List BlockId :=
  ((body.getLast?.filter (·.op.isTerminator)).map fun t => t.op.targets.eraseDups).getD []

theorem successors_eq (f : Function) (b : BlockId) : f.successors b = targetsOf (f.body b) := by
  unfold successors Block.successors Block.terminator? targetsOf body
  cases (f.block b).body.getLast?.filter (·.op.isTerminator) <;> rfl

theorem targetsOf_append {is js : List Instruction} (h : js ≠ []) :
    targetsOf (is ++ js) = targetsOf js := by
  simp [targetsOf, List.getLast?_append_of_ne_nil _ h]

theorem targetsOf_concat {is : List Instruction} {t : Instruction}
    (h : t.op.isTerminator = true) : targetsOf (is ++ [t]) = t.op.targets.eraseDups := by
  simp [targetsOf, Option.filter, h]

theorem predecessors_congr {f f' : Function} (layout : f'.layout = f.layout)
    (same : ∀ p ∈ f.layout, f'.successors p = f.successors p) :
    f'.predecessors b = f.predecessors b := by
  unfold predecessors
  rw [layout]
  refine List.filter_congr fun p hp => ?_
  rw [same p hp]

end Function

end CheckpointRestart
