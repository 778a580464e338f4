import CheckpointRestart.Instrument.Repair
import CheckpointRestart.Proofs.Program.Collapse
import CheckpointRestart.Proofs.Program.Cut

/-! # Results where they belong

A function is regular if every result is one of its values and comes from an operation that
produces one. All edits keep that, whether or not the function is well formed in between. Which
values are merged is followed at the same time: the edits that add no merges add no merged values.
-/

namespace CheckpointRestart

/-- The same result from an operation of the same sort. -/
structure Kindred (i j : Instruction) : Prop where
  result : j.result = i.result
  isPhi : j.op.isPhi = i.op.isPhi
  producesValue : j.op.producesValue = i.op.producesValue

namespace Kindred

variable {i j k : Instruction}

theorem refl (i : Instruction) : Kindred i i :=
  ⟨rfl, rfl, rfl⟩

theorem trans (h : Kindred i j) (h' : Kindred j k) : Kindred i k :=
  ⟨h'.1.trans h.1, h'.2.trans h.2, h'.3.trans h.3⟩

theorem mapTargets (g : BlockId → BlockId) (i : Instruction) :
    Kindred i (i.mapOp (Op.mapTargets g)) := by
  obtain ⟨r, op⟩ := i
  cases op <;> exact ⟨rfl, rfl, rfl⟩

end Kindred

theorem SameKind.kindred {i j : Instruction} (h : SameKind i j) : Kindred i j :=
  ⟨h.result, h.isPhi, h.producesValue⟩

/-- A result among the first `k` values, produced by the operation, and merged only if it is one of
`merged`. -/
def Instruction.Proper (merged : ValueId → Prop) (k : Nat) (i : Instruction) : Prop :=
  ∀ r, i.result = some r →
    r.index < k ∧ i.op.producesValue = true ∧ (i.op.isPhi = true → merged r)

namespace Instruction.Proper

variable {merged merged' : ValueId → Prop} {k k' : Nat} {i j : Instruction}

theorem mono (h : i.Proper merged k) (le : k ≤ k') : i.Proper merged k' :=
  fun r hr => ⟨(h r hr).1.trans_le le, (h r hr).2⟩

theorem kindred (h : i.Proper merged k) (same : Kindred i j) : j.Proper merged k := by
  intro r hr
  rw [same.isPhi, same.producesValue]
  exact h r (same.result ▸ hr)

theorem effect (op : Op) : (Instruction.effect op).Proper merged k :=
  nofun

theorem define {r : ValueId} {op : Op} (lt : r.index < k) (produces : op.producesValue = true)
    (phi : op.isPhi = true → merged r) : (Instruction.define r op).Proper merged k := by
  rintro _ ⟨⟩
  exact ⟨lt, produces, phi⟩

end Instruction.Proper

namespace Function

variable {f f' f'' : Function} {b c : BlockId} {v : ValueId} {merged merged' : ValueId → Prop}

theorem mem_body_modifyBody {g : List Instruction → List Instruction} {j : Instruction}
    (hj : j ∈ (f.modifyBody b g).body c) : j ∈ f.body c ∨ j ∈ g (f.body b) := by
  by_cases hc : c = b
  · subst hc
    by_cases lt : c.index < f.blocks.size
    · rw [body_modifyBody_self lt] at hj
      exact .inr hj
    · have none : (f.modifyBody c g).body c = [] := by
        simp [Function.body, block, Array.getD, lt]
      rw [none] at hj
      cases hj
  · rw [body_modifyBody_of_ne hc] at hj
    exact .inl hj

theorem mem_body_insertAt_iff {position : Nat} {i j : Instruction} (ne : i ≠ j) :
    i ∈ (f.insertAt b position j).body c ↔ i ∈ f.body c := by
  by_cases e : c = b
  · subst e
    by_cases lt : c.index < f.blocks.size
    · rw [insertAt, body_modifyBody_self lt, List.mem_append, List.mem_cons, or_iff_right ne,
        ← List.mem_append, List.take_append_drop]
    · simp [insertAt, modifyBody, body, block, lt]
  · rw [insertAt, body_modifyBody_of_ne e]

structure Regular (merged : ValueId → Prop) (f : Function) : Prop where
  coherent : f.Coherent
  proper : ∀ b, ∀ i ∈ f.body b, i.Proper merged f.values.size

theorem Regular.mono (h : f.Regular merged)
    (imp : ∀ v, v.index < f.values.size → merged v → merged' v) : f.Regular merged' := by
  refine ⟨h.coherent, fun b i hi r hr => ?_⟩
  obtain ⟨lt, produces, phi⟩ := h.proper b i hi r hr
  exact ⟨lt, produces, fun merge => imp r lt (phi merge)⟩

theorem Regular.productive (h : f.Regular merged) {i : Instruction} (hi : i ∈ f.body b)
    (hr : i.result.isSome = true) : i.op.producesValue = true := by
  obtain ⟨r, hr⟩ := Option.isSome_iff_exists.mp hr
  exact (h.proper b i hi r hr).2.1

theorem Coherent.regular (co : f.Coherent) (wf : f.WellFormed)
    (productive : ∀ b, ∀ i ∈ f.body b, i.result.isSome = true → i.op.producesValue = true) :
    f.Regular fun v => v.index < f.values.size := by
  refine ⟨co, fun b i hi r hr => ?_⟩
  have typed := (wf.fits b (co.mem_layout_of_mem_body hi) i hi).typed r hr
  exact ⟨index_lt_of_typed typed, productive b i hi (by simp [hr]), fun _ => index_lt_of_typed typed⟩

/-- An edit that adds values and keeps a function regular. -/
structure Advances (merged : ValueId → Prop) (f f' : Function) : Prop where
  name : f'.name = f.name
  params : f'.params = f.params
  returns : f'.returns = f.returns
  size : f.values.size ≤ f'.values.size
  types : ∀ v, v.index < f.values.size → f'.valueType v = f.valueType v
  valueNames : ∀ v, v.index < f.values.size → f'.valueName v = f.valueName v
  blocks : f.blocks.size ≤ f'.blocks.size
  blockNames : ∀ b, b.index < f.blocks.size → f'.blockName b = f.blockName b
  regular : f.Regular merged → f'.Regular merged

namespace Advances

theorem refl (f : Function) : Advances merged f f :=
  ⟨rfl, rfl, rfl, Nat.le_refl _, fun _ _ => rfl, fun _ _ => rfl, Nat.le_refl _, fun _ _ => rfl, id⟩

theorem trans (h : Advances merged f f') (h' : Advances merged f' f'') : Advances merged f f'' :=
  ⟨h'.name.trans h.name, h'.params.trans h.params, h'.returns.trans h.returns, h.size.trans h'.size,
    fun v hv => (h'.types v (hv.trans_le h.size)).trans (h.types v hv),
    fun v hv => (h'.valueNames v (hv.trans_le h.size)).trans (h.valueNames v hv),
    h.blocks.trans h'.blocks,
    fun b hb => (h'.blockNames b (hb.trans_le h.blocks)).trans (h.blockNames b hb),
    h'.regular ∘ h.regular⟩

theorem foldl {α : Type} {step : Function → α → Function}
    (one : ∀ f a, Advances merged f (step f a)) (xs : List α) (f : Function) :
    Advances merged f (xs.foldl step f) := by
  induction xs generalizing f with
  | nil => exact .refl f
  | cons a xs ih => exact (one f a).trans (ih (step f a))

theorem operandType (h : Advances merged f f') {x : Operand}
    (hx : ∀ v, x = .value v → v.index < f.values.size) : f'.operandType x = f.operandType x := by
  cases x with
  | const c => rfl
  | value v => exact h.types v (hx v rfl)

/-- An edit of bodies and of the layout alone. -/
theorem of_bodies (frame : f' = { f with blocks := f'.blocks, layout := f'.layout })
    (blocks : f.blocks.size ≤ f'.blocks.size)
    (names : ∀ b, b.index < f.blocks.size → f'.blockName b = f.blockName b)
    (coherent : f.Coherent → f'.Coherent)
    (bodies : ∀ b, ∀ j ∈ f'.body b,
      (∃ c, ∃ i ∈ f.body c, Kindred i j) ∨ j.Proper merged f.values.size) :
    Advances merged f f' := by
  have values : f'.values = f.values := by rw [frame]
  refine ⟨by rw [frame], by rw [frame], by rw [frame], values ▸ Nat.le_refl _, fun v _ => ?_,
    fun v _ => ?_, blocks, names, fun h => ⟨coherent h.coherent, fun b j hj => ?_⟩⟩
  · rw [valueType, valueInfo, values, valueType, valueInfo]
  · rw [valueName, valueInfo, values, valueName, valueInfo]
  · rw [values]
    rcases bodies b j hj with ⟨c, i, hi, same⟩ | proper
    · exact (h.proper c i hi).kindred same
    · exact proper

theorem newValue (f : Function) (name : String) (t : Ty) :
    Advances merged f (f.newValue name t).2 :=
  ⟨rfl, rfl, rfl, by simp, fun _ => valueType_newValue_of_lt, fun _ => valueName_newValue_of_lt,
    Nat.le_refl _, fun _ _ => rfl, fun h => ⟨h.coherent.newValue, fun b i hi =>
      (h.proper b i hi).mono (by simp)⟩⟩

theorem insertBlockAfter (f : Function) (after : BlockId) (name : String) :
    Advances merged f (f.insertBlockAfter after name).2 := by
  refine of_bodies rfl (by simp [Function.insertBlockAfter, createBlock])
    (fun _ => blockName_insertBlockAfter) Coherent.insertBlockAfter fun b j hj =>
      .inl ⟨b, j, ?_, .refl j⟩
  rw [body_insertBlockAfter] at hj
  split at hj
  · cases hj
  · exact hj

theorem modifyBody {g : List Instruction → List Instruction} (b : BlockId)
    (new : ∀ j ∈ g (f.body b), (∃ c, ∃ i ∈ f.body c, Kindred i j) ∨ j.Proper merged f.values.size) :
    Advances merged f (f.modifyBody b g) := by
  refine of_bodies rfl size_blocks_modifyBody.ge (fun _ _ => blockName_modifyBody)
    Coherent.modifyBody fun c j hj => ?_
  rcases mem_body_modifyBody hj with hj | hj
  · exact .inl ⟨c, j, hj, .refl j⟩
  · exact new j hj

theorem setBody {is : List Instruction} (b : BlockId)
    (new : ∀ j ∈ is, (∃ c, ∃ i ∈ f.body c, Kindred i j) ∨ j.Proper merged f.values.size) :
    Advances merged f (f.setBody b is) :=
  modifyBody b new

theorem mapBody {g : Instruction → Instruction} (f : Function) (b : BlockId)
    (same : ∀ i, Kindred i (g i)) : Advances merged f (f.modifyBody b (·.map g)) := by
  refine modifyBody b fun j hj => ?_
  obtain ⟨i, hi, rfl⟩ := List.mem_map.mp hj
  exact .inl ⟨b, i, hi, same i⟩

theorem mapInstructions {g : Instruction → Instruction} (f : Function)
    (same : ∀ i, Kindred i (g i)) : Advances merged f (f.mapInstructions g) := by
  refine of_bodies rfl (by simp [Function.mapInstructions])
    (fun _ _ => blockName_mapInstructions) Coherent.mapInstructions fun b j hj => ?_
  rw [body_mapInstructions] at hj
  obtain ⟨i, hi, rfl⟩ := List.mem_map.mp hj
  exact .inl ⟨b, i, hi, same i⟩

theorem insertAt {j : Instruction} (b : BlockId) (position : Nat)
    (new : j.Proper merged f.values.size) : Advances merged f (f.insertAt b position j) := by
  refine modifyBody b fun i hi => ?_
  rcases List.mem_append.mp hi with hi | hi
  · exact .inl ⟨b, i, List.mem_of_mem_take hi, .refl i⟩
  · rcases List.mem_cons.mp hi with rfl | hi
    · exact .inr new
    · exact .inl ⟨b, i, List.mem_of_mem_drop hi, .refl i⟩

theorem insertFront {j : Instruction} (b : BlockId) (new : j.Proper merged f.values.size) :
    Advances merged f (f.insertFront b j) := by
  refine modifyBody b fun i hi => ?_
  rcases List.mem_cons.mp hi with rfl | hi
  · exact .inr new
  · exact .inl ⟨b, i, hi, .refl i⟩

theorem eraseDefinition (f : Function) (x : ValueId) :
    Advances merged f (f.eraseDefinition x).2 := by
  unfold Function.eraseDefinition
  split
  · exact .refl f
  · next n _ =>
    dsimp only
    split
    · exact .refl f
    · exact setBody _ fun j hj => .inl ⟨⟨n⟩, j, (List.eraseIdx_sublist _ _).subset hj, .refl j⟩

theorem replaceUses (f : Function) (x : ValueId) (y : Operand) :
    Advances merged f (f.replaceUses x y) :=
  mapInstructions f fun i => (SameKind.mapOperands _ i).kindred

theorem replaceUsesIn (f : Function) (b : BlockId) (x : ValueId) (y : Operand) :
    Advances merged f (f.replaceUsesIn b x y) := by
  refine mapBody f b fun i => ?_
  split
  · exact .refl i
  · exact (SameKind.mapOperands _ i).kindred

theorem replacePhiBlock (f : Function) (b old new : BlockId) :
    Advances merged f (f.replacePhiBlock b old new) :=
  mapBody f b fun _ => sameKind_renameIncoming.kindred

theorem retarget (f : Function) (source old new : BlockId) :
    Advances merged f (f.retarget source old new) := by
  refine modifyBody source fun j hj => ?_
  split at hj
  · exact .inl ⟨source, j, hj, .refl j⟩
  · next last found =>
    rcases List.mem_append.mp hj with hj | hj
    · exact .inl ⟨source, j, List.dropLast_subset _ hj, .refl j⟩
    · obtain rfl := List.mem_singleton.mp hj
      exact .inl ⟨source, last, List.mem_of_getLast? found, .mapTargets _ last⟩

theorem setIncoming (f : Function) (b : BlockId) (phi : ValueId)
    (incoming : List (Operand × BlockId)) :
    Advances (fun _ => True) f (f.setIncoming b phi incoming) := by
  refine ⟨rfl, rfl, rfl, Nat.le_refl _, fun _ _ => rfl, fun _ _ => rfl, size_blocks_modifyBody.ge,
    fun _ _ => blockName_modifyBody, fun h => ⟨h.coherent.modifyBody, fun c j hj => ?_⟩⟩
  rcases mem_body_modifyBody hj with hj | hj
  · exact h.proper c j hj
  · obtain ⟨i, hi, rfl⟩ := List.mem_map.mp hj
    split
    · exact fun r hr => ⟨(h.proper b i hi r hr).1, rfl, fun _ => trivial⟩
    · exact h.proper b i hi

theorem setIncomingAt (f : Function) (b : BlockId) (phi : ValueId) (position : Nat) (x : Operand) :
    Advances merged f (f.setIncomingAt b phi position x) := by
  refine mapBody f b fun i => ?_
  split
  · next h =>
    split
    · exact (SameKind.phi h).kindred
    · exact .refl i
  · exact .refl i

end Advances

end Function

end CheckpointRestart
