import CheckpointRestart.Proofs.Instrument.Insertion
import CheckpointRestart.Proofs.Instrument.Redundancy

/-! # The merges of the repair

The repair adds merges of restored values with the values they stand for, and sets what flows into
them at the end. Every operand that comes to flow into such a merge has its type, so each of the
merges added may be dropped once it is redundant.
-/

namespace CheckpointRestart

open CheckpointRestart.Function

namespace Function

variable {f f' : Function} {k : Nat} {b c : BlockId} {v w : ValueId}

/-- An operand that is a constant or a value of `f`, and has the type of `v`. -/
def Suits (f : Function) (v : ValueId) (x : Operand) : Prop :=
  (∀ w, x = .value w → w.index < f.values.size) ∧ f.operandType x = f.valueType v

/-- What defines one of the values from the `k`th on has only operands that go with it. -/
def Matching (goes : ValueId → Operand → Prop) (k : Nat) (f : Function) : Prop :=
  ∀ b, ∀ i ∈ f.body b, ∀ m, i.result = some m → k ≤ m.index → ∀ x ∈ i.op.operands, goes m x

theorem Suits.advances {merged : ValueId → Prop} {x : Operand} (h : f.Suits v x)
    (lt : v.index < f.values.size) (step : Advances merged f f') : f'.Suits v x :=
  ⟨fun w hw => (h.1 w hw).trans_le step.size, by
    rw [step.operandType h.1, step.types v lt, h.2]⟩

/-- The instruction with `m` in place of `v`, unless it is a merge. -/
def through (v m : ValueId) (i : Instruction) : Instruction :=
  if i.op.isPhi then i else i.mapOp (Op.mapOperands (Operand.replace v (.value m)))

theorem sameKind_through {m : ValueId} (i : Instruction) : SameKind i (through v m i) := by
  unfold through
  split
  · exact .refl i
  · exact .mapOperands _ i

/-- The merge of `v` from all predecessors. -/
def mergeOf (v m : ValueId) (preds : List BlockId) : Instruction :=
  .define m (.phi (preds.map fun p => (.value v, p)))

/-- `f'` is `f` with a merge `m` of `v` at the start of `b`, which the uses in `b` go through. -/
structure AddsMerge (f f' : Function) (b : BlockId) (v m : ValueId) (preds : List BlockId) :
    Prop where
  new : m = ⟨f.values.size⟩
  size : f'.values.size = f.values.size + 1
  type : f'.valueType m = f.valueType v
  layout : f'.layout = f.layout
  advances : ∀ merged : ValueId → Prop, merged m → Advances merged f f'
  body : ∀ c, f'.body c =
    if c = b then mergeOf v m preds :: (f.body b).map (through v m) else f.body c

namespace AddsMerge

variable {m : ValueId} {preds : List BlockId} (h : AddsMerge f f' b v m preds)

include h

theorem results_subset (hv : w ∈ results (f.body c)) : w ∈ results (f'.body c) := by
  rw [h.body]
  split
  · next e =>
    rw [results_cons, results_map fun i _ => sameKind_through i, List.mem_append]
    exact .inr (e ▸ hv)
  · exact hv

theorem mem_results : m ∈ results (f'.body b) := by
  rw [h.body, if_pos rfl]
  simp [mergeOf, Instruction.define]

theorem index_lt : m.index < f'.values.size := by
  rw [h.new, h.size]
  exact Nat.lt_succ_self _

theorem matching {goes goes' : ValueId → Operand → Prop} (matching : f.Matching goes k)
    (keeps : ∀ c, ∀ i ∈ f.body c, ∀ z, i.result = some z → ∀ x, goes z x → goes' z x)
    (self : goes' m (.value v)) (instead : ∀ z, goes' z (.value v) → goes' z (.value m)) :
    f'.Matching goes' k := by
  intro c j hj z hz new x hx
  rw [h.body] at hj
  split at hj
  · rcases List.mem_cons.mp hj with rfl | hj
    · cases hz
      obtain ⟨pair, hp, rfl⟩ := List.mem_map.mp hx
      obtain ⟨p, -, rfl⟩ := List.mem_map.mp hp
      exact self
    · obtain ⟨i, hi, rfl⟩ := List.mem_map.mp hj
      have hz : i.result = some z := (sameKind_through i).result ▸ hz
      have old : ∀ x ∈ i.op.operands, goes' z x := fun x hx =>
        keeps b i hi z hz x (matching b i hi z hz new x hx)
      unfold through at hx
      split at hx
      · exact old x hx
      · rw [Instruction.mapOp, Op.operands_mapOperands] at hx
        obtain ⟨y, hy, rfl⟩ := List.mem_map.mp hx
        unfold Operand.replace
        split
        · next e => exact instead z (e ▸ old y hy)
        · exact old y hy
  · exact keeps c j hj z hz x (matching c j hj z hz new x hx)

end AddsMerge

end Function

namespace Repair

variable {old : ValueId → Prop} {k : Nat} {layout : List BlockId} {r : Repair} {b : BlockId}
  {v : ValueId} {preds : List BlockId}

theorem addsMerge (co : r.function.Coherent) (hb : b ∈ r.function.layout) :
    AddsMerge r.function (r.addMerge b v preds).function b v ⟨r.function.values.size⟩ preds := by
  let f := r.function
  let m : ValueId := ⟨f.values.size⟩
  let f₁ := (f.newValue (f.valueName v ++ ".cr") (f.valueType v)).2
  have co₁ : f₁.Coherent := co.newValue
  have body : ∀ c, (r.addMerge b v preds).function.body c =
      if c = b then mergeOf v m preds :: (f.body b).map (through v m) else f.body c := by
    intro c
    have at₂ : ∀ c, (f₁.replaceUsesIn b v (.value m)).body c =
        if c = b then (f.body b).map (through v m) else f.body c := fun c => co₁.body_modifyBody hb
    have at₃ : (r.addMerge b v preds).function.body c =
        if c = b then mergeOf v m preds :: (f₁.replaceUsesIn b v (.value m)).body b
        else (f₁.replaceUsesIn b v (.value m)).body c := co₁.modifyBody.body_modifyBody hb
    rw [at₃, at₂, at₂, if_pos rfl]
    split <;> simp_all
  have size : (r.addMerge b v preds).function.values.size = f.values.size + 1 := size_values_newValue
  refine ⟨rfl, size, valueType_newValue_self, rfl, fun merged hm => ?_, body⟩
  refine ((Advances.newValue f _ _).trans (.replaceUsesIn _ b v (.value m))).trans
    (.insertFront b (.define ?_ rfl fun _ => hm))
  rw [replaceUsesIn, values_modifyBody, size_values_newValue]
  exact Nat.lt_succ_self _

theorem mapping_addMerge {c : BlockId} {map : Std.ExtTreeMap ValueId Operand} {w : ValueId} {y : Operand}
    (hc : (r.addMerge b v preds).mapping[c]? = some map) (hy : map[w]? = some y) :
    (w = v ∧ y = .value ⟨r.function.values.size⟩) ∨
      ∃ (c : BlockId) (m : Std.ExtTreeMap ValueId Operand), r.mapping[c]? = some m ∧ m[w]? = some y := by
  let m : ValueId := ⟨r.function.values.size⟩
  have hc : (r.mapping.insert b ((r.mapping.getD b ∅).insert v (.value m)))[c]? = some map := hc
  rw [TreeMap.getElem?_insert_iff] at hc
  split at hc
  · cases hc
    rw [TreeMap.getElem?_insert_iff] at hy
    split at hy
    · next e => exact .inl ⟨e, (Option.some.inj hy).symm⟩
    · rw [Std.ExtTreeMap.getD_eq_getD_getElem?] at hy
      cases hm : r.mapping[b]? with
      | none =>
        rw [hm] at hy
        simp at hy
      | some m' =>
        rw [hm] at hy
        exact .inr ⟨b, m', hm, hy⟩
  · exact .inr ⟨c, map, hc, hy⟩

/-- Whatever holds at the start and is kept by each merge, new or old, holds once all blocks are
dealt with. -/
theorem merging_induction (inv : Repair → Prop) {values : ValueSet} (live : Liveness) (start : inv r)
    (uses : ∀ b v source r, v ∈ values → inv r →
      inv { r with incoming := r.incoming ++ r.mergeUses b v source })
    (merge : ∀ b ∈ layout, ∀ v preds r, v ∈ values → inv r → inv (r.addMerge b v preds)) :
    inv (layout.foldl (Repair.block values live) r) := by
  refine List.foldlRecOn layout _ start fun r h b hb => ?_
  unfold Repair.block
  dsimp only
  split
  · exact h
  · refine List.foldlRecOn (motive := inv) _ _ h fun r h u _ => ?_
    split
    · next hu =>
      have hu : u.value ∈ values := by simpa using hu
      split
      · exact uses b u.value _ r hu h
      · exact merge b hb u.value _ r hu h
    · exact h

/-- What an open incoming value is set to. -/
def flowing (r : Repair) (o : OpenIncoming) : Operand :=
  match r.mapping[o.source]? with
  | some m => m.getD o.value (.value o.value)
  | none => .value o.value

theorem flowing_cases (r : Repair) (o : OpenIncoming) : r.flowing o = .value o.value ∨
    ∃ m, r.mapping[o.source]? = some m ∧ m[o.value]? = some (r.flowing o) := by
  unfold flowing
  split
  · next m hm =>
    rw [Std.ExtTreeMap.getD_eq_getD_getElem?]
    cases hy : m[o.value]? with
    | none => exact .inl rfl
    | some y => exact .inr ⟨m, hm, hy⟩
  · exact .inl rfl

theorem connect_induction (r : Repair) (inv : Function → Prop) (start : inv r.function)
    (step : ∀ o ∈ r.incoming, ∀ f, f.values = r.function.values → inv f →
      inv (f.setIncomingAt o.block o.phi o.position (r.flowing o))) : inv r.connect := by
  have all : r.connect.values = r.function.values ∧ inv r.connect := by
    refine List.foldlRecOn (motive := fun f => f.values = r.function.values ∧ inv f) r.incoming _
      ⟨rfl, start⟩ fun f h o ho => ?_
    exact ⟨h.1, step o ho f h.1 h.2⟩
  exact all.2

/-- What is known while merges are added. The values merged are `old` ones or have been added; the
values from the `k`th on have been added. -/
structure Within (old : ValueId → Prop) (k : Nat) (layout : List BlockId) (r : Repair) : Prop where
  regular : r.function.Regular fun v => old v ∨ v ∈ r.added.map (·.2)
  layout : r.function.layout = layout
  size : k ≤ r.function.values.size
  added : ∀ m ∈ r.added, k ≤ m.2.index ∧ m.2 ∈ results (r.function.body m.1)
  mapping : ∀ (b : BlockId) m, r.mapping[b]? = some m → Restoring r.function m
  incoming : ∀ o ∈ r.incoming, k ≤ o.phi.index → o.value.index < r.function.values.size ∧
    o.phi.index < r.function.values.size ∧
    r.function.valueType o.phi = r.function.valueType o.value
  typed : r.function.Matching r.function.Suits k

namespace Within

theorem addMerge (h : r.Within old k layout) (hb : b ∈ layout)
    (lt : v.index < r.function.values.size) : (r.addMerge b v preds).Within old k layout := by
  have adds : AddsMerge r.function (r.addMerge b v preds).function b v _ preds :=
    addsMerge h.regular.coherent (h.layout ▸ hb)
  let m : ValueId := ⟨r.function.values.size⟩
  have added : (r.addMerge b v preds).added = r.added ++ [(b, m)] := rfl
  let merged : ValueId → Prop := fun w => old w ∨ w ∈ (r.addMerge b v preds).added.map (·.2)
  have regular : r.function.Regular merged := h.regular.mono fun w _ hw => by
    refine hw.imp_right fun hw => ?_
    rw [added, List.map_append]
    exact List.mem_append_left _ hw
  have step : Advances merged r.function (r.addMerge b v preds).function :=
    adds.advances merged (.inr (by simp [added, m]))
  have lt_m : m.index < (r.addMerge b v preds).function.values.size := adds.index_lt
  have same : (r.addMerge b v preds).function.valueType m =
      (r.addMerge b v preds).function.valueType v := by
    rw [step.types v lt]
    exact adds.type
  refine ⟨step.regular regular, adds.layout.trans h.layout, h.size.trans step.size, fun z hz => ?_,
    fun c map hc => ?_, fun o ho new => ?_, ?_⟩
  · rw [added, List.mem_append, List.mem_singleton] at hz
    rcases hz with hz | rfl
    · exact ⟨(h.added z hz).1, adds.results_subset (h.added z hz).2⟩
    · exact ⟨h.size, adds.mem_results⟩
  · intro w y hy
    rcases mapping_addMerge hc hy with ⟨rfl, rfl⟩ | ⟨c, m, hm, hy⟩
    · exact ⟨lt.trans_le step.size, m, rfl, lt_m, same⟩
    · exact (h.mapping c m hm).advances step w y hy
  · have ho : o ∈ r.incoming ++ preds.zipIdx.map fun z => ⟨b, m, z.2, z.1, v⟩ := ho
    rcases List.mem_append.mp ho with ho | ho
    · obtain ⟨ltv, ltp, e⟩ := h.incoming o ho new
      exact ⟨ltv.trans_le step.size, ltp.trans_le step.size, by
        rw [step.types _ ltp, step.types _ ltv, e]⟩
    · obtain ⟨z, -, rfl⟩ := List.mem_map.mp ho
      exact ⟨lt.trans_le step.size, lt_m, same⟩
  · refine adds.matching h.typed
      (fun c i hi z hz x suits => suits.advances (h.regular.proper c i hi z hz).1 step) ⟨?_, same.symm⟩
      fun z suits => ⟨?_, same.trans suits.2⟩
    · rintro w ⟨⟩
      exact lt.trans_le step.size
    · rintro w ⟨⟩
      exact lt_m

theorem of_mem_mergeUses (h : r.Within old k layout) (lt_old : ∀ v, old v → v.index < k)
    {source : BlockId} {o : OpenIncoming} (ho : o ∈ r.mergeUses b v source) :
    o.value = v ∧ o.phi.index < k := by
  obtain ⟨i, hi, ho⟩ := List.mem_flatMap.mp ho
  split at ho
  · next phi incoming hr hop =>
    split at ho
    · cases ho
    · next fresh =>
      obtain ⟨⟨⟨x, p⟩, position⟩, -, ho⟩ := List.mem_filterMap.mp ho
      obtain ⟨-, e⟩ := Option.ite_none_right_eq_some.mp ho
      cases e
      have proper := h.regular.proper b i ((List.takeWhile_sublist _).subset hi) phi hr
      rcases proper.2.2 (by rw [hop]; rfl) with was | added
      · exact ⟨rfl, lt_old phi was⟩
      · obtain ⟨z, hz, rfl⟩ := List.mem_map.mp added
        exact absurd (List.any_eq_true.mpr ⟨z, hz, by simp⟩) fresh
  · cases ho

theorem mergeUses (h : r.Within old k layout) (lt_old : ∀ v, old v → v.index < k) (source : BlockId) :
    Within old k layout { r with incoming := r.incoming ++ r.mergeUses b v source } := by
  refine { h with incoming := fun o ho new => ?_ }
  rcases List.mem_append.mp ho with ho | ho
  · exact h.incoming o ho new
  · exact absurd (h.of_mem_mergeUses lt_old ho).2 (Nat.not_lt.mpr new)

/-- What flows into a merge has its type, as far as it is followed. -/
theorem suits_flowing (h : r.Within old k layout) {o : OpenIncoming} (ho : o ∈ r.incoming)
    (new : k ≤ o.phi.index) : r.function.Suits o.phi (r.flowing o) := by
  obtain ⟨lt, -, same⟩ := h.incoming o ho new
  rcases r.flowing_cases o with e | ⟨m, hm, hy⟩
  · rw [e]
    exact ⟨fun w hw => by cases hw; exact lt, same.symm⟩
  · obtain ⟨-, w, e, ltw, e'⟩ := h.mapping _ m hm o.value _ hy
    rw [e]
    exact ⟨fun w' hw => by cases hw; exact ltw, e'.trans same.symm⟩

end Within

end Repair

namespace Function

variable {f : Function} {k position : Nat} {b c : BlockId} {m : ValueId} {x : Operand}

/-- The instruction with an incoming value set, if it is the merge `m`. -/
def setAt (m : ValueId) (position : Nat) (x : Operand) (i : Instruction) : Instruction :=
  match i.result, i.op with
  | some v, .phi incoming =>
    if v = m then { i with op := .phi (incoming.modify position fun (_, p) => (x, p)) } else i
  | _, _ => i

theorem sameKind_setAt (i : Instruction) : SameKind i (setAt m position x i) := by
  unfold setAt
  split
  · next h =>
    split
    · exact .phi h
    · exact .refl i
  · exact .refl i

theorem mem_operands_setAt {i : Instruction} {y : Operand} (hy : y ∈ (setAt m position x i).op.operands) :
    y ∈ i.op.operands ∨ (i.result = some m ∧ y = x) := by
  unfold setAt at hy
  split at hy
  · next v incoming hr hop =>
    split at hy
    · next e =>
      obtain ⟨z, hz, rfl⟩ := List.mem_map.mp hy
      obtain ⟨n, hn⟩ := List.getElem?_of_mem hz
      rw [List.getElem?_modify] at hn
      obtain ⟨z', hz', e'⟩ := Option.map_eq_some_iff.mp hn
      split at e'
      · subst e'
        exact .inr ⟨e ▸ hr, rfl⟩
      · subst e'
        rw [hop]
        exact .inl (List.mem_map_of_mem (List.mem_of_getElem? hz'))
    · exact .inl hy
  · exact .inl hy

theorem Matching.setIncomingAt {goes : ValueId → Operand → Prop} (h : f.Matching goes k)
    (flows : k ≤ m.index → goes m x) : (f.setIncomingAt b m position x).Matching goes k := by
  intro c j hj z hz new y hy
  rcases mem_body_modifyBody hj with hj | hj
  · exact h c j hj z hz new y hy
  · have hj : j ∈ (f.body b).map (setAt m position x) := hj
    obtain ⟨i, hi, rfl⟩ := List.mem_map.mp hj
    rw [(sameKind_setAt i).result] at hz
    rcases mem_operands_setAt hy with hy | ⟨hr, e⟩
    · exact h b i hi z hz new y hy
    · obtain rfl : z = m := Option.some.inj (hz.symm.trans hr)
      exact e ▸ flows new

theorem results_setIncomingAt : results ((f.setIncomingAt b m position x).body c) = results (f.body c) :=
  (relabelled_modifyBody fun i _ => sameKind_setAt i).results_body

end Function

/-! ## The whole repair -/

namespace Repair

variable {old : ValueId → Prop} {k : Nat} {layout : List BlockId} {r : Repair}

/-- What is known of the function with all its merges set. -/
structure Connected (old : ValueId → Prop) (k : Nat) (added : List (BlockId × ValueId)) (f : Function) : Prop where
  regular : f.Regular fun v => old v ∨ v ∈ added.map (·.2)
  added : ∀ m ∈ added, k ≤ m.2.index ∧ m.2 ∈ results (f.body m.1)
  typed : f.Matching f.Suits k

theorem Within.connect (h : r.Within old k layout) : Connected old k r.added r.connect := by
  refine r.connect_induction (Connected old k r.added) ⟨h.regular, h.added, h.typed⟩
    fun o ho f values c => ⟨(Advances.setIncomingAt f _ _ _ _).regular c.regular, fun m hm => ?_, ?_⟩
  · rw [results_setIncomingAt]
    exact c.added m hm
  · refine c.typed.setIncomingAt fun new => ?_
    have suits := h.suits_flowing ho new
    unfold Suits operandType valueType valueInfo at suits ⊢
    rwa [values]

theorem Connected.droppable {added : List (BlockId × ValueId)} {f : Function}
    (h : Connected old k added f) (wf : f.WellFormed) {m : BlockId × ValueId} (hm : m ∈ added) :
    f.Droppable m := by
  obtain ⟨new, defined⟩ := h.added m hm
  obtain ⟨i, hi, hr⟩ := mem_results_iff.1 defined
  have mem := h.regular.coherent.mem_layout_of_mem_body hi
  exact ⟨mem, fun d hd hv => wf.toShaped.defining_block hd hv mem defined,
    fun d j hj hr z hz => (h.typed d j hj m.2 hr new z hz).2⟩

end Repair

/-- The values that are restored somewhere. -/
def Redefinitions.values (redefined : Redefinitions) : ValueSet :=
  redefined.foldl (fun set _ m => m.foldl (fun set v _ => set.insert v) set) ∅

theorem Redefinitions.mem_values_iff {redefined : Redefinitions} {v : ValueId} :
    v ∈ redefined.values ↔ ∃ (b : BlockId) (m : Std.ExtTreeMap ValueId Operand) (y : Operand),
      redefined[b]? = some m ∧ m[v]? = some y := by
  have inner : ∀ (set : ValueSet) (m : Std.ExtTreeMap ValueId Operand),
      v ∈ m.foldl (fun set v _ => set.insert v) set ↔ v ∈ set ∨ ∃ y, m[v]? = some y := by
    intro set m
    rw [Std.ExtTreeMap.foldl_eq_foldl_toList, mem_foldl_iff (fun set : ValueSet => v ∈ set)
      (fun z : ValueId × Operand => v = z.1) fun set z => by rw [TreeSet.mem_insert_iff, or_comm]]
    simp [Std.ExtTreeMap.mem_toList_iff_getElem?_eq_some]
  have outer := mem_foldl_iff (fun set : ValueSet => v ∈ set)
    (fun z : BlockId × Std.ExtTreeMap ValueId Operand => ∃ y, z.2[v]? = some y)
    (fun set z => inner set z.2) redefined.toList ∅
  rw [values, Std.ExtTreeMap.foldl_eq_foldl_toList]
  refine outer.trans ?_
  simp [Std.ExtTreeMap.mem_toList_iff_getElem?_eq_some]

/-- What the repair does, with and without redundant merges. -/
theorem repairDominance_cases {f : Function} {old : ValueId → Prop} {redefined : Redefinitions}
    (regular : f.Regular old) (lt_old : ∀ v, old v → v.index < f.values.size)
    (restoring : ∀ (b : BlockId) m, redefined[b]? = some m → Restoring f m) :
    ∃ added, Repair.Connected old f.values.size added (f.repairDominance redefined true) ∧
      f.repairDominance redefined false =
        (f.repairDominance redefined true).dropAllRedundant (added.length + 1) added := by
  have typed : f.Matching f.Suits f.values.size := fun b i hi m hm new =>
    absurd (regular.proper b i hi m hm).1 (Nat.not_lt.mpr new)
  unfold Function.repairDominance
  dsimp only
  split
  · refine ⟨[], ⟨regular.mono fun v _ hv => .inl hv, nofun, typed⟩, ?_⟩
    simp [Function.dropAllRedundant]
  · have range : ∀ v ∈ redefined.values, v.index < f.values.size := by
      intro v hv
      obtain ⟨b, m, y, hm, hy⟩ := Redefinitions.mem_values_iff.1 hv
      exact (restoring b m hm v y hy).1
    have within : ∀ live, Repair.Within old f.values.size f.layout
        (f.layout.foldl (Repair.block redefined.values live) ⟨f, redefined, [], []⟩) := fun live =>
      Repair.merging_induction _ live
        ⟨regular.mono fun v _ hv => .inl hv, rfl, Nat.le_refl _, nofun, restoring, nofun, typed⟩
        (fun b v source r _ h => h.mergeUses lt_old source)
        fun b hb v preds r hv h => h.addMerge hb ((range v hv).trans_le h.size)
    exact ⟨_, (within _).connect, rfl⟩

end CheckpointRestart
