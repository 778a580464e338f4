import CheckpointRestart.Proofs.Program.Insertion

/-! # Dropping a merge

A merge into which, besides itself, only one operand flows is that operand. It can be dropped and
its uses given the operand instead: a way that lacks the operand also lacks the merge, since on the
first arrival at its block the operand flows in.
-/

namespace CheckpointRestart

section Bodies

variable {is : List Instruction} {x v : ValueId} {y : Operand} {p : BlockId}

/-- A body without the definition of `x` and with `y` in its place. -/
def collapseBody (x : ValueId) (y : Operand) (is : List Instruction) : List Instruction :=
  (is.filter (·.result ≠ some x)).map (Instruction.mapOp (Op.mapOperands (Operand.replace x y)))

theorem collapseBody_append {js : List Instruction} :
    collapseBody x y (is ++ js) = collapseBody x y is ++ collapseBody x y js := by
  simp [collapseBody]

theorem collapseBody_cons_of_ne {i : Instruction} (h : i.result ≠ some x) :
    collapseBody x y (i :: is) =
      i.mapOp (Op.mapOperands (Operand.replace x y)) :: collapseBody x y is := by
  simp [collapseBody, h]

theorem collapseBody_cons_of_eq {i : Instruction} (h : i.result = some x) :
    collapseBody x y (i :: is) = collapseBody x y is := by
  simp [collapseBody, h]

theorem mem_collapseBody_iff {i : Instruction} :
    i ∈ collapseBody x y is ↔ ∃ j ∈ is, j.result ≠ some x ∧
      j.mapOp (Op.mapOperands (Operand.replace x y)) = i := by
  simp [collapseBody, and_assoc]

theorem results_collapseBody :
    results (collapseBody x y is) = (results is).filter (· ≠ x) := by
  induction is with
  | nil => rfl
  | cons i is ih =>
    by_cases h : i.result = some x
    · rw [collapseBody_cons_of_eq h, ih]
      simp [h]
    · rw [collapseBody_cons_of_ne h, results_cons, ih, results_cons, List.filter_append]
      congr 1
      cases hr : i.result with
      | none => simp [Instruction.mapOp, hr]
      | some r =>
        have : r ≠ x := fun e => h (e ▸ hr)
        simp [Instruction.mapOp, hr, this]

theorem mem_results_collapseBody_iff (hv : v ≠ x) :
    v ∈ results (collapseBody x y is) ↔ v ∈ results is := by
  simp [results_collapseBody, hv]

/-- A use that is exposed without the merge was exposed with it, or was one of the merge. -/
theorem exposed_of_collapseBody (hv : v ≠ x) (h : Exposed v (collapseBody x y is)) :
    Exposed v is ∨ (y = .value v ∧ ∃ i ∈ is, i.op.isPhi = false ∧ x ∈ i.op.usedValues) := by
  induction is with
  | nil => exact .inl h
  | cons i is ih =>
    by_cases hi : i.result = some x
    · rw [collapseBody_cons_of_eq hi] at h
      rcases ih h with h | ⟨hy, j, hj, use⟩
      · exact .inl (.inr ⟨by simpa [hi] using Ne.symm hv, h⟩)
      · exact .inr ⟨hy, j, List.mem_cons_of_mem _ hj, use⟩
    · rw [collapseBody_cons_of_ne hi] at h
      rcases h with ⟨phi, use⟩ | ⟨hr, h⟩
      · have phi : i.op.isPhi = false := by simpa [Instruction.mapOp] using phi
        rcases Op.mem_usedValues_replace_iff.1 use with ⟨use, _⟩ | ⟨use, hy⟩
        · exact .inl (.inl ⟨phi, use⟩)
        · exact .inr ⟨hy, i, List.mem_cons_self, phi, use⟩
      · rcases ih h with h | ⟨hy, j, hj, use⟩
        · exact .inl (.inr ⟨hr, h⟩)
        · exact .inr ⟨hy, j, List.mem_cons_of_mem _ hj, use⟩

theorem exposed_of_use {i : Instruction} (hi : i ∈ is) (phi : i.op.isPhi = false)
    (use : v ∈ i.op.usedValues) (undefined : v ∉ results is) : Exposed v is := by
  induction is with
  | nil => cases hi
  | cons j is ih =>
    rw [results_cons, List.mem_append, Option.mem_toList, not_or] at undefined
    rcases List.mem_cons.mp hi with rfl | hi
    · exact .inl ⟨phi, use⟩
    · exact .inr ⟨undefined.1, ih hi undefined.2⟩

theorem takesFrom_of_collapseBody (h : TakesFrom (collapseBody x y is) v p) :
    (TakesFrom is v p ∧ v ≠ x) ∨ (y = .value v ∧ TakesFrom is x p) := by
  obtain ⟨i, hi, pairs, hop, hp⟩ := h
  obtain ⟨j, hj, _, rfl⟩ := mem_collapseBody_iff.1 hi
  cases hjop : j.op with
  | phi pairs' =>
    simp only [Instruction.mapOp, hjop, Op.mapOperands, Op.phi.injEq] at hop
    subst hop
    obtain ⟨⟨z, q⟩, hz, heq⟩ := List.mem_map.mp hp
    simp only [Prod.mk.injEq, Operand.replace] at heq
    obtain ⟨heq, rfl⟩ := heq
    split at heq
    · next hx => exact .inr ⟨heq, j, hj, pairs', hjop, hx ▸ hz⟩
    · next hx =>
      exact .inl ⟨⟨j, hj, pairs', hjop, heq ▸ hz⟩, fun e => hx (heq.trans (congrArg _ e))⟩
  | _ => simp [Instruction.mapOp, hjop, Op.mapOperands] at hop

end Bodies

namespace Function

variable {f f' : Function} {x v : ValueId} {y : Operand} {b m : BlockId}

/-! ## Erasing a definition -/

theorem eraseIdx_eq_filter {is : List Instruction} {n : Nat} (nodup : (results is).Nodup)
    (hn : position? is x = some n) : is.eraseIdx n = is.filter (·.result ≠ some x) := by
  induction is generalizing n with
  | nil => cases hn
  | cons i is ih =>
    rw [results_cons, List.nodup_append] at nodup
    by_cases h : i.result = some x
    · have : n = 0 := by simpa [position?, List.findIdx?_cons, h, eq_comm] using hn
      subst this
      have others : ∀ j ∈ is, j.result ≠ some x := fun j hj e =>
        nodup.2.2 x (by simp [h]) x (mem_results_iff.2 ⟨j, hj, e⟩) rfl
      simpa [h] using (List.filter_eq_self.mpr (by simpa using others)).symm
    · obtain ⟨k, hk, rfl⟩ : ∃ k, position? is x = some k ∧ k + 1 = n := by
        simpa [position?, List.findIdx?_cons, h] using hn
      simpa [h] using ih nodup.2.1 hk

theorem position?_isSome_iff {is : List Instruction} :
    (position? is x).isSome = true ↔ x ∈ results is := by
  rw [position?, List.findIdx?_isSome, List.any_eq_true, mem_results_iff]
  simp

theorem body_eraseDefinition (co : f.Coherent) (shaped : f.Shaped) :
    (f.eraseDefinition x).2.body b = (f.body b).filter (·.result ≠ some x) := by
  have keep : ∀ c, x ∉ results (f.body c) → f.body c = (f.body c).filter (·.result ≠ some x) := by
    intro c hc
    refine (List.filter_eq_self.mpr fun i hi => ?_).symm
    simpa using fun e => hc (mem_results_iff.2 ⟨i, hi, e⟩)
  unfold eraseDefinition
  split
  · next none =>
    refine keep b fun hb => ?_
    by_cases mem : b ∈ f.layout
    · have lt := (co.mem_layout b).mp mem
      rw [Array.findIdx?_eq_none_iff] at none
      have := none f.blocks[b.index] (Array.getElem_mem lt)
      rw [← Bool.not_eq_true, position?_isSome_iff] at this
      simp [body, block, Array.getD, lt] at hb
      exact this hb
    · rw [co.body_eq_nil mem] at hb
      cases hb
  · next n found =>
    obtain ⟨lt, here, _⟩ := Array.findIdx?_eq_some_iff_getElem.mp found
    have mem : (⟨n⟩ : BlockId) ∈ f.layout := (co.mem_layout ⟨n⟩).mpr lt
    have in_n : x ∈ results (f.body ⟨n⟩) := by
      rw [position?_isSome_iff] at here
      simpa [body, block, Array.getD, lt] using here
    obtain ⟨p, hp⟩ := Option.isSome_iff_exists.mp (position?_isSome_iff.2 in_n)
    simp only [hp]
    rw [setBody, co.body_modifyBody mem]
    split
    · next hb =>
      subst hb
      exact eraseIdx_eq_filter (((nodup_defined_iff co.nodup).mp shaped.once).1 _ mem) hp
    · next hb =>
      refine keep b fun hx => hb ?_
      by_cases hbl : b ∈ f.layout
      · exact shaped.defining_block hbl hx mem in_n
      · rw [co.body_eq_nil hbl] at hx
        cases hx

theorem eraseDefinition_frame :
    (f.eraseDefinition x).2.layout = f.layout ∧ (f.eraseDefinition x).2.params = f.params ∧
      (f.eraseDefinition x).2.values = f.values ∧
      (f.eraseDefinition x).2.blocks.size = f.blocks.size := by
  unfold eraseDefinition
  split
  · exact ⟨rfl, rfl, rfl, rfl⟩
  · dsimp only
    split
    · exact ⟨rfl, rfl, rfl, rfl⟩
    · exact ⟨rfl, rfl, rfl, size_blocks_modifyBody⟩

/-! ## The collapsed function -/

/-- `f'` is `f` without the definition of `x`, and with `y` in place of `x`. -/
structure Collapsed (f f' : Function) (x : ValueId) (y : Operand) : Prop where
  layout : f'.layout = f.layout
  params : f'.params = f.params
  values : f'.values = f.values
  coherent : f'.Coherent
  body : ∀ b, f'.body b = collapseBody x y (f.body b)

theorem Coherent.collapsed (co : f.Coherent) (shaped : f.Shaped) (x : ValueId) (y : Operand) :
    Collapsed f ((f.eraseDefinition x).2.replaceUses x y) x y := by
  obtain ⟨layout, params, values, size⟩ := f.eraseDefinition_frame (x := x)
  refine ⟨layout, params, values, Coherent.mapInstructions ?_, fun b => ?_⟩
  · exact ⟨fun b => by rw [layout, size, co.mem_layout], layout ▸ co.nodup,
      params ▸ values ▸ co.params⟩
  · rw [replaceUses, body_mapInstructions, body_eraseDefinition co shaped, collapseBody]

/-- `x` merges `y`, and otherwise nothing but itself. -/
structure MergesOnly (f : Function) (m : BlockId) (x : ValueId) (y : Operand) : Prop where
  mem : m ∈ f.layout
  phi : ∃ i ∈ f.body m, i.result = some x ∧ ∃ pairs, i.op = .phi pairs ∧
    (∃ p, (y, p) ∈ pairs) ∧ ∀ z p, (z, p) ∈ pairs → z = .value x ∨ z = y
  other : y ≠ .value x

theorem MergesOnly.mem_results (h : f.MergesOnly m x y) : x ∈ results (f.body m) := by
  obtain ⟨i, hi, hr, _⟩ := h.phi
  exact mem_results_iff.2 ⟨i, hi, hr⟩

/-- A way that lacks the operand lacks the merge, and has not come to it. -/
theorem MergesOnly.lacks {w : ValueId} (h : f.MergesOnly m x (.value w)) (wf : f.WellFormed)
    (strict : f.Strict) (given : w ∉ f.params) (lacks : f.Lacks w b) : f.Lacks x b ∧ b ≠ m := by
  have defined := h.mem_results
  have not_param : x ∉ f.params := wf.params x (mem_defined_iff.2 ⟨m, h.mem, defined⟩)
  obtain ⟨i, hi, hr, pairs, hop, -, only⟩ := h.phi
  induction lacks with
  | entry =>
    refine ⟨.entry, fun e => ?_⟩
    -- the entry has no predecessors, so nothing flows into its merges
    obtain ⟨j, hj, _, pairs', hop', ⟨p, hp⟩, -⟩ := h.phi
    have pred := (wf.merges m h.mem j hj pairs' hop').mem_iff.mp (List.mem_map.mpr ⟨_, hp, rfl⟩)
    rw [← e, wf.entry_free] at pred
    cases pred
  | @step p b way undefined edge ih =>
    have undefined_x : x ∉ results (f.body p) :=
      fun hx => ih.2 (wf.defining_block (way.mem_layout wf.toShaped) hx h.mem defined)
    refine ⟨.step ih.1 undefined_x edge, ?_⟩
    rintro rfl
    have pred : p ∈ f.predecessors b :=
      mem_predecessors_iff.2 ⟨way.mem_layout wf.toShaped, edge⟩
    obtain ⟨⟨z, q⟩, hz, rfl⟩ := List.mem_map.mp ((wf.merges b h.mem i hi pairs hop).mem_iff.mpr pred)
    rcases only z q hz with rfl | rfl
    · exact not_param (strict.incoming b h.mem x q ⟨i, hi, pairs, hop, hz⟩ ih.1 undefined_x)
    · exact given (strict.incoming b h.mem w q ⟨i, hi, pairs, hop, hz⟩ way undefined)

namespace Collapsed

theorem entry (h : Collapsed f f' x y) : f'.entry = f.entry := by
  rw [Function.entry, h.layout, Function.entry]

theorem valueType (h : Collapsed f f' x y) : f'.valueType v = f.valueType v := by
  rw [Function.valueType, valueInfo, h.values, Function.valueType, valueInfo]

theorem body_eq_concat (h : Collapsed f f' x y) (only : f.MergesOnly m x y) (shaped : f.Shaped)
    (hb : b ∈ f.layout) : ∃ is t, f.body b = is ++ [t] ∧ t.op.isTerminator = true ∧
      (∀ i ∈ is, i.op.isTerminator = false) ∧
      f'.body b = collapseBody x y is ++ [t.mapOp (Op.mapOperands (Operand.replace x y))] := by
  obtain ⟨is, t, hbody, ht, inner⟩ := terminated_iff.1 (shaped.terminated b hb)
  refine ⟨is, t, hbody, ht, inner, ?_⟩
  have ne : t.result ≠ some x := by
    intro hr
    obtain ⟨i, hi, hir, pairs, hop, _⟩ := only.phi
    obtain ⟨n, hn⟩ := List.getElem?_of_mem hi
    have at_i : f.DefinedAt x ⟨m, n⟩ := ⟨only.mem, i, hn, hir⟩
    have at_t : f.DefinedAt x ⟨b, is.length⟩ := ⟨hb, t, by rw [hbody]; simp, hr⟩
    cases at_i.unique shaped at_t
    rw [hbody] at hn
    have : t = i := by simpa using hn
    rw [this, hop] at ht
    cases ht
  rw [h.body, hbody, collapseBody_append, collapseBody_cons_of_ne ne]
  rfl

theorem successors (h : Collapsed f f' x y) (only : f.MergesOnly m x y) (shaped : f.Shaped)
    (hb : b ∈ f.layout) : f'.successors b = f.successors b := by
  obtain ⟨is, t, hbody, ht, -, hbody'⟩ := h.body_eq_concat only shaped hb
  have ht' : (t.mapOp (Op.mapOperands (Operand.replace x y))).op.isTerminator = true := by
    simpa [Instruction.mapOp] using ht
  rw [successors_eq, successors_eq, hbody, hbody', targetsOf_concat ht, targetsOf_concat ht']
  simp [Instruction.mapOp]

theorem lacks (h : Collapsed f f' x y) (only : f.MergesOnly m x y) (shaped : f.Shaped)
    (hv : v ≠ x) (lacks : f'.Lacks v b) : f.Lacks v b := by
  induction lacks with
  | entry => exact h.entry ▸ .entry
  | step way undefined edge ih =>
    rw [h.body, mem_results_collapseBody_iff hv] at undefined
    rw [h.successors only shaped (ih.mem_layout shaped)] at edge
    exact .step ih undefined edge

theorem not_mem_results (h : Collapsed f f' x y) : x ∉ results (f'.body b) := by
  simp [h.body, results_collapseBody]

theorem mem_results_iff (h : Collapsed f f' x y) :
    v ∈ results (f'.body b) ↔ v ∈ results (f.body b) ∧ v ≠ x := by
  simp [h.body, results_collapseBody]

theorem wellFormed (h : Collapsed f f' x y) (only : f.MergesOnly m x y) (co : f.Coherent)
    (wf : f.WellFormed) : f'.WellFormed where
  nonempty := h.layout ▸ wf.nonempty
  entry_free := by
    rw [h.entry, predecessors_congr h.layout fun p hp => h.successors only wf.toShaped hp,
      wf.entry_free]
  terminated := by
    intro b hb
    obtain ⟨is, t, -, ht, inner, hbody⟩ := h.body_eq_concat only wf.toShaped (h.layout ▸ hb)
    refine terminated_iff.2 ⟨_, _, hbody, by simpa [Instruction.mapOp] using ht, fun i hi => ?_⟩
    obtain ⟨j, hj, _, rfl⟩ := mem_collapseBody_iff.1 hi
    simpa [Instruction.mapOp] using inner j hj
  phisLead := by
    intro b hb
    have lead := wf.phisLead b (h.layout ▸ hb)
    have split : (f.body b).takeWhile (·.op.isPhi) ++ (f.body b).dropWhile (·.op.isPhi) = f.body b :=
      List.takeWhile_append_dropWhile
    rw [h.body, ← split, collapseBody_append]
    refine phisLead_append (fun i hi => ?_) fun i hi => ?_
    · obtain ⟨j, hj, _, rfl⟩ := mem_collapseBody_iff.1 hi
      simpa [Instruction.mapOp] using isPhi_of_mem_takeWhile hj
    · obtain ⟨j, hj, _, rfl⟩ := mem_collapseBody_iff.1 hi
      simpa [Instruction.mapOp] using lead j hj
  fits := by
    intro b hb i hi
    rw [h.body] at hi
    obtain ⟨j, hj, _, rfl⟩ := mem_collapseBody_iff.1 hi
    have fits := wf.fits b (h.layout ▸ hb) j hj
    refine ⟨fun v hv => ?_, fun t ht => ?_, fun v hv => ?_, fun hr => ?_⟩
    · rw [h.values]
      rcases Op.mem_usedValues_replace_iff.1 hv with ⟨hv, _⟩ | ⟨_, rfl⟩
      · exact fits.operands v hv
      · -- the operand is used by the merge itself
        obtain ⟨k, hk, _, pairs, hop, ⟨p, hp⟩, _⟩ := only.phi
        refine (wf.fits m only.mem k hk).operands v (Op.mem_usedValues_iff.2 ?_)
        rw [hop]
        exact List.mem_map.mpr ⟨_, hp, rfl⟩
    · rw [h.layout]
      exact fits.targets t (by simpa [Instruction.mapOp] using ht)
    · rw [h.valueType]
      exact fits.typed v hv
    · simpa [Instruction.mapOp] using fits.produces hr
  once := by
    rw [nodup_defined_iff (h.layout ▸ co.nodup), h.layout]
    obtain ⟨each, apart⟩ := (nodup_defined_iff co.nodup).mp wf.once
    refine ⟨fun b hb => ?_, fun b hb c hc v hvb hvc => ?_⟩
    · rw [h.body, results_collapseBody]
      exact (each b hb).filter _
    · exact apart b hb c hc v (h.mem_results_iff.1 hvb).1 (h.mem_results_iff.1 hvc).1
  params := by
    intro v hv
    obtain ⟨b, hb, hv⟩ := mem_defined_iff.1 hv
    rw [h.params]
    exact wf.params v (mem_defined_iff.2 ⟨b, h.layout ▸ hb, (h.mem_results_iff.1 hv).1⟩)
  merges := by
    intro b hb i hi pairs hop
    rw [h.body] at hi
    obtain ⟨j, hj, _, rfl⟩ := mem_collapseBody_iff.1 hi
    rw [predecessors_congr h.layout fun p hp => h.successors only wf.toShaped hp]
    cases hjop : j.op with
    | phi pairs' =>
      simp only [Instruction.mapOp, hjop, Op.mapOperands, Op.phi.injEq] at hop
      subst hop
      simpa [Function.comp_def] using wf.merges b (h.layout ▸ hb) j hj pairs' hjop
    | _ => simp [Instruction.mapOp, hjop, Op.mapOperands] at hop

theorem strict (h : Collapsed f f' x y) (only : f.MergesOnly m x y) (wf : f.WellFormed)
    (strict : f.Strict) : f'.Strict := by
  have not_param : x ∉ f.params :=
    wf.params x (mem_defined_iff.2 ⟨m, only.mem, only.mem_results⟩)
  have unused : ∀ {b v} {i : Instruction}, i ∈ f'.body b → v ∈ i.op.usedValues → v ≠ x := by
    intro b v i hi hv
    rw [h.body] at hi
    obtain ⟨j, hj, _, rfl⟩ := mem_collapseBody_iff.1 hi
    rcases Op.mem_usedValues_replace_iff.1 hv with ⟨_, ne⟩ | ⟨_, hy⟩
    · exact ne
    · exact fun e => only.other (hy.trans (congrArg _ e))
  constructor
  · intro b v exposed lacks
    obtain ⟨i, hi, use⟩ := exposed.exists_use
    have hv := unused hi use
    have lacks := h.lacks only wf.toShaped hv lacks
    rw [h.params]
    rw [h.body] at exposed
    rcases exposed_of_collapseBody hv exposed with exposed | ⟨rfl, j, hj, phi, use⟩
    · exact strict.operands b v exposed lacks
    · by_contra given
      obtain ⟨lacks_x, ne⟩ := only.lacks wf strict given lacks
      have undefined : x ∉ results (f.body b) := fun hx =>
        ne (wf.defining_block (lacks.mem_layout wf.toShaped) hx only.mem only.mem_results)
      exact not_param (strict.operands b x (exposed_of_use hj phi use undefined) lacks_x)
  · intro b hb v p takes lacks undefined
    obtain ⟨i, hi, pairs, hop, hp⟩ := id takes
    have use : v ∈ i.op.usedValues := by
      rw [Op.mem_usedValues_iff, hop]
      exact List.mem_map.mpr ⟨_, hp, rfl⟩
    have hv := unused hi use
    have lacks := h.lacks only wf.toShaped hv lacks
    have undefined : v ∉ results (f.body p) := fun h' => undefined (h.mem_results_iff.2 ⟨h', hv⟩)
    rw [h.params]
    rw [h.body] at takes
    rw [h.layout] at hb
    rcases takesFrom_of_collapseBody takes with ⟨takes, _⟩ | ⟨rfl, takes_x⟩
    · exact strict.incoming b hb v p takes lacks undefined
    · by_contra given
      obtain ⟨lacks_x, ne⟩ := only.lacks wf strict given lacks
      have undefined_x : x ∉ results (f.body p) := fun hx =>
        ne (wf.defining_block (lacks.mem_layout wf.toShaped) hx only.mem only.mem_results)
      exact not_param (strict.incoming b hb x p takes_x lacks_x undefined_x)

end Collapsed

end Function

end CheckpointRestart
