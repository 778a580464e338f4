import CheckpointRestart.Proofs.Program.Relabel

/-! # Cutting a block in two

A block can be cut behind its merges: the front part branches to a new block that holds the rest,
and merges take from the new block what they took from the old one. Ways through the function are
the same as before except that they go through both parts.
-/

namespace CheckpointRestart

/-- The instruction with merges taking from `new` what they took from `old`. -/
def renameIncoming (old new : BlockId) (i : Instruction) : Instruction :=
  i.mapOp (Op.mapPhiBlocks fun p => if p = old then new else p)

section Rename

variable {old new p : BlockId} {i : Instruction} {v : ValueId} {is : List Instruction}

theorem Op.mapPhiBlocks_of_not_isPhi {op : Op} {g : BlockId → BlockId} (h : op.isPhi = false) :
    op.mapPhiBlocks g = op := by
  cases op <;> first | rfl | cases h

theorem Op.operands_mapPhiBlocks {op : Op} {g : BlockId → BlockId} :
    (op.mapPhiBlocks g).operands = op.operands := by
  cases op <;> simp [mapPhiBlocks, operands]

theorem renameIncoming_of_not_isPhi (h : i.op.isPhi = false) : renameIncoming old new i = i := by
  rw [renameIncoming, Instruction.mapOp, Op.mapPhiBlocks_of_not_isPhi h]

theorem renameIncoming_phi {r : Option ValueId} {pairs : List (Operand × BlockId)} :
    renameIncoming old new ⟨r, .phi pairs⟩ =
      ⟨r, .phi (pairs.map fun (x, p) => (x, if p = old then new else p))⟩ := rfl

theorem sameKind_renameIncoming : SameKind i (renameIncoming old new i) := by
  obtain ⟨r, op⟩ := i
  cases op <;> exact ⟨rfl, rfl, rfl, rfl, rfl⟩

theorem usedValues_renameIncoming :
    (renameIncoming old new i).op.usedValues = i.op.usedValues := by
  rw [renameIncoming, Instruction.mapOp, Op.usedValues, Op.operands_mapPhiBlocks, Op.usedValues]

theorem renameIncoming_eq_phi_iff {pairs : List (Operand × BlockId)} :
    (renameIncoming old new i).op = .phi pairs ↔ ∃ qs, i.op = .phi qs ∧
      pairs = qs.map fun (x, p) => (x, if p = old then new else p) := by
  obtain ⟨r, op⟩ := i
  cases op <;> simp [renameIncoming, Instruction.mapOp, Op.mapPhiBlocks, eq_comm]

theorem results_map_renameIncoming :
    results (is.map (renameIncoming old new)) = results is :=
  results_map fun _ _ => sameKind_renameIncoming

theorem map_renameIncoming_of_plain (h : ∀ i ∈ is, i.op.isPhi = false) :
    is.map (renameIncoming old new) = is :=
  (List.map_congr_left fun i hi => renameIncoming_of_not_isPhi (h i hi)).trans (List.map_id _)

theorem exposed_map_renameIncoming_iff : Exposed v (is.map (renameIncoming old new)) ↔ Exposed v is := by
  induction is with
  | nil => rfl
  | cons i is ih =>
    rw [List.map_cons, Exposed, Exposed, ih, usedValues_renameIncoming,
      sameKind_renameIncoming.isPhi, sameKind_renameIncoming.result]

theorem takesFrom_map_renameIncoming (h : TakesFrom (is.map (renameIncoming old new)) v p) :
    ∃ q, TakesFrom is v q ∧ p = if q = old then new else q := by
  obtain ⟨_, renamed, pairs, hop, hp⟩ := h
  obtain ⟨i, hi, rfl⟩ := List.mem_map.mp renamed
  obtain ⟨qs, hqs, rfl⟩ := renameIncoming_eq_phi_iff.1 hop
  obtain ⟨⟨x, q⟩, hq, e⟩ := List.mem_map.mp hp
  obtain ⟨rfl, rfl⟩ := Prod.mk.inj e
  exact ⟨q, ⟨i, hi, qs, hqs, hq⟩, rfl⟩

end Rename

namespace Function

variable {f f' : Function} {b c rest p : BlockId} {is js : List Instruction} {v : ValueId}

/-- `f'` is `f` with `b`, whose body is `is ++ js`, cut before `js`. -/
structure Cut (f f' : Function) (b rest : BlockId) (is js : List Instruction) : Prop where
  mem : b ∈ f.layout
  fresh : rest ∉ f.layout
  before : f.body b = is ++ js
  plain : ∀ i ∈ js, i.op.isPhi = false
  merges : ∀ i ∈ is, i.op.isPhi = true
  ends : Terminated js
  layout : ∀ c, c ∈ f'.layout ↔ c = rest ∨ c ∈ f.layout
  name : f'.name = f.name
  entry : f'.entry = f.entry
  params : f'.params = f.params
  values : f'.values = f.values
  names : ∀ c ∈ f.layout, f'.blockName c = f.blockName c
  coherent : f'.Coherent
  body_rest : f'.body rest = js
  body_front : f'.body b = is.map (renameIncoming b rest) ++ [.effect (.br rest)]
  body_other : ∀ c, c ≠ b → c ≠ rest → f'.body c = (f.body c).map (renameIncoming b rest)

namespace Cut

variable (h : Cut f f' b rest is js)

include h

theorem ne_nil : js ≠ [] := by
  obtain ⟨xs, t, rfl, -⟩ := terminated_iff.1 h.ends
  simp

theorem successors_front : f'.successors b = [rest] := by
  rw [successors_eq, h.body_front, targetsOf_concat rfl]
  rfl

theorem successors_rest : f'.successors rest = f.successors b := by
  rw [successors_eq, h.body_rest, successors_eq, h.before, targetsOf_append h.ne_nil]

theorem successors_other (hb : c ≠ b) (hc : c ≠ rest) : f'.successors c = f.successors c := by
  rw [successors_eq, h.body_other c hb hc, targetsOf_map fun _ _ => sameKind_renameIncoming, successors_eq]

theorem results_front : results (f'.body b) = results is := by
  rw [h.body_front, results_append, results_map_renameIncoming]
  simp [results, Instruction.effect]

theorem results_other (hb : c ≠ b) (hc : c ≠ rest) :
    results (f'.body c) = results (f.body c) := by
  rw [h.body_other c hb hc, results_map_renameIncoming]

theorem mem_results_iff (hc : c ≠ rest) :
    v ∈ results (f.body c) ↔ v ∈ results (f'.body c) ∨ (c = b ∧ v ∈ results js) := by
  by_cases hb : c = b
  · subst hb
    rw [h.before, results_append, List.mem_append, h.results_front]
    simp
  · rw [h.results_other hb hc]
    simp [hb]

/-- Ways that lack a value, with the block in one piece and in two. -/
theorem lacks_iff (shaped : f.Shaped) :
    f'.Lacks v c ↔ (c ≠ rest ∧ f.Lacks v c) ∨ (c = rest ∧ f.Lacks v b ∧ v ∉ results is) := by
  constructor
  · intro lacks
    induction lacks with
    | entry =>
      refine .inl ⟨fun e => h.fresh (e ▸ h.entry ▸ shaped.entry_mem), h.entry ▸ .entry⟩
    | @step p c way undefined edge ih =>
      rcases ih with ⟨hp, lacks⟩ | ⟨rfl, lacks, front⟩
      · by_cases hb : p = b
        · subst hb
          rw [h.successors_front, List.mem_singleton] at edge
          rw [h.results_front] at undefined
          exact .inr ⟨edge, lacks, undefined⟩
        · rw [h.successors_other hb hp] at edge
          rw [h.results_other hb hp] at undefined
          refine .inl ⟨fun e => h.fresh (e ▸ ?_), .step lacks undefined edge⟩
          exact shaped.successor_mem (lacks.mem_layout shaped) edge
      · rw [h.successors_rest] at edge
        rw [h.body_rest] at undefined
        refine .inl ⟨fun e => h.fresh (e ▸ shaped.successor_mem h.mem edge),
          .step lacks ?_ edge⟩
        rw [h.before, results_append, List.mem_append]
        exact fun hv => hv.elim front undefined
  · have old : ∀ {c}, f.Lacks v c → f'.Lacks v c := by
      intro c lacks
      induction lacks with
      | entry => exact h.entry ▸ .entry
      | @step p c way undefined edge ih =>
        have hp : p ≠ rest := fun e => h.fresh (e ▸ way.mem_layout shaped)
        by_cases hb : p = b
        · subst hb
          rw [h.before, results_append, List.mem_append, not_or] at undefined
          have front : f'.Lacks v rest :=
            .step ih (by rw [h.results_front]; exact undefined.1) (by simp [h.successors_front])
          exact .step front (by rw [h.body_rest]; exact undefined.2) (h.successors_rest ▸ edge)
        · exact .step ih (by rwa [h.results_other hb hp]) (by rwa [h.successors_other hb hp])
    rintro (⟨-, lacks⟩ | ⟨rfl, lacks, front⟩)
    · exact old lacks
    · exact .step (old lacks) (by rwa [h.results_front]) (by simp [h.successors_front])

omit h in
theorem rename_inj {q q' : BlockId} (hq : q ≠ rest) (hq' : q' ≠ rest)
    (e : (if q = b then rest else q) = if q' = b then rest else q') : q = q' := by
  split at e <;> split at e <;> simp_all

theorem mem_predecessors_iff (hc : c ≠ rest) :
    p ∈ f'.predecessors c ↔ ∃ q ∈ f.predecessors c, p = if q = b then rest else q := by
  simp only [Function.mem_predecessors_iff, h.layout]
  constructor
  · rintro ⟨rfl | hp, edge⟩
    · rw [h.successors_rest] at edge
      exact ⟨b, ⟨h.mem, edge⟩, by simp⟩
    · have hpr : p ≠ rest := fun e => h.fresh (e ▸ hp)
      by_cases hb : p = b
      · subst hb
        rw [h.successors_front, List.mem_singleton] at edge
        exact absurd edge hc
      · rw [h.successors_other hb hpr] at edge
        exact ⟨p, ⟨hp, edge⟩, by simp [hb]⟩
  · rintro ⟨q, ⟨hq, edge⟩, rfl⟩
    split
    · next e => exact ⟨.inl rfl, h.successors_rest ▸ e ▸ edge⟩
    · next e =>
      have hqr : q ≠ rest := fun e => h.fresh (e ▸ hq)
      exact ⟨.inr hq, by rwa [h.successors_other e hqr]⟩

theorem exists_of_mem_body {i : Instruction} (hi : i ∈ f'.body c) :
    (∃ k ∈ f.body (if c = rest then b else c), i = renameIncoming b rest k ∧
      (k.op.isPhi = true → c ≠ rest)) ∨ (c = b ∧ i = .effect (.br rest)) := by
  by_cases hr : c = rest
  · subst hr
    rw [h.body_rest] at hi
    refine .inl ⟨i, by simp [h.before, hi], (renameIncoming_of_not_isPhi (h.plain i hi)).symm, ?_⟩
    simp [h.plain i hi]
  · by_cases hb : c = b
    · subst hb
      rw [h.body_front, List.mem_append, List.mem_map, List.mem_singleton] at hi
      rcases hi with ⟨k, hk, rfl⟩ | rfl
      · exact .inl ⟨k, by simp [hr, h.before, hk], rfl, fun _ => hr⟩
      · exact .inr ⟨rfl, rfl⟩
    · rw [h.body_other c hb hr] at hi
      obtain ⟨k, hk, rfl⟩ := List.mem_map.mp hi
      exact .inl ⟨k, by simpa [hr] using hk, rfl, fun _ => hr⟩

theorem valueType : f'.valueType v = f.valueType v := by
  rw [Function.valueType, valueInfo, h.values, Function.valueType, valueInfo]

theorem mem_results (hv : v ∈ results (f'.body c)) :
    v ∈ results (f.body (if c = rest then b else c)) := by
  split
  · next e =>
    rw [e, h.body_rest] at hv
    rw [h.before, results_append]
    exact List.mem_append_right _ hv
  · next hc => exact (h.mem_results_iff hc).mpr (.inl hv)

theorem wellFormed (co : f.Coherent) (wf : f.WellFormed) : f'.WellFormed where
  nonempty := fun e => by
    have := (h.layout b).mpr (.inr h.mem)
    rw [e] at this
    cases this
  entry_free := by
    rw [h.entry, List.eq_nil_iff_forall_not_mem]
    intro p hp
    have ne : f.entry ≠ rest := fun e => h.fresh (e ▸ wf.entry_mem)
    obtain ⟨q, hq, -⟩ := (h.mem_predecessors_iff ne).mp hp
    rw [wf.entry_free] at hq
    cases hq
  terminated := by
    intro c hc
    by_cases hr : c = rest
    · rw [hr, h.body_rest]
      exact h.ends
    · have hc := ((h.layout c).mp hc).resolve_left hr
      by_cases hb : c = b
      · subst hb
        refine terminated_iff.2 ⟨_, _, h.body_front, rfl, fun i hi => ?_⟩
        obtain ⟨k, hk, rfl⟩ := List.mem_map.mp hi
        rw [sameKind_renameIncoming.isTerminator]
        exact Op.isTerminator_of_isPhi (h.merges k hk)
      · rw [h.body_other c hb hr]
        exact (wf.terminated c hc).map fun _ _ => sameKind_renameIncoming
  phisLead := by
    intro c hc
    by_cases hr : c = rest
    · rw [hr, h.body_rest]
      exact phisLead_of_plain h.plain
    · have hc := ((h.layout c).mp hc).resolve_left hr
      by_cases hb : c = b
      · subst hb
        rw [h.body_front]
        refine phisLead_append (fun i hi => ?_) (by simp [Instruction.effect, Op.isPhi])
        obtain ⟨k, hk, rfl⟩ := List.mem_map.mp hi
        rw [sameKind_renameIncoming.isPhi, h.merges k hk]
      · rw [h.body_other c hb hr]
        exact (wf.phisLead c hc).map fun _ _ => sameKind_renameIncoming
  fits := by
    intro c hc i hi
    rcases h.exists_of_mem_body hi with ⟨k, hk, rfl, -⟩ | ⟨-, rfl⟩
    · have fits := wf.fits _ (co.mem_layout_of_mem_body hk) k hk
      refine ⟨fun v hv => ?_, fun t ht => ?_, fun v hv => ?_, fun hn => ?_⟩
      · rw [h.values]
        exact fits.operands v (usedValues_renameIncoming ▸ hv)
      · exact (h.layout t).mpr (.inr (fits.targets t (sameKind_renameIncoming.targets ▸ ht)))
      · rw [h.valueType]
        exact fits.typed v (sameKind_renameIncoming.result ▸ hv)
      · rw [sameKind_renameIncoming.producesValue]
        exact fits.produces (sameKind_renameIncoming.result ▸ hn)
    · refine ⟨by simp [Instruction.effect, Op.mem_usedValues_iff, Op.operands], fun t ht => ?_,
        (fun v hv => by cases hv), fun _ => rfl⟩
      obtain rfl : t = rest := by simpa [Instruction.effect, Op.targets] using ht
      exact (h.layout t).mpr (.inl rfl)
  once := by
    obtain ⟨each, apart⟩ := (nodup_defined_iff co.nodup).mp wf.once
    have whole := each b h.mem
    rw [h.before, results_append, List.nodup_append] at whole
    have origin : ∀ c ∈ f'.layout, (if c = rest then b else c) ∈ f.layout := by
      intro c hc
      split
      · exact h.mem
      · next hr => exact ((h.layout c).mp hc).resolve_left hr
    rw [nodup_defined_iff h.coherent.nodup]
    refine ⟨fun c hc => ?_, fun c hc d hd v hvc hvd => ?_⟩
    · by_cases hr : c = rest
      · rw [hr, h.body_rest]
        exact whole.2.1
      · by_cases hb : c = b
        · rw [hb, h.results_front]
          exact whole.1
        · rw [h.results_other hb hr]
          exact each c (((h.layout c).mp hc).resolve_left hr)
    · have same := apart _ (origin c hc) _ (origin d hd) v (h.mem_results hvc) (h.mem_results hvd)
      -- the two parts of the block have no value in common
      split at same <;> split at same
      · next e e' => rw [e, e']
      · next e _ =>
        rw [e, h.body_rest] at hvc
        rw [← same, h.results_front] at hvd
        exact absurd rfl (whole.2.2 v hvd v hvc)
      · next _ e =>
        rw [e, h.body_rest] at hvd
        rw [same, h.results_front] at hvc
        exact absurd rfl (whole.2.2 v hvc v hvd)
      · exact same
  params := by
    intro v hv
    obtain ⟨c, hc, hv⟩ := mem_defined_iff.1 hv
    rw [h.params]
    refine wf.params v (mem_defined_iff.2 ⟨_, ?_, h.mem_results hv⟩)
    split
    · exact h.mem
    · next hr => exact ((h.layout c).mp hc).resolve_left hr
  merges := by
    intro c hc i hi pairs hop
    rcases h.exists_of_mem_body hi with ⟨k, hk, rfl, hr⟩ | ⟨-, rfl⟩
    · obtain ⟨qs, hqs, rfl⟩ := renameIncoming_eq_phi_iff.1 hop
      have hr : c ≠ rest := hr (by rw [hqs]; rfl)
      rw [if_neg hr] at hk
      have perm := wf.merges c (co.mem_layout_of_mem_body hk) k hk qs hqs
      have nodup : (f.predecessors c).Nodup := co.nodup.filter _
      have old : ∀ q ∈ qs.map (·.2), q ≠ rest := fun q hq e =>
        h.fresh (e ▸ (Function.mem_predecessors_iff.1 (perm.mem_iff.mp hq)).1)
      have blocks : (qs.map fun (x, p) => (x, if p = b then rest else p)).map (·.2) =
          (qs.map (·.2)).map fun p => if p = b then rest else p := by
        simp [Function.comp_def]
      rw [blocks]
      have nodup' : (f'.predecessors c).Nodup := h.coherent.nodup.filter _
      refine (List.perm_ext_iff_of_nodup ?_ nodup').mpr fun p => ?_
      · exact (List.nodup_map_iff_inj_on (perm.nodup_iff.mpr nodup)).mpr
          fun q hq q' hq' e => rename_inj (old q hq) (old q' hq') e
      · rw [h.mem_predecessors_iff hr, List.mem_map]
        exact exists_congr fun q => and_congr perm.mem_iff eq_comm
    · cases hop

/-- The cut leaves nothing undefined that was defined. -/
theorem strictFor {given : ValueId → Prop} (wf : f.WellFormed) (strict : f.StrictFor given) :
    f'.StrictFor given := by
  have shaped := wf.toShaped
  constructor
  · intro c v exposed lacks
    rcases (h.lacks_iff shaped).mp lacks with ⟨hr, lacks⟩ | ⟨rfl, lacks, front⟩
    · refine strict.operands c v ?_ lacks
      by_cases hb : c = b
      · subst hb
        rw [h.body_front, exposed_append_iff, exposed_map_renameIncoming_iff] at exposed
        rw [h.before, exposed_append_iff]
        refine exposed.imp_right fun ⟨_, e⟩ => ?_
        simp [Exposed, Instruction.effect, Op.mem_usedValues_iff, Op.operands] at e
      · rwa [h.body_other c hb hr, exposed_map_renameIncoming_iff] at exposed
    · refine strict.operands b v ?_ lacks
      rw [h.body_rest] at exposed
      rw [h.before, exposed_append_iff]
      exact .inr ⟨front, exposed⟩
  · intro c hc v p takes lacks undefined
    have hr : c ≠ rest := by
      rintro rfl
      obtain ⟨i, hi, pairs, hop, -⟩ := takes
      rw [h.body_rest] at hi
      simpa [hop, Op.isPhi] using h.plain i hi
    have hc := ((h.layout c).mp hc).resolve_left hr
    -- in the function before, the same merge takes the value from where it came
    obtain ⟨q, taken, rfl⟩ : ∃ q, TakesFrom (f.body c) v q ∧ p = if q = b then rest else q := by
      by_cases hb : c = b
      · subst hb
        rw [h.body_front, takesFrom_append_iff] at takes
        rcases takes with takes | ⟨i, hi, pairs, hop, -⟩
        · obtain ⟨q, takes, e⟩ := takesFrom_map_renameIncoming takes
          exact ⟨q, by rw [h.before, takesFrom_append_iff]; exact .inl takes, e⟩
        · obtain rfl := List.mem_singleton.mp hi
          cases hop
      · rw [h.body_other c hb hr] at takes
        exact takesFrom_map_renameIncoming takes
    have hq : q ≠ rest := by
      obtain ⟨i, hi, pairs, hop, hp⟩ := taken
      rintro rfl
      exact h.fresh (Function.mem_predecessors_iff.1
        (wf.mem_predecessors_of_incoming hc hi hop hp)).1
    by_cases e : q = b
    · subst e
      rw [if_pos rfl] at lacks undefined
      obtain ⟨-, lacks, front⟩ := ((h.lacks_iff shaped).mp lacks).resolve_left fun l => l.1 rfl
      refine strict.incoming c hc v q taken lacks ?_
      rw [h.body_rest] at undefined
      rw [h.before, results_append, List.mem_append]
      exact fun hv => hv.elim front undefined
    · rw [if_neg e] at lacks undefined
      obtain ⟨-, lacks⟩ := ((h.lacks_iff shaped).mp lacks).resolve_right fun l => hq l.1
      rw [h.results_other e hq] at undefined
      exact strict.incoming c hc v q taken lacks undefined

theorem mem_body_of_plain {i : Instruction} (hi : i ∈ f.body c) (phi : i.op.isPhi = false)
    (hc : c ∈ f.layout) : ∃ d ∈ f'.layout, i ∈ f'.body d := by
  have hr : c ≠ rest := fun e => h.fresh (e ▸ hc)
  by_cases hb : c = b
  · subst hb
    rw [h.before, List.mem_append] at hi
    rcases hi with hi | hi
    · simp [h.merges i hi] at phi
    · exact ⟨rest, (h.layout rest).mpr (.inl rfl), h.body_rest ▸ hi⟩
  · refine ⟨c, (h.layout c).mpr (.inr hc), ?_⟩
    rw [h.body_other c hb hr]
    exact List.mem_map.mpr ⟨i, hi, renameIncoming_of_not_isPhi phi⟩

end Cut

end Function

end CheckpointRestart
