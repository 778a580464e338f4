import CheckpointRestart.Proofs.Program.Edits

/-! # Adding an instruction

An instruction that defines a new value can be added to a block, behind everything it uses,
without making the function ill formed or leaving anything undefined that was defined before.
-/

namespace CheckpointRestart

namespace Function

variable {f f' : Function} {b c : BlockId} {v r : ValueId}

/-- Ways of one function that lack a value are ways of another one that branches no less and
defines the value nowhere else. -/
theorem Lacks.transfer (lacks : f'.Lacks v b) (entry : f'.entry = f.entry)
    (edges : ∀ p c, c ∈ f'.successors p → c ∈ f.successors p)
    (defs : ∀ p, v ∈ results (f.body p) → v ∈ results (f'.body p)) : f.Lacks v b := by
  induction lacks with
  | entry => exact entry ▸ .entry
  | step _ undefined edge ih => exact .step ih (fun h => undefined (defs _ h)) (edges _ _ edge)

theorem mem_defined_iff : v ∈ f.defined ↔ ∃ b ∈ f.layout, v ∈ results (f.body b) := by
  simp [defined]

/-- Every value is defined once if no block defines one twice and no two blocks define the same
one. -/
theorem nodup_defined_iff (nodup : f.layout.Nodup) :
    f.defined.Nodup ↔ (∀ b ∈ f.layout, (results (f.body b)).Nodup) ∧
      ∀ b ∈ f.layout, ∀ c ∈ f.layout, ∀ v ∈ results (f.body b), v ∈ results (f.body c) → b = c := by
  rw [defined, List.nodup_flatMap]
  refine and_congr Iff.rfl ⟨fun apart b hb c hc => ?_, fun apart => ?_⟩
  · refine List.Pairwise.forall_of_forall_of_flip (R := fun b c => ∀ v ∈ results (f.body b),
      v ∈ results (f.body c) → b = c) (fun _ _ _ _ _ => rfl) ?_ ?_ hb hc
    · exact apart.imp fun d v hb hc => (d hb hc).elim
    · refine apart.imp fun {b c} d => ?_
      exact fun v hb hc => (d hc hb).elim
  · refine nodup.imp_of_mem fun {b c} hb hc ne => ?_
    exact fun v hvb hvc => ne (apart b hb c hc v hvb hvc)

def Unused (f : Function) (v : ValueId) : Prop :=
  ∀ b, ∀ i ∈ f.body b, v ∉ i.op.usedValues

theorem Coherent.unused_of_le (h : f.Coherent) (shaped : f.Shaped)
    (new : f.values.size ≤ v.index) : f.Unused v := by
  intro b i hi hv
  by_cases hb : b ∈ f.layout
  · have := (shaped.fits b hb i hi).operands v hv
    omega
  · rw [h.body_eq_nil hb] at hi
    cases hi

/-- `f'` is `f` with `j` put between `is` and `js` in block `b`. -/
structure Inserted (f f' : Function) (b : BlockId) (is js : List Instruction) (j : Instruction) :
    Prop where
  layout : f'.layout = f.layout
  params : f'.params = f.params
  values : f'.values = f.values
  blocks : f'.blocks.size = f.blocks.size
  mem : b ∈ f.layout
  before : f.body b = is ++ js
  after : f'.body b = is ++ j :: js
  others : ∀ c, c ≠ b → f'.body c = f.body c
  /-- Something, in the end the terminator, comes behind the new instruction. -/
  inside : js ≠ []

theorem Coherent.inserted_insertAt (h : f.Coherent) (hb : b ∈ f.layout) {n : Nat}
    (hn : n < (f.body b).length) (j : Instruction) :
    Inserted f (f.insertAt b n j) b ((f.body b).take n) ((f.body b).drop n) j where
  layout := rfl
  params := rfl
  values := rfl
  blocks := size_blocks_modifyBody
  mem := hb
  before := (List.take_append_drop n _).symm
  after := by rw [insertAt, h.body_modifyBody hb, if_pos rfl]
  others c hc := body_modifyBody_of_ne hc
  inside := by simpa using hn

theorem Coherent.inserted_insertFront (h : f.Coherent) (shaped : f.Shaped) (hb : b ∈ f.layout)
    (j : Instruction) : Inserted f (f.insertFront b j) b [] (f.body b) j where
  layout := rfl
  params := rfl
  values := rfl
  blocks := size_blocks_modifyBody
  mem := hb
  before := rfl
  after := by rw [insertFront, h.body_modifyBody hb, if_pos rfl, List.nil_append]
  others c hc := body_modifyBody_of_ne hc
  inside := by
    obtain ⟨is, t, split, _⟩ := terminated_iff.1 (shaped.terminated b hb)
    simp [split]

namespace Inserted

variable {is js : List Instruction} {j : Instruction}

theorem entry (h : Inserted f f' b is js j) : f'.entry = f.entry := by
  rw [Function.entry, h.layout, Function.entry]

theorem coherent (h : Inserted f f' b is js j) (co : f.Coherent) : f'.Coherent :=
  ⟨fun c => by rw [h.layout, h.blocks, co.mem_layout], h.layout ▸ co.nodup,
    h.params ▸ h.values ▸ co.params⟩

theorem valueType (h : Inserted f f' b is js j) : f'.valueType v = f.valueType v := by
  rw [Function.valueType, valueInfo, h.values, Function.valueType, valueInfo]

theorem successors (h : Inserted f f' b is js j) : f'.successors c = f.successors c := by
  rw [successors_eq, successors_eq]
  by_cases hc : c = b
  · subst hc
    rw [h.before, h.after, targetsOf_append h.inside, List.append_cons, targetsOf_append h.inside]
  · rw [h.others c hc]

theorem predecessors (h : Inserted f f' b is js j) : f'.predecessors c = f.predecessors c :=
  predecessors_congr h.layout fun _ _ => h.successors

theorem mem_body_iff (h : Inserted f f' b is js j) {i : Instruction} :
    i ∈ f'.body c ↔ (c = b ∧ i = j) ∨ i ∈ f.body c := by
  by_cases hc : c = b
  · subst hc
    rw [h.before, h.after]
    simp only [List.mem_append, List.mem_cons, true_and]
    grind
  · rw [h.others c hc]
    simp [hc]

theorem mem_results_iff (h : Inserted f f' b is js j) :
    v ∈ results (f'.body c) ↔ (c = b ∧ j.result = some v) ∨ v ∈ results (f.body c) := by
  by_cases hc : c = b
  · subst hc
    rw [h.before, h.after]
    simp only [results_append, results_cons, List.mem_append, Option.mem_toList, true_and]
    grind
  · rw [h.others c hc]
    simp [hc]

theorem lacks_iff (h : Inserted f f' b is js j) (hv : j.result ≠ some v) :
    f'.Lacks v c ↔ f.Lacks v c := by
  have defs : ∀ p, v ∈ results (f'.body p) ↔ v ∈ results (f.body p) := by
    intro p
    rw [h.mem_results_iff]
    simp [hv]
  constructor
  · exact fun lacks => lacks.transfer h.entry (fun p c => by simp [h.successors])
      fun p => (defs p).mpr
  · exact fun lacks => lacks.transfer h.entry.symm (fun p c => by simp [h.successors])
      fun p => (defs p).mp

theorem shaped (h : Inserted f f' b is js j) (nodup : f.layout.Nodup) (shaped : f.Shaped)
    (fits : f.Fits j) (fresh : ∀ v, j.result = some v → v ∉ f.defined ∧ v ∉ f.params)
    (inner : j.op.isTerminator = false) (lead : PhisLead (is ++ j :: js)) : f'.Shaped where
  nonempty := h.layout ▸ shaped.nonempty
  entry_free := by rw [h.entry, h.predecessors, shaped.entry_free]
  terminated := by
    intro c hc
    rw [h.layout] at hc
    by_cases hcb : c = b
    · subst hcb
      obtain ⟨xs, t, split, ht, others⟩ := terminated_iff.1 (shaped.terminated c hc)
      obtain ⟨ys, s, hjs⟩ := List.eq_nil_or_concat js |>.resolve_left h.inside
      rw [h.before, hjs, List.concat_eq_append, ← List.append_assoc] at split
      obtain ⟨rfl, hs⟩ := List.append_inj' split rfl
      cases hs
      rw [h.after, hjs, List.concat_eq_append]
      refine terminated_iff.2 ⟨is ++ j :: ys, t, by simp, ht, fun i hi => ?_⟩
      simp only [List.mem_append, List.mem_cons] at hi others
      rcases hi with hi | rfl | hi
      · exact others i (.inl hi)
      · exact inner
      · exact others i (.inr hi)
    · rw [h.others c hcb]
      exact shaped.terminated c hc
  phisLead := by
    intro c hc
    rw [h.layout] at hc
    by_cases hcb : c = b
    · subst hcb
      rw [h.after]
      exact lead
    · rw [h.others c hcb]
      exact shaped.phisLead c hc
  fits := by
    intro c hc i hi
    rw [h.layout] at hc
    have old : f.Fits i := by
      rcases h.mem_body_iff.1 hi with ⟨_, rfl⟩ | hi
      · exact fits
      · exact shaped.fits c hc i hi
    exact ⟨h.values ▸ old.operands, h.layout ▸ old.targets, fun v hv => h.valueType ▸ old.typed v hv,
      old.produces⟩
  once := by
    rw [nodup_defined_iff (h.layout ▸ nodup), h.layout]
    obtain ⟨each, apart⟩ := (nodup_defined_iff nodup).mp shaped.once
    have new : ∀ c ∈ f.layout, ∀ v ∈ results (f.body c), j.result ≠ some v :=
      fun c hc v hv e => (fresh v e).1 (mem_defined_iff.2 ⟨c, hc, hv⟩)
    constructor
    · intro c hc
      by_cases hcb : c = b
      · subst hcb
        have old := each c hc
        have new := new c hc
        rw [h.before, results_append] at old new
        rw [h.after, results_append, results_cons]
        cases hr : j.result with
        | none => simpa using old
        | some r =>
          refine List.nodup_middle.mpr (List.nodup_cons.mpr ⟨fun hv => ?_, old⟩)
          exact new r hv hr
      · rw [h.others c hcb]
        exact each c hc
    · intro c hc d hd v hvc hvd
      rw [h.mem_results_iff] at hvc hvd
      rcases hvc with ⟨rfl, hr⟩ | hvc
      · rcases hvd with ⟨rfl, _⟩ | hvd
        · rfl
        · exact absurd hr (new d hd v hvd)
      · rcases hvd with ⟨rfl, hr⟩ | hvd
        · exact absurd hr (new c hc v hvc)
        · exact apart c hc d hd v hvc hvd
  params := by
    intro v hv
    rw [h.params]
    obtain ⟨c, hc, hv⟩ := mem_defined_iff.1 hv
    rcases h.mem_results_iff.1 hv with ⟨_, hr⟩ | hv
    · exact (fresh v hr).2
    · exact shaped.params v (mem_defined_iff.2 ⟨c, h.layout ▸ hc, hv⟩)

theorem strictFor {given : ValueId → Prop} (h : Inserted f f' b is js j)
    (strict : f.StrictFor given)
    (unused : ∀ v, j.result = some v → f.Unused v ∧ v ∉ j.op.usedValues)
    (operands : j.op.isPhi = false → ∀ v ∈ j.op.usedValues, f.Lacks v b → v ∉ results is → given v)
    (incoming : ∀ v p, TakesFrom [j] v p → f.Lacks v p → v ∉ results (f.body p) → given v) :
    f'.StrictFor given := by
  have not_used : ∀ v, j.result = some v → ∀ c, ∀ i ∈ f'.body c, v ∉ i.op.usedValues := by
    intro v hr c i hi
    rcases h.mem_body_iff.1 hi with ⟨_, rfl⟩ | hi
    · exact (unused v hr).2
    · exact (unused v hr).1 c i hi
  constructor
  · intro c v exposed lacks
    by_cases hr : j.result = some v
    · obtain ⟨i, hi, use⟩ := exposed.exists_use
      exact absurd use (not_used v hr c i hi)
    rw [h.lacks_iff hr] at lacks
    by_cases hc : c = b
    · subst hc
      rw [h.after, exposed_append_iff, Exposed] at exposed
      rcases exposed with early | ⟨fresh, ⟨phi, use⟩ | ⟨_, late⟩⟩
      · exact strict.operands c v (by rw [h.before, exposed_append_iff]; exact .inl early) lacks
      · exact operands phi v use lacks fresh
      · refine strict.operands c v ?_ lacks
        rw [h.before, exposed_append_iff]
        exact .inr ⟨fresh, late⟩
    · rw [h.others c hc] at exposed
      exact strict.operands c v exposed lacks
  · intro c hc v p takes lacks undefined
    obtain ⟨i, hi, pairs, hop, hp⟩ := takes
    have use : v ∈ i.op.usedValues := by
      rw [Op.mem_usedValues_iff, hop]
      exact List.mem_map.mpr ⟨_, hp, rfl⟩
    have hr : j.result ≠ some v := fun hr => not_used v hr c i hi use
    rw [h.lacks_iff hr] at lacks
    have undefined' : v ∉ results (f.body p) := fun hv => undefined (h.mem_results_iff.2 (.inr hv))
    rcases h.mem_body_iff.1 hi with ⟨_, rfl⟩ | hi
    · exact incoming v p ⟨i, List.mem_singleton_self i, pairs, hop, hp⟩ lacks undefined'
    · exact strict.incoming c (h.layout ▸ hc) v p ⟨i, hi, pairs, hop, hp⟩ lacks undefined'

end Inserted

end Function

end CheckpointRestart
