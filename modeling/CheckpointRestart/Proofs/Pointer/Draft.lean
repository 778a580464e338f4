import CheckpointRestart.Flow.Uses
import CheckpointRestart.Proofs.Pointer.Cover

/-! # Functions with additions

While extents are found, a function gets instructions of two kinds: casts that widen sizes, and
merges of sizes. The instructions it had stay as they were, in their order, and use none of the
additions. A merge of sizes is pending until its incoming values are set.
-/

namespace CheckpointRestart

namespace Function

variable {f₀ f f' : Function} {n : Nat} {b : BlockId} {v r : ValueId} {i j : Instruction}

instance : Decidable (Original n i) :=
  decidable_of_iff (i.result.all (·.index < n) = true) (by
    cases h : i.result <;> simp [Original, h])

/-- An instruction that was added for the sake of sizes. -/
structure Addition (n : Nat) (f : Function) (i : Instruction) : Prop where
  result : ∃ r, i.result = some r ∧ f.valueType r = .i64
  op : (∃ w bits, i.op = .cast (.value w) .i64 ∧ w.index < n ∧ f.valueType w = .int bits) ∨
    ∃ pairs, i.op = .phi pairs ∧ ∀ w p, (.value w, p) ∈ pairs → f.valueType w = .i64

/-- `f` is `f₀` with additions. -/
structure Draft (f₀ f : Function) (pending : ValueSet) : Prop where
  coherent : f.Coherent
  shaped : f.Shaped
  strict : f.Strict
  layout : f.layout = f₀.layout
  params : f.params = f₀.params
  size : f₀.values.size ≤ f.values.size
  types : ∀ v, v.index < f₀.values.size → f.valueType v = f₀.valueType v
  kept : ∀ b, (f.body b).filter (Original f₀.values.size) = f₀.body b
  added : ∀ b, ∀ i ∈ f.body b, ¬ Original f₀.values.size i → Addition f₀.values.size f i
  /-- What is widened is given, or an allocation in front asks for it. -/
  asked : ∀ b, ∀ i ∈ f.body b, ¬ Original f₀.values.size i → ∀ w, i.op = .cast (.value w) .i64 →
    w ∈ f₀.params ∨ ∃ v, [⟨some v, .malloc (.value w)⟩, i].Sublist (f.body b)
  merges : ∀ b ∈ f.layout, ∀ i ∈ f.body b, (∀ r ∈ pending, i.result ≠ some r) → f.Merges b i
  /-- Merges are added only to blocks that have some. -/
  merging : ∀ b, ∀ i ∈ f.body b, i.op.isPhi = true → ∃ k ∈ f₀.body b, k.op.isPhi = true
  /-- What follows the merges of a block other than the entry is original. -/
  first : ∀ b ∈ f.layout, b ≠ f.entry →
    ∀ i ∈ ((f.body b).dropWhile (·.op.isPhi)).head?, Original f₀.values.size i

namespace Draft

variable {pending : ValueSet}

theorem start (co : f.Coherent) (wf : f.WellFormed) (strict : f.Strict) : Draft f f ∅ := by
  have original : ∀ b, ∀ i ∈ f.body b, Original f.values.size i := by
    intro b i hi r hr
    exact index_lt_of_typed ((wf.fits b (co.mem_layout_of_mem_body hi) i hi).typed r hr)
  refine ⟨co, wf.toShaped, strict, rfl, rfl, Nat.le_refl _, fun _ _ => rfl, fun b => ?_,
    fun b i hi new => absurd (original b i hi) new,
    fun b i hi new => absurd (original b i hi) new, fun b hb i hi _ => wf.merges b hb i hi,
    fun b i hi phi => ⟨i, hi, phi⟩, fun b _ _ i hi => ?_⟩
  · exact List.filter_eq_self.mpr fun i hi => by simpa using original b i hi
  · exact original b i ((List.dropWhile_sublist _).subset (List.mem_of_mem_head? hi))

theorem entry (h : Draft f₀ f pending) : f.entry = f₀.entry := by
  rw [Function.entry, h.layout, Function.entry]

theorem mem_body_iff (h : Draft f₀ f pending) :
    i ∈ f₀.body b ↔ i ∈ f.body b ∧ Original f₀.values.size i := by
  rw [← h.kept b]
  simp

theorem original_operand (h : Draft f₀ f pending) (shaped : f₀.Shaped) (hi : i ∈ f.body b)
    (original : Original f₀.values.size i) (hv : v ∈ i.op.usedValues) :
    v.index < f₀.values.size := by
  have hi₀ := h.mem_body_iff.2 ⟨hi, original⟩
  have hb : b ∈ f₀.layout := h.layout ▸ h.coherent.mem_layout_of_mem_body hi
  exact (shaped.fits b hb i hi₀).operands v hv

theorem original_of_isTerminator (h : Draft f₀ f pending) (hi : i ∈ f.body b)
    (last : i.op.isTerminator = true) : Original f₀.values.size i := by
  by_contra added
  rcases (h.added b i hi added).op with ⟨_, _, hop, -⟩ | ⟨_, hop, -⟩
  all_goals
    rw [hop] at last
    cases last

theorem successors (h : Draft f₀ f pending) (hb : b ∈ f.layout) :
    f.successors b = f₀.successors b := by
  obtain ⟨is, t, split, ht, -⟩ := terminated_iff.1 (h.shaped.terminated b hb)
  have mem : t ∈ f.body b := by simp [split]
  have original := h.original_of_isTerminator mem ht
  have kept := h.kept b
  rw [split, List.filter_append, List.filter_cons_of_pos (by simpa using original),
    List.filter_nil] at kept
  rw [successors_eq, successors_eq, split, ← kept, targetsOf_concat ht, targetsOf_concat ht]

theorem entry_isPhi (h : Draft f₀ f pending) (none : ∀ i ∈ f₀.body f₀.entry, i.op.isPhi = false)
    (hi : i ∈ f.body f.entry) : i.op.isPhi = false := by
  by_contra phi
  obtain ⟨k, hk, hphi⟩ := h.merging _ i hi (by simpa using phi)
  rw [h.entry] at hk
  simp [none k hk] at hphi

theorem newValue (h : Draft f₀ f pending) (name : String) (t : Ty) :
    Draft f₀ (f.newValue name t).2 pending := by
  have re := relabelled_newValue (f := f) name t
  have typed : ∀ w, (f.valueType w).isVoid = false →
      (f.newValue name t).2.valueType w = f.valueType w :=
    fun w hw => re.types w (index_lt_of_typed hw)
  refine ⟨re.coherent h.coherent, re.shaped h.shaped ?_, ?_, h.layout, h.params,
    h.size.trans re.size, fun v hv => ?_, h.kept, fun b i hi new => ?_, h.asked, ?_, h.merging,
    h.first⟩
  · exact fun b hb i hi v hv => ((h.shaped.fits b hb i hi).operands v hv).trans_le re.size
  · exact ⟨fun b v exposed lacks => h.strict.operands b v exposed (re.lacks_iff.1 lacks),
      fun b hb v p takes lacks => h.strict.incoming b hb v p takes (re.lacks_iff.1 lacks)⟩
  · rw [re.types v (hv.trans_le h.size), h.types v hv]
  · obtain ⟨⟨r, hr, tr⟩, op⟩ := h.added b i hi new
    refine ⟨⟨r, hr, by rw [typed r (by simp [tr, Ty.i64, Ty.isVoid]), tr]⟩, op.imp ?_ ?_⟩
    · rintro ⟨w, bits, hop, hw, tw⟩
      exact ⟨w, bits, hop, hw, by rw [typed w (by simp [tw, Ty.isVoid]), tw]⟩
    · rintro ⟨pairs, hop, types⟩
      refine ⟨pairs, hop, fun w p hp => ?_⟩
      rw [typed w (by simp [types w p hp, Ty.i64, Ty.isVoid]), types w p hp]
  · intro b hb i hi open_
    rw [Merges, re.predecessors]
    exact h.merges b hb i hi open_

/-- An addition can be made where the merges stay in front and what it uses is at hand. -/
theorem insert {is js : List Instruction} (h : Draft f₀ f pending) (ins : Inserted f f' b is js j)
    (add : Addition f₀.values.size f j) (hr : j.result = some r) (new : f₀.values.size ≤ r.index)
    (fresh : r ∉ f.defined) (given : r ∉ f.params) (unused : f.Unused r)
    (range : ∀ v ∈ j.op.usedValues, v ≠ r ∧ v.index < f.values.size)
    (asked : ∀ w, j.op = .cast (.value w) .i64 →
      w ∈ f₀.params ∨ ∃ v, ⟨some v, .malloc (.value w)⟩ ∈ is) {pending' : ValueSet}
    (sub : ∀ v ∈ pending, v ∈ pending') (lead : PhisLead (is ++ j :: js))
    (merging : j.op.isPhi = true → ∃ k ∈ f₀.body b, k.op.isPhi = true)
    (first : b ≠ f.entry → ∀ i ∈ ((is ++ j :: js).dropWhile (·.op.isPhi)).head?,
      Original f₀.values.size i)
    (use : (j.op = .phi [] ∧ r ∈ pending') ∨ (j.op.isPhi = false ∧
      ∀ v ∈ j.op.usedValues, f.Lacks v b → v ∉ results is → v ∈ f.params)) :
    Draft f₀ f' pending' := by
  have not_original : ¬ Original f₀.values.size j := fun o => absurd (o r hr) (by omega)
  have inner : j.op.isTerminator = false := by
    rcases add.op with ⟨w, bits, hop, _⟩ | ⟨pairs, hop, _⟩ <;> rw [hop] <;> rfl
  obtain ⟨r', hr', tr⟩ := add.result
  obtain rfl : r' = r := by
    rw [hr] at hr'
    exact (Option.some.inj hr').symm
  have fits : f.Fits j := by
    refine ⟨fun v hv => (range v hv).2, ?_, fun v hv => ?_, fun none => ?_⟩
    · rw [Op.targets_of_not_isTerminator inner]
      simp
    · rw [hr] at hv
      cases hv
      simp [tr, Ty.i64, Ty.isVoid]
    · rw [hr] at none
      cases none
  have same : ∀ {i}, Addition f₀.values.size f i → Addition f₀.values.size f' i := by
    rintro i ⟨⟨r, hr, tr⟩, op⟩
    refine ⟨⟨r, hr, ins.valueType.trans tr⟩, op.imp ?_ ?_⟩
    · rintro ⟨w, bits, hop, hw, tw⟩
      exact ⟨w, bits, hop, hw, ins.valueType.trans tw⟩
    · rintro ⟨pairs, hop, types⟩
      exact ⟨pairs, hop, fun w p hp => ins.valueType.trans (types w p hp)⟩
  refine ⟨ins.coherent h.coherent, ins.shaped h.coherent.nodup h.shaped fits ?_ inner lead, ?_,
    ins.layout.trans h.layout, ins.params.trans h.params, ins.values ▸ h.size,
    fun v hv => ins.valueType.trans (h.types v hv), fun c => ?_, fun c i hi newi => ?_,
    fun c i hi newi w hw => ?_, fun c hc i hi free => ?_, fun c i hi phi => ?_, fun c hc ne => ?_⟩
  · intro v hv
    obtain rfl : r' = v := Option.some.inj (hr.symm.trans hv)
    exact ⟨fresh, given⟩
  · rw [Strict, ins.params]
    refine ins.strictFor h.strict (fun v hv => ?_) (fun phi => ?_) fun v p takes => ?_
    · obtain rfl : r' = v := Option.some.inj (hr.symm.trans hv)
      exact ⟨unused, fun hv => (range r' hv).1 rfl⟩
    · rcases use with ⟨hop, _⟩ | ⟨_, use⟩
      · rw [hop] at phi
        cases phi
      · exact use
    · obtain ⟨k, hk, pairs, hop, hp⟩ := takes
      obtain rfl := List.mem_singleton.mp hk
      rcases use with ⟨hop', _⟩ | ⟨phi, _⟩
      · rw [hop'] at hop
        cases hop
        cases hp
      · rw [hop] at phi
        cases phi
  · by_cases hc : c = b
    · subst hc
      rw [ins.after, ← h.kept c, ins.before]
      simp [not_original]
    · rw [ins.others c hc, h.kept c]
  · rcases ins.mem_body_iff.1 hi with ⟨_, rfl⟩ | hi
    · exact same add
    · exact same (h.added c i hi newi)
  · rcases ins.mem_body_iff.1 hi with ⟨rfl, rfl⟩ | hi
    · refine (asked w hw).imp_right ?_
      rintro ⟨v, hv⟩
      refine ⟨v, ?_⟩
      rw [ins.after]
      exact (List.singleton_sublist.mpr hv).append (List.singleton_sublist.mpr List.mem_cons_self)
    · refine (h.asked c i hi newi w hw).imp_right ?_
      rintro ⟨v, hv⟩
      refine ⟨v, hv.trans ?_⟩
      by_cases hc : c = b
      · subst hc
        rw [ins.before, ins.after]
        exact (List.Sublist.refl is).append (List.sublist_cons_self j js)
      · rw [ins.others c hc]
  · rw [Merges, ins.predecessors]
    rcases ins.mem_body_iff.1 hi with ⟨_, rfl⟩ | hi
    · rcases use with ⟨_, open_⟩ | ⟨phi, _⟩
      · exact absurd hr (free r' open_)
      · intro pairs hop
        rw [hop] at phi
        cases phi
    · exact h.merges c (ins.layout ▸ hc) i hi fun v hv => free v (sub v hv)
  · rcases ins.mem_body_iff.1 hi with ⟨rfl, rfl⟩ | hi
    · exact merging phi
    · exact h.merging c i hi phi
  · by_cases hcb : c = b
    · subst hcb
      rw [ins.after]
      exact first (ins.entry ▸ ne)
    · rw [ins.others c hcb]
      exact h.first c (ins.layout ▸ hc) (ins.entry ▸ ne)

end Draft

end Function

end CheckpointRestart
