import CheckpointRestart.Proofs.Instrument.Split

/-! # Functions ready for sites

What is known of a function once the extents of its pointers are found and its merge blocks are
split. Everything that follows works on such a function.
-/

namespace CheckpointRestart

open CheckpointRestart.Function

/-- A function with the extents of its pointers. The first `n` values were there before any were
added for the sake of sizes. -/
structure Ready (n : Nat) (f : Function) (e : Extents) : Prop where
  coherent : f.Coherent
  wellFormed : f.WellFormed
  strict : f.Strict
  plain : ∀ i ∈ f.body f.entry, i.op.isPhi = false
  origin : ∀ v x, e.get? v = some x → x.From f f v
  pointer : ∀ v x, e.get? v = some x → (f.valueType v).isPointer = true
  sizes : ∀ v x, e.get? v = some x → ∀ c ∈ x.sizeValues,
    f.Covers n c v ∧ f.valueType c = .i64
  derived : ∀ v x source, e.get? v = some x → x.provenance = .derived source →
    ∃ y, e.get? source = some y ∧ y.width = x.width ∧ y.count = x.count
  /-- What was added uses no pointers. -/
  added : ∀ b, ∀ i ∈ f.body b, ¬ Original n i → ∀ v ∈ i.op.usedValues,
    (f.valueType v).isPointer = false

/-- Merge blocks hold nothing but merges, and there are no merges elsewhere. -/
structure SplitInto (f : Function) (merges : BlockSet) : Prop where
  merge : ∀ b ∈ merges, b ∈ f.layout ∧ MergeBlock (f.body b)
  plain : ∀ b ∈ f.layout, b ∉ merges → ∀ i ∈ f.body b, i.op.isPhi = false

namespace Function

variable {f g : Function} {b : BlockId} {v : ValueId} {n : Nat}

theorem Cuts.defines (h : Cuts n f g) {op : Op} (def_ : f.Defines b v op)
    (phi : op.isPhi = false) : ∃ c, g.Defines c v op := by
  obtain ⟨c, hc, hi⟩ := h.exists_mem_body def_.1 def_.2 phi
  exact ⟨c, hc, hi⟩

theorem Cuts.defines_phi (h : Cuts n f g) {pairs : List (Operand × BlockId)}
    (def_ : f.Defines b v (.phi pairs)) :
    ∃ pairs', g.Defines b v (.phi pairs') ∧ pairs'.map (·.1) = pairs.map (·.1) := by
  induction h with
  | refl => exact ⟨pairs, def_, rfl⟩
  | @step g g' d rest is js _ cut _ ih =>
    obtain ⟨pairs', now, same⟩ := ih
    have hr : b ≠ rest := fun e => cut.fresh (e ▸ now.1)
    refine ⟨pairs'.map fun z => (z.1, if z.2 = d then rest else z.2),
      ⟨(cut.layout b).mpr (.inr now.1), ?_⟩, Eq.trans ?_ same⟩
    · by_cases hb : b = d
      · subst hb
        have := now.2
        rw [cut.before, List.mem_append] at this
        rcases this with mem | mem
        · rw [cut.body_front]
          exact List.mem_append_left _ (List.mem_map.mpr ⟨_, mem, rfl⟩)
        · exact absurd (cut.plain _ mem) (by simp [Op.isPhi])
      · rw [cut.body_other b hb hr]
        exact List.mem_map.mpr ⟨_, now.2, rfl⟩
    · simp [Function.comp_def]

theorem Cuts.widened (h : Cuts n f g) {size count : Operand} (wide : f.Widened size count) :
    g.Widened size count := by
  have types : ∀ w, g.valueType w = f.valueType w := fun w => by
    rw [valueType, valueInfo, h.frame.2.2, valueType, valueInfo]
  cases wide with
  | const => exact .const
  | same t => exact .same ((types _).trans t)
  | cast d =>
    obtain ⟨c, hc⟩ := h.defines d rfl
    exact .cast hc

end Function

/-- A prepared function is ready once its merge blocks are split. -/
theorem Prepared.ready {f₀ f g : Function} {e : Extents} (h : Prepared f₀ f e.map)
    (plain : ∀ i ∈ f₀.body f₀.entry, i.op.isPhi = false) (cuts : Cuts f₀.values.size f g) :
    Ready f₀.values.size g e := by
  obtain ⟨entry, params, values⟩ := cuts.frame
  have wf := h.wellFormed
  obtain ⟨co', wf'⟩ := cuts.wellFormed h.draft.coherent wf
  have types : ∀ w, g.valueType w = f.valueType w := fun w => by
    rw [valueType, valueInfo, values, valueType, valueInfo]
  have old : ∀ {b v op}, f₀.Defines b v op → f.Defines b v op := fun d =>
    ⟨h.draft.layout ▸ d.1, (h.draft.mem_body_iff.1 d.2).1⟩
  have now : ∀ {b v op}, f₀.Defines b v op → op.isPhi = false → ∃ c, g.Defines c v op :=
    fun d phi => cuts.defines (old d) phi
  refine ⟨co', wf', cuts.strict h.draft.coherent wf h.draft.strict, ?_, fun v x hx => ?_,
    fun v x hx => ?_, fun v x hx c hc => ?_, fun v x source hx hs => ?_, fun b i hi new v hv => ?_⟩
  · rw [entry]
    exact cuts.plain fun i hi => h.draft.entry_isPhi plain hi
  · cases (h.sound.settled v x hx).origin with
    | parameter given wide =>
      exact .parameter (params.trans (h.draft.params.trans given)) (cuts.widened wide)
    | alloca d =>
      obtain ⟨c, hc⟩ := now d rfl
      exact .alloca hc
    | malloc d wide =>
      obtain ⟨c, hc⟩ := now d rfl
      exact .malloc hc (cuts.widened wide)
    | merge d =>
      obtain ⟨pairs, hp, -⟩ := cuts.defines_phi (old d)
      exact .merge hp
    | derived d der =>
      obtain ⟨c, hc⟩ := now d der.isPhi
      exact .derived hc der
  · have pointer := (h.sound.settled v x hx).pointer
    rw [types, h.draft.types v (index_lt_of_isPointer pointer), pointer]
  · obtain ⟨cover, t⟩ := (h.sound.settled v x hx).sizes c hc
    exact ⟨cuts.covers h.draft.coherent wf cover, (types c).trans t⟩
  · exact h.sound.derived v x source hx hs
  · rcases cuts.exists_of_mem_body hi with ⟨d, k, hk, kind, used, -, -⟩ | ⟨d, rfl⟩
    · rw [used] at hv
      rw [types]
      have added := h.draft.added d k hk (mt (original_congr kind.result).mpr new)
      rcases added.op with ⟨w, bits, hop, -, t⟩ | ⟨pairs, hop, all⟩
      · obtain rfl : v = w := by simpa [hop, Op.mem_usedValues_iff, Op.operands] using hv
        rw [t]
        rfl
      · rw [hop] at hv
        obtain ⟨⟨_, p⟩, hp, rfl⟩ := List.mem_map.mp (Op.mem_usedValues_iff.1 hv)
        rw [all v p hp]
        rfl
    · simp [Instruction.effect, Op.mem_usedValues_iff, Op.operands] at hv

theorem Function.Splitting.splitInto {n : Nat} {f g : Function} {merges : BlockSet}
    (h : Splitting n f [] merges g) : SplitInto g merges :=
  ⟨h.inside, fun b hb hm => h.plain b hb (by simp) hm⟩

/-- A function that passes the checks, once its extents are found and its merge blocks are split. -/
theorem splitting_findExtents {oracle : AliasOracle} {f f' g : Function} {e : Extents} {merges : BlockSet}
    (co : f.Coherent) (valid : f.validate = .ok ()) (passes : f.checkScoping = .ok ())
    (plain : ∀ i ∈ f.body f.entry, i.op.isPhi = false) (found : findExtents oracle f = .ok e f')
    (split : f'.splitMerges = (merges, g)) :
    f.WellFormed ∧ Prepared f f' e.map ∧ Splitting f.values.size f' [] merges g := by
  have wf := validate_eq_ok_iff.1 valid
  have prep := prepared_findExtents co wf ((checkScoping_eq_ok_iff wf).mp passes) plain found
  have splitting := splitting_splitMerges prep.draft.coherent prep.wellFormed prep.draft.first
    fun i hi => prep.draft.entry_isPhi plain hi
  rw [split] at splitting
  exact ⟨wf, prep, splitting⟩

end CheckpointRestart
