import CheckpointRestart.Instrument.Repair
import CheckpointRestart.Proofs.Machine.Redundancy
import CheckpointRestart.Proofs.Pointer.Extents
import CheckpointRestart.Proofs.Program.Regular

/-! # Dropping redundant merges

Passes over a list of merges drop the redundant ones until a pass drops none. Each drop leaves the
runs of the function as they are, and no pass drops nothing and is followed by another one, so the
number of passes allowed is never what ends the iteration.
-/

namespace CheckpointRestart.Function

variable {f g h : Function} {b d : BlockId} {v x : ValueId} {y : Operand}
  {merges kept : List (BlockId × ValueId)} {m : BlockId × ValueId}

theorem find?_result {is : List Instruction} {i : Instruction} (nodup : (results is).Nodup)
    (hi : i ∈ is) (hr : i.result = some v) : is.find? (·.result == some v) = some i := by
  induction is with
  | nil => cases hi
  | cons j is ih =>
    rw [results_cons, List.nodup_append] at nodup
    rcases List.mem_cons.mp hi with rfl | hi
    · simp [hr]
    · have other : j.result ≠ some v := fun e =>
        nodup.2.2 v (by simp [e]) v (mem_results_iff.2 ⟨i, hi, hr⟩) rfl
      rw [List.find?_cons_of_neg (by simpa using other), ih nodup.2.1 hi]

theorem eraseDups_eq_singleton {α : Type} [DecidableEq α] {xs : List α} {a : α} (mem : a ∈ xs)
    (all : ∀ x ∈ xs, x = a) : xs.eraseDups = [a] := by
  cases xs with
  | nil => cases mem
  | cons x xs =>
    obtain rfl := all x List.mem_cons_self
    have none : xs.filter (fun z => !z == x) = [] := by
      rw [List.filter_eq_nil_iff]
      intro z hz
      simp [all z (List.mem_cons_of_mem _ hz)]
    rw [List.eraseDups_cons, none]
    rfl

theorem otherIncoming_of_mergesOnly (co : f.Coherent) (shaped : f.Shaped)
    (only : f.MergesOnly b v y) : otherIncoming (f.body b) v = [y] := by
  obtain ⟨⟨r, op⟩, hi, hr, pairs, rfl, ⟨p, hp⟩, all⟩ := only.phi
  obtain rfl : r = some v := hr
  have nodup := ((nodup_defined_iff co.nodup).mp shaped.once).1 b only.mem
  unfold otherIncoming
  rw [find?_result nodup hi rfl]
  refine eraseDups_eq_singleton ?_ fun z hz => ?_
  · exact List.mem_filter.mpr ⟨List.mem_map.mpr ⟨_, hp, rfl⟩, by simpa using only.other⟩
  · obtain ⟨mem, ne⟩ := List.mem_filter.mp hz
    obtain ⟨⟨z, q⟩, hq, rfl⟩ := List.mem_map.mp mem
    exact (all z q hq).resolve_left (by simpa using ne)

/-- `g` runs as `f` does. -/
structure Matches (f g : Function) : Prop where
  name : g.name = f.name
  layout : g.layout = f.layout
  values : g.values = f.values
  function : ∀ {σ : Type} [Storage σ] (config : RunConfig) (args : List Value) (s : State σ),
    Alike (runFunction f config args s) (runFunction g config args s)
  main : ∀ {σ : Type} [Storage σ] (config : RunConfig) (args : List String) (s : State σ),
    Alike (runMain f config args s) (runMain g config args s)

namespace Matches

theorem refl (f : Function) : f.Matches f :=
  ⟨rfl, rfl, rfl, fun _ _ _ => .refl _, fun _ _ _ => .refl _⟩

theorem trans (hfg : f.Matches g) (hgh : g.Matches h) : f.Matches h :=
  ⟨hgh.name.trans hfg.name, hgh.layout.trans hfg.layout, hgh.values.trans hfg.values,
    fun config args s => (hfg.function config args s).trans (hgh.function config args s),
    fun config args s => (hfg.main config args s).trans (hgh.main config args s)⟩

end Matches

/-- A merge that may be dropped once it is redundant: it is not defined elsewhere, and the operands
that flow into it have its type. -/
structure Droppable (f : Function) (m : BlockId × ValueId) : Prop where
  mem : m.1 ∈ f.layout
  place : ∀ d ∈ f.layout, m.2 ∈ results (f.body d) → d = m.1
  typed : ∀ d, ∀ i ∈ f.body d, i.result = some m.2 → ∀ z ∈ i.op.operands,
    f.operandType z = f.valueType m.2

theorem name_eraseDefinition : (f.eraseDefinition x).2.name = f.name := by
  unfold eraseDefinition
  split
  · rfl
  · dsimp only
    split <;> rfl

theorem Collapsed.operandType (col : Collapsed f g x y) (z : Operand) :
    g.operandType z = f.operandType z := by
  cases z with
  | const c => rfl
  | value w => exact col.valueType

theorem Droppable.collapsed (h : f.Droppable m) (col : Collapsed f g x y)
    (typed : f.operandType y = f.valueType x) : g.Droppable m where
  mem := col.layout ▸ h.mem
  place d hd hm := h.place d (col.layout ▸ hd) (col.mem_results_iff.1 hm).1
  typed d i hi hr z hz := by
    rw [col.body] at hi
    obtain ⟨j, hj, -, rfl⟩ := mem_collapseBody_iff.1 hi
    have same := h.typed d j hj hr
    rw [Instruction.mapOp, Op.operands_mapOperands] at hz
    obtain ⟨w, hw, rfl⟩ := List.mem_map.mp hz
    rw [col.operandType, col.valueType, ← same w hw]
    unfold Operand.replace
    split
    · next e => rw [e, typed]; rfl
    · rfl

theorem Checked.drop (ok : f.Checked) (h : f.Droppable m) (only : otherIncoming (f.body m.1) m.2 = [y]) :
    Collapsed f ((f.eraseDefinition m.2).2.replaceUses m.2 y) m.2 y ∧
      f.operandType y = f.valueType m.2 ∧ f.MergesOnly m.1 m.2 y ∧
      f.Matches ((f.eraseDefinition m.2).2.replaceUses m.2 y) := by
  have only := mergesOnly_of_otherIncoming h.mem only
  have col := ok.coherent.collapsed ok.wellFormed.toShaped m.2 y
  obtain ⟨i, hi, hr, pairs, hop, ⟨p, hp⟩, -⟩ := only.phi
  have typed : f.operandType y = f.valueType m.2 := by
    refine h.typed m.1 i hi hr y ?_
    rw [hop]
    exact List.mem_map.mpr ⟨_, hp, rfl⟩
  exact ⟨col, typed, only, name_eraseDefinition, col.layout, col.values,
    col.runFunction_alike ok only typed, col.runMain_alike ok only typed name_eraseDefinition⟩

/-- What a pass over some merges comes to. The merges not kept have been dropped. -/
structure Passed (f : Function) (merges : List (BlockId × ValueId)) (g : Function)
    (kept : List (BlockId × ValueId)) : Prop where
  checked : g.Checked
  same : f.Matches g
  kept_sublist : kept.Sublist merges
  dropped : ∀ m ∈ merges, m ∈ kept ∨ ∀ d, m.2 ∉ results (g.body d)
  droppable : ∀ m, f.Droppable m → g.Droppable m
  /-- What is left was there before. -/
  left : ∀ d, ∀ i ∈ g.body d, ∃ j ∈ f.body d, Kindred j i
  stable : kept.length = merges.length → g = f ∧
    ∀ m ∈ merges, ∀ y, otherIncoming (f.body m.1) m.2 ≠ [y]

theorem Collapsed.left (col : Collapsed f g x y) {i : Instruction} (hi : i ∈ g.body d) :
    ∃ j ∈ f.body d, Kindred j i := by
  rw [col.body] at hi
  obtain ⟨j, hj, -, rfl⟩ := mem_collapseBody_iff.1 hi
  exact ⟨j, hj, (SameKind.mapOperands _ j).kindred⟩

theorem not_mem_results_of_left (left : ∀ d, ∀ i ∈ g.body d, ∃ j ∈ f.body d, Kindred j i)
    (gone : v ∉ results (f.body d)) : v ∉ results (g.body d) := by
  intro hv
  obtain ⟨i, hi, hr⟩ := mem_results_iff.1 hv
  obtain ⟨j, hj, same⟩ := left d i hi
  exact gone (mem_results_iff.2 ⟨j, hj, same.result ▸ hr⟩)

theorem foldl_dropRedundant (merges : List (BlockId × ValueId)) (ok : f.Checked)
    (all : ∀ m ∈ merges, f.Droppable m) (front : List (BlockId × ValueId)) :
    ∃ g kept, merges.foldl dropRedundant (f, front) = (g, front ++ kept) ∧ f.Passed merges g kept := by
  induction merges generalizing f front with
  | nil =>
    exact ⟨f, [], by simp, ok, .refl f, .slnil, by simp, fun _ h => h,
      fun _ i hi => ⟨i, hi, .refl i⟩, fun _ => ⟨rfl, by simp⟩⟩
  | cons m merges ih =>
    rw [List.foldl_cons]
    have others : ∀ m' ∈ merges, f.Droppable m' := fun m' hm => all m' (List.mem_cons_of_mem _ hm)
    by_cases redundant : ∃ y, otherIncoming (f.body m.1) m.2 = [y]
    · obtain ⟨y, only⟩ := redundant
      obtain ⟨col, typed, merge, same⟩ := ok.drop (all m List.mem_cons_self) only
      have step : dropRedundant (f, front) m = ((f.eraseDefinition m.2).2.replaceUses m.2 y, front) := by
        simp [dropRedundant, only]
      obtain ⟨g, kept, run, passed⟩ := ih (col.checked merge ok)
        (fun m' hm => (others m' hm).collapsed col typed) front
      refine ⟨g, kept, by rw [step, run], passed.checked, same.trans passed.same,
        passed.kept_sublist.cons m, fun m' hm => ?_,
        fun m' hm => passed.droppable m' (hm.collapsed col typed), fun d i hi => ?_,
        fun e => ?_⟩
      · rcases List.mem_cons.mp hm with rfl | hm
        · exact .inr fun d => not_mem_results_of_left passed.left col.not_mem_results
        · exact passed.dropped m' hm
      · obtain ⟨j, hj, same⟩ := passed.left d i hi
        obtain ⟨j', hj', same'⟩ := col.left hj
        exact ⟨j', hj', same'.trans same⟩
      · have := passed.kept_sublist.length_le
        simp only [List.length_cons] at e
        omega
    · have step : dropRedundant (f, front) m = (f, front ++ [m]) := by
        unfold dropRedundant
        dsimp only
        split
        · next y only => exact absurd ⟨y, only⟩ redundant
        · rfl
      obtain ⟨g, kept, run, passed⟩ := ih ok others (front ++ [m])
      refine ⟨g, m :: kept, by rw [step, run]; simp, passed.checked, passed.same,
        passed.kept_sublist.cons_cons m, fun m' hm => ?_, passed.droppable, passed.left, fun e => ?_⟩
      · rcases List.mem_cons.mp hm with rfl | hm
        · exact .inl List.mem_cons_self
        · exact (passed.dropped m' hm).imp_left (List.mem_cons_of_mem _)
      · obtain ⟨rfl, none⟩ := passed.stable (by simpa using e)
        refine ⟨rfl, fun m' hm y only => ?_⟩
        rcases List.mem_cons.mp hm with rfl | hm
        · exact redundant ⟨y, only⟩
        · exact none m' hm y only

/-- With more passes than merges, no merge of the list is redundant in the end. -/
theorem dropAllRedundant_spec (fuel : Nat) (enough : merges.length < fuel) (ok : f.Checked)
    (all : ∀ m ∈ merges, f.Droppable m) :
    (f.dropAllRedundant fuel merges).Checked ∧ f.Matches (f.dropAllRedundant fuel merges) ∧
      (∀ d, ∀ i ∈ (f.dropAllRedundant fuel merges).body d, ∃ j ∈ f.body d, Kindred j i) ∧
      ∀ m ∈ merges, ∀ d y, ¬ (f.dropAllRedundant fuel merges).MergesOnly d m.2 y := by
  induction fuel generalizing f merges with
  | zero => exact absurd enough (Nat.not_lt_zero _)
  | succ fuel ih =>
    obtain ⟨g, kept, run, passed⟩ := foldl_dropRedundant merges ok all []
    rw [List.nil_append] at run
    unfold dropAllRedundant
    rw [run]
    dsimp only
    split
    · next e =>
      refine ⟨passed.checked, passed.same, passed.left, fun m hm d y only => ?_⟩
      obtain ⟨rfl, none⟩ := passed.stable e
      obtain rfl := (all m hm).place d only.mem only.mem_results
      exact none m hm y (otherIncoming_of_mergesOnly ok.coherent ok.wellFormed.toShaped only)
    · next ne =>
      have shorter : kept.length < merges.length :=
        Nat.lt_of_le_of_ne passed.kept_sublist.length_le ne
      obtain ⟨checked, same, left, none⟩ := ih (by omega) passed.checked fun m hm =>
        passed.droppable m (all m (passed.kept_sublist.subset hm))
      refine ⟨checked, passed.same.trans same, fun d i hi => ?_, fun m hm d y only => ?_⟩
      · obtain ⟨j, hj, kin⟩ := left d i hi
        obtain ⟨j', hj', kin'⟩ := passed.left d j hj
        exact ⟨j', hj', kin'.trans kin⟩
      rcases passed.dropped m hm with hm | gone
      · exact none m hm d y only
      · exact not_mem_results_of_left left (gone d) only.mem_results

end CheckpointRestart.Function
