import CheckpointRestart.Proofs.Pointer.Extents
import CheckpointRestart.Proofs.Program.Regular

/-! # The pointers that have extents

Finding extents keeps a function regular, whether or not its values are defined before they are
used. The pointers that get extents are values of the function, only parameters get the extent of a
parameter, and every pointer gets one.
-/

namespace CheckpointRestart

open CheckpointRestart.Function

variable {f f' : Function} {map map' : ExtentMap} {s s' : Seeds} {v : ValueId}

/-- All pointers that have extents are values of `f`. -/
structure ExtentMap.Within (f : Function) (map : ExtentMap) : Prop where
  index : ∀ (v : ValueId) x, map[v]? = some x → v.index < f.values.size
  params : ∀ (v : ValueId) x, map[v]? = some x → x.provenance = .parameter → v ∈ f.params

namespace ExtentMap.Within

theorem advances {merged : ValueId → Prop} (h : map.Within f) (step : Advances merged f f') :
    map.Within f' :=
  ⟨fun v x hx => (h.index v x hx).trans_le step.size,
    fun v x hx kind => step.params ▸ h.params v x hx kind⟩

theorem insert (h : map.Within f) {x : Extent} (lt : v.index < f.values.size)
    (given : x.provenance = .parameter → v ∈ f.params) : ExtentMap.Within f (map.insert v x) := by
  have lookup : ∀ w : ValueId, (map.insert v x)[w]? = if w = v then some x else map[w]? :=
    fun w => TreeMap.getElem?_insert_iff
  refine ⟨fun w z hz => ?_, fun w z hz kind => ?_⟩
  · rw [lookup] at hz
    split at hz
    · next e => exact e ▸ lt
    · exact h.index w z hz
  · rw [lookup] at hz
    split at hz
    · next e =>
      cases hz
      exact e ▸ given kind
    · exact h.params w z hz kind

theorem of_provenance (h : map.Within f)
    (same : ∀ (v : ValueId) x', map'[v]? = some x' →
      ∃ x, map[v]? = some x ∧ x'.provenance = x.provenance) : map'.Within f := by
  refine ⟨fun v x' hx' => ?_, fun v x' hx' kind => ?_⟩
  · obtain ⟨x, hx, -⟩ := same v x' hx'
    exact h.index v x hx
  · obtain ⟨x, hx, e⟩ := same v x' hx'
    exact h.params v x hx (e ▸ kind)

theorem closeAliases (h : map.Within f) (oracle : AliasOracle) (merged : ValueSet) :
    (closeAliases oracle merged map).Within f := by
  refine h.of_provenance fun v x' hx' => ?_
  have differ : AliasesDiffer merged map (CheckpointRestart.closeAliases oracle merged map) :=
    AliasClosure.aliasesDiffer_close _ _
  obtain ⟨g, hg, -⟩ := differ v
  obtain ⟨x, hx, rfl⟩ := Option.map_eq_some_iff.mp (hg.symm.trans hx')
  exact ⟨x, hx, rfl⟩

theorem collapsePlaceholders (fuel : Nat) {e : Extents} (h : e.map.Within f) :
    (collapsePlaceholders fuel e f).1.map.Within (collapsePlaceholders fuel e f).2 ∧
      Advances (fun _ => True) f (collapsePlaceholders fuel e f).2 := by
  induction fuel generalizing e f with
  | zero => exact ⟨h, .refl f⟩
  | succ fuel ih =>
    rw [CheckpointRestart.collapsePlaceholders]
    cases agreedPlaceholder? f e.placeholders with
    | none => exact ⟨h, .refl f⟩
    | some pair =>
      obtain ⟨r, y⟩ := pair
      have step : Advances (fun _ => True) f ((f.eraseDefinition r).2.replaceUses r y) :=
        (Advances.eraseDefinition f r).trans (.replaceUses _ r y)
      have within : (e.map.replaceSize r y).Within f := h.of_provenance fun v x' hx' => by
        rw [getElem?_replaceSize] at hx'
        obtain ⟨x, hx, rfl⟩ := Option.map_eq_some_iff.mp hx'
        exact ⟨x, hx, rfl⟩
      obtain ⟨within, rest⟩ := ih (e := ⟨e.map.replaceSize r y, e.placeholders.erase r⟩)
        (within.advances step)
      exact ⟨within, step.trans rest⟩

end ExtentMap.Within

/-! ## Seeds -/

namespace Seeds

/-- All pointers that have extents, or wait for them, are values of `f`. -/
structure Within (f : Function) (s : Seeds) : Prop where
  map : s.map.Within f
  derived : ∀ d ∈ s.derived, d.pointer.index < f.values.size

namespace Within

theorem advances {merged : ValueId → Prop} (h : s.Within f) (step : Advances merged f f') :
    s.Within f' :=
  ⟨h.map.advances step, fun d hd => (h.derived d hd).trans_le step.size⟩

theorem addExtent (h : s.Within f) {x : Extent} (lt : v.index < f.values.size)
    (given : x.provenance = .parameter → v ∈ f.params) : (s.addExtent v x).Within f :=
  ⟨h.map.insert lt given, h.derived⟩

theorem addDerived (h : s.Within f) {d : DerivedSeed} (lt : d.pointer.index < f.values.size) :
    (s.addDerived d).Within f := by
  refine ⟨h.map, fun d' hd' => ?_⟩
  rcases List.mem_append.mp hd' with hd' | hd'
  · exact h.derived d' hd'
  · obtain rfl := List.mem_singleton.mp hd'
    exact lt

end Within

theorem advances_widen {size x : Operand} {b : BlockId} {position : Nat} {name : String}
    (run : Edit.widen size b position name f = .ok x f') : Advances (fun _ => True) f f' := by
  rcases widen_run run with ⟨rfl, -⟩ | ⟨w, bits, -, -, -, rfl⟩
  · exact .refl _
  · exact (Advances.newValue f name .i64).trans
      (.insertAt b position (.define (by simp) rfl fun _ => trivial))

theorem parameter_run (run : s.parameter v f = .ok s' f') :
    ((f.valueType v).isPointer = false ∧ s' = s ∧ f' = f) ∨
      (f.valueType v).isPointer = true ∧ ∃ argc count, f.params = [argc, v] ∧
        Edit.widen (.value argc) f.entry 0 (f.valueName argc ++ ".wide") f = .ok count f' ∧
        s' = s.addExtent v ⟨.parameter, .i64 64, count, {v}, none⟩ := by
  rw [Seeds.parameter, run_get_bind] at run
  split at run
  · next scalar =>
    obtain ⟨rfl, rfl⟩ := run_pure_eq_ok_iff.1 run
    exact .inl ⟨by simpa using scalar, rfl, rfl⟩
  · next pointer =>
    generalize params : f.params = ps at run
    split at run
    · next argc argv =>
      split at run
      · next vector =>
        obtain rfl : v = argv := by simpa using (Bool.and_eq_true_iff.mp vector).2
        obtain ⟨count, g, widen, run⟩ := run_bind_eq_ok_iff.1 run
        obtain ⟨rfl, rfl⟩ := run_pure_eq_ok_iff.1 run
        exact .inr ⟨by simpa using pointer, argc, count, rfl, widen, rfl⟩
      · exact absurd run unsupported_ne_ok
    · exact absurd run unsupported_ne_ok

theorem advances_parameter (run : s.parameter v f = .ok s' f') : Advances (fun _ => True) f f' := by
  rcases parameter_run run with ⟨-, -, rfl⟩ | ⟨-, argc, count, -, widen, -⟩
  · exact .refl _
  · exact advances_widen widen

theorem Within.parameter (h : s.Within f) (run : s.parameter v f = .ok s' f') : s'.Within f' := by
  have step := advances_parameter run
  rcases parameter_run run with ⟨-, rfl, rfl⟩ | ⟨pointer, argc, count, params, -, rfl⟩
  · exact h
  · refine (h.advances step).addExtent ((index_lt_of_isPointer pointer).trans_le step.size) fun _ => ?_
    simp [step.params, params]

theorem isPointer_widen {size x : Operand} {b : BlockId} {position : Nat} {name : String}
    (run : Edit.widen size b position name f = .ok x f') (v : ValueId) :
    (f'.valueType v).isPointer = (f.valueType v).isPointer := by
  rcases widen_run run with ⟨rfl, -⟩ | ⟨w, bits, -, -, -, rfl⟩
  · rfl
  · change ((f.newValue name .i64).2.valueType v).isPointer = _
    rw [valueType_newValue]
    split
    · next e =>
      refine (Bool.eq_false_iff.mpr fun pointer => ?_).symm
      exact absurd (index_lt_of_isPointer pointer) (by simp [e])
    · rfl

theorem mem_pointerDefinitions_widen {size x : Operand} {b : BlockId} {position : Nat} {name : String}
    (run : Edit.widen size b position name f = .ok x f') {d : BlockId × ValueId × Op} :
    d ∈ f'.pointerDefinitions ↔ d ∈ f.pointerDefinitions := by
  obtain ⟨c, v, op⟩ := d
  rw [mem_pointerDefinitions_iff, mem_pointerDefinitions_iff, isPointer_widen run]
  refine and_congr_left fun pointer => ?_
  rcases widen_run run with ⟨rfl, -⟩ | ⟨w, bits, -, -, -, rfl⟩
  · rfl
  · have ne : (⟨some v, op⟩ : Instruction) ≠ f.widening w := by
      rintro ⟨⟩
      exact absurd (index_lt_of_isPointer pointer) (Nat.lt_irrefl _)
    rw [Defines, Defines, Function.addWidening, mem_body_insertAt_iff ne]
    rfl

theorem isPointer_parameter {w : ValueId} (run : s.parameter v f = .ok s' f') :
    (f'.valueType w).isPointer = (f.valueType w).isPointer := by
  rcases parameter_run run with ⟨-, -, rfl⟩ | ⟨-, argc, count, -, widen, -⟩
  · rfl
  · exact isPointer_widen widen w

theorem mem_pointerDefinitions_params {ps : List ValueId}
    (run : ps.foldlM parameter s f = .ok s' f') {d : BlockId × ValueId × Op} :
    d ∈ f'.pointerDefinitions ↔ d ∈ f.pointerDefinitions := by
  refine foldlM_run_induction (fun _ _ g => d ∈ g.pointerDefinitions ↔ d ∈ f.pointerDefinitions) ?_
    Iff.rfl run
  rintro front p back - s g s' g' before step
  refine Iff.trans ?_ before
  rcases parameter_run step with ⟨-, -, rfl⟩ | ⟨-, argc, count, -, widen, -⟩
  · rfl
  · exact mem_pointerDefinitions_widen widen

theorem Within.merge (h : s.Within f) {b : BlockId} {incoming : List (Operand × BlockId)}
    (lt : v.index < f.values.size) (run : s.merge b v incoming f = .ok s' f') :
    s'.Within f' ∧ Advances (fun _ => True) f f' := by
  rw [Seeds.merge, run_get_bind, run_newValue_bind, run_newValue_bind, run_modify_bind,
    size_values_newValue] at run
  obtain ⟨rfl, hf⟩ := run_pure_eq_ok_iff.1 run
  obtain rfl : f.addPlaceholders b (f.valueName v) = f' := hf
  have step : Advances (fun _ => True) f (f.addPlaceholders b (f.valueName v)) := by
    refine ((Advances.newValue f _ .i64).trans (.newValue _ _ .i64)).trans
      ((Advances.insertFront b ?_).trans (.insertFront b ?_))
    · exact .define (by simp) rfl fun _ => trivial
    · refine .define ?_ rfl fun _ => trivial
      simp only [insertFront, values_modifyBody, size_values_newValue]
      omega
  refine ⟨⟨(h.map.advances step).insert (lt.trans_le step.size) fun given => ?_,
    (h.advances step).derived⟩, step⟩
  cases given

theorem Within.definition (h : s.Within f) {b : BlockId} {op : Op} (lt : v.index < f.values.size)
    (run : s.definition (b, v, op) f = .ok s' f') :
    s'.Within f' ∧ Advances (fun _ => True) f f' := by
  cases definition_run run with
  | alloca => exact ⟨h.addExtent lt (fun given => by cases given), .refl _⟩
  | malloc widen =>
    have step := advances_widen widen
    exact ⟨(h.advances step).addExtent (lt.trans_le step.size) (fun given => by cases given), step⟩
  | merge run => exact h.merge lt run
  | derived => exact ⟨h.addDerived lt, .refl f⟩

theorem within_collect (run : collect f = .ok s f') :
    s.Within f' ∧ Advances (fun _ => True) f f' := by
  rw [collect, run_get_bind, run_bind_eq_ok_iff] at run
  obtain ⟨s₁, f₁, params, run⟩ := run
  rw [run_get_bind] at run
  have start : Within f ⟨∅, ∅, [], []⟩ := ⟨⟨by simp, by simp⟩, by simp⟩
  have seeded : s₁.Within f₁ ∧ Advances (fun _ => True) f f₁ := by
    refine foldlM_run_induction (fun _ s g => Within g s ∧ Advances (fun _ => True) f g) ?_
      ⟨start, .refl f⟩ params
    rintro front p back - s g s' g' ⟨within, before⟩ step
    exact ⟨within.parameter step, before.trans (advances_parameter step)⟩
  refine foldlM_run_induction (fun _ s g => Within g s ∧ Advances (fun _ => True) f g ∧
    f₁.values.size ≤ g.values.size) ?_ ⟨seeded.1, seeded.2, Nat.le_refl _⟩ run |>.imp_right And.left
  rintro front d back split s g s' g' ⟨within, before, grown⟩ step
  obtain ⟨b, v, op⟩ := d
  have lt : v.index < f₁.values.size := by
    have mem : (b, v, op) ∈ f₁.pointerDefinitions := by simp [split]
    exact index_lt_of_isPointer (mem_pointerDefinitions_iff.1 mem).2
  obtain ⟨within, now⟩ := within.definition (lt.trans_le grown) step
  exact ⟨within, before.trans now, grown.trans now.size⟩

end Seeds

/-! ## Derived pointers -/

namespace ExtentMap

theorem Within.foldl_derive (h : map.Within f) (still waiting : List DerivedSeed)
    (all : ∀ d ∈ still ++ waiting, d.pointer.index < f.values.size) :
    (waiting.foldl derive (map, still)).1.Within f ∧
      ∀ d ∈ (waiting.foldl derive (map, still)).2, d.pointer.index < f.values.size := by
  induction waiting generalizing map still with
  | nil => exact ⟨h, by simpa using all⟩
  | cons d waiting ih =>
    rw [List.foldl_cons, derive]
    split
    · refine ih (h.insert (all d (by simp)) (by rintro ⟨⟩)) _ fun d' hd' => all d' ?_
      rcases List.mem_append.mp hd' with hd' | hd' <;> simp [hd']
    · exact ih h _ (by simpa using all)

theorem Within.settle (fuel : Nat) {waiting : List DerivedSeed} (h : map.Within f)
    (all : ∀ d ∈ waiting, d.pointer.index < f.values.size) :
    (settle fuel map waiting).1.Within f := by
  induction fuel generalizing map waiting with
  | zero => exact h
  | succ fuel ih =>
    obtain ⟨within, left⟩ := h.foldl_derive [] waiting all
    rw [ExtentMap.settle]
    dsimp only
    split
    · exact within
    · exact ih within left

end ExtentMap

theorem within_closeDerived (h : s.Within f) (run : closeDerived s f = .ok map f') :
    f' = f ∧ map.Within f := by
  obtain ⟨rfl, settled⟩ := closeDerived_run run
  have within := h.map.settle s.derived.length h.derived
  rw [settled] at within
  exact ⟨rfl, within⟩

/-- What finding extents keeps of any function. -/
theorem within_findExtents {oracle : AliasOracle} {e : Extents}
    (run : findExtents oracle f = .ok e f') :
    e.map.Within f' ∧ Advances (fun _ => True) f f' := by
  obtain ⟨s, f₁, map, f₂, f₃, merged, collected, derived, filled, -, rfl, rfl⟩ := findExtents_run run
  obtain ⟨within, step₁⟩ := Seeds.within_collect collected
  obtain ⟨rfl, within⟩ := within_closeDerived within derived
  have step₂ : Advances (fun _ => True) f₂ f₃ := by
    refine forM_run_induction (fun _ g => Advances (fun _ => True) f₂ g) ?_ (.refl f₂) filled
    intro front m back split g g' before step
    obtain ⟨-, rfl⟩ := fillPlaceholders_run step
    exact before.trans ((Advances.setIncoming g _ _ _).trans (.setIncoming _ _ _ _))
  obtain ⟨within, step₃⟩ := (within.advances step₂).collapsePlaceholders s.placeholders.size
    (e := ⟨map, s.placeholders⟩)
  exact ⟨within.closeAliases oracle _, (step₁.trans step₂).trans step₃⟩

/-! ## Every pointer has an extent -/

namespace Seeds

/-- The pointer has its extent, or waits for it. -/
def Known (s : Seeds) (v : ValueId) : Prop :=
  v ∈ s.map ∨ v ∈ s.derived.map (·.pointer)

variable {w : ValueId}

theorem known_addExtent {x : Extent} : (s.addExtent v x).Known w ↔ w = v ∨ s.Known w := by
  rw [Known, addExtent, TreeMap.mem_insert_iff, or_assoc]
  rfl

theorem known_addDerived {d : DerivedSeed} :
    (s.addDerived d).Known w ↔ w = d.pointer ∨ s.Known w := by
  simp only [Known, addDerived, List.map_append, List.map_cons, List.map_nil, List.mem_append,
    List.mem_singleton]
  grind

theorem known_definition {b : BlockId} {op : Op} (run : s.definition (b, v, op) f = .ok s' f') :
    s'.Known w ↔ w = v ∨ s.Known w := by
  cases definition_run run with
  | alloca => exact known_addExtent
  | malloc => exact known_addExtent
  | merge run =>
    rw [Seeds.merge, run_get_bind, run_newValue_bind, run_newValue_bind, run_modify_bind] at run
    obtain ⟨rfl, -⟩ := run_pure_eq_ok_iff.1 run
    rw [Known, TreeMap.mem_insert_iff, or_assoc]
    rfl
  | derived => exact known_addDerived

theorem known_params {ps : List ValueId} (run : ps.foldlM parameter s f = .ok s' f') :
    ∀ p ∈ ps, (f.valueType p).isPointer = true → s'.Known p := by
  refine (foldlM_run_induction (fun front s g =>
    (∀ p ∈ front, (f.valueType p).isPointer = true → s.Known p) ∧
      ∀ v, (g.valueType v).isPointer = (f.valueType v).isPointer) ?_ ⟨by simp, fun _ => rfl⟩ run).1
  rintro front q back - s g s' g' ⟨before, types⟩ step
  refine ⟨fun p hp pointer => ?_, fun v => (isPointer_parameter step).trans (types v)⟩
  rcases parameter_run step with ⟨scalar, rfl, -⟩ | ⟨-, argc, count, -, -, rfl⟩
  · rcases List.mem_append.mp hp with hp | hp
    · exact before p hp pointer
    · rw [types, ← List.mem_singleton.mp hp, pointer] at scalar
      cases scalar
  · rw [known_addExtent]
    rcases List.mem_append.mp hp with hp | hp
    · exact .inr (before p hp pointer)
    · exact .inl (List.mem_singleton.mp hp)

theorem known_collect (run : collect f = .ok s f') (source : v ∈ f.params ∨ ∃ b op, f.Defines b v op)
    (pointer : (f.valueType v).isPointer = true) : s.Known v := by
  rw [collect, run_get_bind, run_bind_eq_ok_iff] at run
  obtain ⟨s₁, f₁, params, run⟩ := run
  rw [run_get_bind] at run
  have all : (∀ w, s₁.Known w → s.Known w) ∧ ∀ w ∈ f₁.pointerDefinitions.map (·.2.1), s.Known w := by
    refine foldlM_run_induction (fun front s _ => (∀ w, s₁.Known w → s.Known w) ∧
      ∀ w ∈ front.map (·.2.1), s.Known w) ?_ ⟨fun _ => id, by simp⟩ run
    rintro front ⟨b, u, op⟩ back - s g s' g' ⟨kept, known⟩ step
    refine ⟨fun w hw => (known_definition step).mpr (.inr (kept w hw)), fun w hw => ?_⟩
    rw [known_definition step]
    simp only [List.map_append, List.map_cons, List.map_nil, List.mem_append,
      List.mem_singleton] at hw
    exact hw.symm.imp_right (known w)
  rcases source with given | ⟨b, op, def_⟩
  · exact all.1 v (known_params params v given pointer)
  · exact all.2 v (List.mem_map.mpr ⟨_, (mem_pointerDefinitions_params params).mpr
      (mem_pointerDefinitions_iff.2 ⟨def_, pointer⟩), rfl⟩)

end Seeds

namespace ExtentMap

theorem mem_foldl_derive (still waiting : List DerivedSeed)
    (h : v ∈ map ∨ v ∈ (still ++ waiting).map (·.pointer)) :
    v ∈ (waiting.foldl derive (map, still)).1 ∨
      v ∈ (waiting.foldl derive (map, still)).2.map (·.pointer) := by
  induction waiting generalizing map still with
  | nil => simpa using h
  | cons d waiting ih =>
    rw [List.foldl_cons, derive]
    split
    · refine ih still ?_
      rw [TreeMap.mem_insert_iff]
      simp only [List.map_append, List.map_cons, List.mem_append, List.mem_cons] at h ⊢
      grind
    · exact ih _ (by simpa using h)

theorem mem_settle (fuel : Nat) {waiting : List DerivedSeed}
    (h : v ∈ map ∨ v ∈ waiting.map (·.pointer)) :
    v ∈ (settle fuel map waiting).1 ∨ v ∈ (settle fuel map waiting).2.map (·.pointer) := by
  induction fuel generalizing map waiting with
  | zero => exact h
  | succ fuel ih =>
    have pass := mem_foldl_derive [] waiting h
    rw [ExtentMap.settle]
    dsimp only
    split
    · exact pass
    · exact ih pass

end ExtentMap

theorem mem_closeDerived (h : s.Known v) (run : closeDerived s f = .ok map f') : v ∈ map := by
  have known := ExtentMap.mem_settle s.derived.length h
  rw [(closeDerived_run run).2] at known
  exact known.resolve_right (by simp)

theorem mem_collapsePlaceholders (fuel : Nat) {e : Extents} (h : v ∈ e.map) :
    v ∈ (collapsePlaceholders fuel e f).1.map := by
  induction fuel generalizing e f with
  | zero => exact h
  | succ fuel ih =>
    rw [collapsePlaceholders]
    cases agreedPlaceholder? f e.placeholders with
    | none => exact h
    | some pair =>
      exact ih (e := ⟨e.map.replaceSize pair.1 pair.2, _⟩) (ExtentMap.mem_replaceSize_iff.2 h)

theorem AliasesDiffer.mem {merged : ValueSet} (differ : AliasesDiffer merged map map') (h : v ∈ map) :
    v ∈ map' := by
  obtain ⟨g, hg, -⟩ := differ v
  rw [Std.ExtTreeMap.mem_iff_isSome_getElem?] at h ⊢
  rwa [hg, Option.isSome_map]

/-- Where extents are found, every pointer has one. -/
theorem mem_findExtents {oracle : AliasOracle} {e : Extents}
    (run : findExtents oracle f = .ok e f') (source : v ∈ f.params ∨ ∃ b op, f.Defines b v op)
    (pointer : (f.valueType v).isPointer = true) : v ∈ e.map := by
  obtain ⟨s, f₁, map, f₂, f₃, merged, collected, derived, filled, -, rfl, rfl⟩ := findExtents_run run
  have known := Seeds.known_collect collected source pointer
  exact AliasesDiffer.mem (AliasClosure.aliasesDiffer_close _ _)
    (mem_collapsePlaceholders _ (mem_closeDerived known derived))

end CheckpointRestart
