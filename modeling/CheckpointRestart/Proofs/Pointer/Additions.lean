import CheckpointRestart.Proofs.Pointer.Keys
import CheckpointRestart.Proofs.Program.Writable

/-! # Finding extents keeps functions writable

The casts and merges that are added for the sake of sizes can be written. Only merges use them, so
dropping a merge of sizes changes no type that is inferred. What is dropped is given up: no
instruction and no extent names it any more.
-/

namespace CheckpointRestart

open CheckpointRestart.Function

variable {n : Nat} {known known' : ValueId → Prop} {rank : ValueId → Nat} {f f' : Function} {b : BlockId}
  {v r : ValueId} {map map' : ExtentMap} {s s' : Seeds}

namespace Function

/-- Only merges use values from the `n`th on. -/
def UsesOld (n : Nat) (f : Function) : Prop :=
  ∀ b, ∀ i ∈ f.body b, i.op.isPhi = false → ∀ v ∈ i.op.usedValues, v.index < n

theorem UsesOld.modifyBody {g : List Instruction → List Instruction} (h : f.UsesOld n) (b : BlockId)
    (new : ∀ i ∈ g (f.body b), i ∈ f.body b ∨ i.op.isPhi = true ∨
      ∀ v ∈ i.op.usedValues, v.index < n) : (f.modifyBody b g).UsesOld n := by
  intro c i hi phi
  rcases mem_body_modifyBody hi with hi | hi
  · exact h c i hi phi
  · rcases new i hi with hi | merge | old
    · exact h b i hi phi
    · rw [phi] at merge
      cases merge
    · exact old

theorem Writable.entry_mem {pending : List ValueId} (h : f.Writable known pending rank) :
    f.entry ∈ f.layout := by
  unfold Function.entry
  cases e : f.layout with
  | nil => exact absurd e h.nonempty
  | cons b bs => exact List.mem_cons_self

end Function

/-- Sizes that can be written. The first `n` values were there before any extents were found. -/
structure Extent.Writable (n : Nat) (known : ValueId → Prop) (x : Extent) : Prop where
  width : x.width.Writable known
  count : x.count.Writable known
  source : ∀ s, x.provenance = .derived s → s.index < n
  index : ∀ c, x.index = some c → c.index < n

def ExtentMap.Writable (n : Nat) (known : ValueId → Prop) (map : ExtentMap) : Prop :=
  ∀ (v : ValueId) (x : Extent), map[v]? = some x → x.Writable n known

theorem ExtentMap.Writable.mono (h : map.Writable n known) (imp : ∀ v, known v → known' v) :
    map.Writable n known' := by
  intro v x hx
  have sizes := h v x hx
  exact ⟨sizes.width.mono imp, sizes.count.mono imp, sizes.source, sizes.index⟩

theorem ExtentMap.Writable.insert {x : Extent} (h : map.Writable n known)
    (hx : x.Writable n known) : ExtentMap.Writable n known (map.insert v x) := by
  intro w z hz
  rw [TreeMap.getElem?_insert_iff] at hz
  split at hz
  · cases hz
    exact hx
  · exact h w z hz

/-! ## One look at every pointer -/

/-- What is known of the function while its pointers are looked at. -/
structure Seeds.Writable (n : Nat) (rank : ValueId → Nat) (f : Function) (s : Seeds) : Prop where
  function : f.Writable (fun _ => True) [] rank
  size : n ≤ f.values.size
  old : f.UsesOld n
  map : s.map.Writable n fun _ => True
  derived : ∀ d ∈ s.derived, d.source.index < n ∧ ∀ c, d.index = some c → c.index < n
  placeholders : ∀ r ∈ s.placeholders, n ≤ r.index

namespace Seeds

theorem scalar_of_collect (run : collect f = .ok s f') (co : f.Coherent) {o : BinaryOp} {x y : Operand}
    (hi : ⟨some v, .binary o x y⟩ ∈ f.body b) : (f.valueType v).isPointer = false := by
  rw [collect, run_get_bind, run_bind_eq_ok_iff] at run
  obtain ⟨s₁, f₁, params, run⟩ := run
  rw [run_get_bind] at run
  have ruled : ∀ d ∈ f₁.pointerDefinitions, ∀ o x y, d.2.2 ≠ .binary o x y := by
    refine foldlM_run_induction (fun front _ _ => ∀ d ∈ front, ∀ o x y, d.2.2 ≠ .binary o x y) ?_
      (by simp) run
    rintro front ⟨b, v, op⟩ back - s g s' g' before step d hd o x y e
    rcases List.mem_append.mp hd with hd | hd
    · exact before d hd o x y e
    · obtain rfl := List.mem_singleton.mp hd
      obtain rfl : op = .binary o x y := e
      exact unsupported_ne_ok step
  refine Bool.eq_false_iff.mpr fun pointer => ?_
  have def_ : f.Defines b v (.binary o x y) := ⟨co.mem_layout_of_mem_body hi, hi⟩
  exact ruled (b, v, .binary o x y) ((mem_pointerDefinitions_params params).mpr
    (mem_pointerDefinitions_iff.2 ⟨def_, pointer⟩)) o x y rfl

end Seeds

namespace Seeds.Writable

theorem addExtent {x : Extent} (h : s.Writable n rank f) (hx : x.Writable n fun _ => True) :
    (s.addExtent v x).Writable n rank f :=
  { h with map := h.map.insert hx }

theorem addDerived {d : DerivedSeed} (h : s.Writable n rank f) (source : d.source.index < n)
    (index : ∀ c, d.index = some c → c.index < n) : (s.addDerived d).Writable n rank f := by
  refine { h with derived := fun d' hd' => ?_ }
  rcases List.mem_append.mp hd' with hd' | hd'
  · exact h.derived d' hd'
  · rw [List.mem_singleton.mp hd']
    exact ⟨source, index⟩

variable (pos : ∀ v, 0 < rank v)

include pos

theorem widen {size x : Operand} {position : Nat} {name : String} (h : s.Writable n rank f)
    (identifier : Text.isIdentifier name.toList = true) (hb : b ∈ f.layout)
    (old : ∀ v, size = .value v → v.index < n) (run : Edit.widen size b position name f = .ok x f') :
    s.Writable n rank f' ∧ x.Writable (fun _ => True) ∧ f'.layout = f.layout := by
  rcases widen_run run with ⟨rfl, wide, -⟩ | ⟨w, bits, rfl, type, rfl, rfl⟩
  · cases wide with
    | const => exact ⟨h, Operand.writable_i64 _, rfl⟩
    | same => exact ⟨h, trivial, rfl⟩
    | cast => exact ⟨h, trivial, rfl⟩
  · have grown : (f.newValue name .i64).2.Writable (fun _ => True) [⟨f.values.size⟩] rank :=
      h.function.grows (.newValue f .i64 fun _ => identifier) (by simpa using Ty.legal_i64)
        (fun _ _ => rfl) fun p _ _ => pos p.1
    have code : (f.newValue name .i64).2.WritableInstruction (fun _ => True) rank (f.widening w) := by
      refine .define (fun x hx => ?_) (by simp) ?_ nofun nofun
      · rw [List.mem_singleton.mp hx]
        trivial
      · exact congrArg some valueType_newValue_self.symm
    refine ⟨{ h with function := ?_, size := ?_, old := ?_ }, trivial, rfl⟩
    · exact grown.insert hb code rfl (List.take_append_drop position (f.body b)).symm rfl
    · rw [addWidening, insertAt, values_modifyBody, size_values_newValue]
      exact h.size.trans (Nat.le_succ _)
    · refine UsesOld.modifyBody h.old b fun i hi => ?_
      rcases List.mem_append.mp hi with hi | hi
      · exact .inl (List.mem_of_mem_take hi)
      · rcases List.mem_cons.mp hi with rfl | hi
        · refine .inr (.inr fun v hv => ?_)
          have e : v = w := by simpa [widening, Instruction.define, Op.mem_usedValues_iff, Op.operands] using hv
          exact e ▸ old w rfl
        · exact .inl (List.mem_of_mem_drop hi)

theorem parameter (h : s.Writable n rank f) (given : ∀ p ∈ f.params, p.index < n)
    (run : s.parameter v f = .ok s' f') : s'.Writable n rank f' := by
  rcases parameter_run run with ⟨-, rfl, rfl⟩ | ⟨-, argc, count, params, widen, rfl⟩
  · exact h
  · obtain ⟨now, writable, -⟩ := h.widen pos (h.function.named.valueName_append argc (by decide))
      h.function.entry_mem (fun v e => by cases e; exact given argc (by simp [params])) widen
    exact now.addExtent ⟨Operand.writable_i64 _, writable, nofun, nofun⟩

theorem merge (h : s.Writable n rank f) {incoming : List (Operand × BlockId)} (hb : b ∈ f.layout)
    (run : s.merge b v incoming f = .ok s' f') : s'.Writable n rank f' ∧ f'.layout = f.layout := by
  rw [Seeds.merge, run_get_bind, run_newValue_bind, run_newValue_bind, run_modify_bind,
    size_values_newValue] at run
  obtain ⟨rfl, hf⟩ := run_pure_eq_ok_iff.1 run
  obtain rfl : f.addPlaceholders b (f.valueName v) = f' := hf
  let width : ValueId := ⟨f.values.size⟩
  let count : ValueId := ⟨f.values.size + 1⟩
  let grown := ((f.newValue (f.valueName v ++ ".bits") .i64).2.newValue (f.valueName v ++ ".count") .i64).2
  have size : grown.values.size = f.values.size + 2 := by
    rw [size_values_newValue, size_values_newValue]
  have grows : f.Grows grown [(width, .i64), (⟨(f.newValue (f.valueName v ++ ".bits") .i64).2.values.size⟩, .i64)] :=
    (Grows.newValue_after f v .i64 (by decide)).trans
      (.newValue _ .i64 fun named => named.of_newValue.valueName_append v (by decide))
  rw [size_values_newValue] at grows
  have writable : grown.Writable (fun _ => True) [count, width] rank := by
    refine (h.function.grows grows (fun p hp => ?_) (fun _ _ => rfl) fun p _ _ => pos p.1).settle fun r hr => ?_
    · simp only [List.mem_cons, List.not_mem_nil, or_false] at hp
      rcases hp with rfl | rfl <;> exact Ty.legal_i64
    · simp only [List.map_cons, List.map_nil, List.append_nil, List.mem_cons, List.not_mem_nil,
        or_false] at hr
      exact .inl (by simpa [or_comm] using hr)
  have code (g : Function) {r : ValueId} (lt : r.index < g.values.size) :
      g.WritableInstruction (fun _ => True) rank (placeholder r) :=
    .define (fun x hx => by cases hx) lt rfl (by simp) (by simp)
  have one : (grown.insertFront b (placeholder count)).Writable (fun _ => True) [width] rank :=
    writable.insert hb (code _ (by rw [size]; exact Nat.lt_succ_self _)) rfl (List.nil_append _).symm rfl
  have both : (f.addPlaceholders b (f.valueName v)).Writable (fun _ => True) [] rank :=
    one.insert hb (code _ (by
      rw [insertFront, values_modifyBody, size]
      exact Nat.lt_succ_of_lt (Nat.lt_succ_self _))) rfl (List.nil_append _).symm rfl
  refine ⟨⟨both, ?_, ?_, h.map.insert ⟨trivial, trivial, by simp, by simp⟩, h.derived, fun r hr => ?_⟩, rfl⟩
  · change n ≤ grown.values.size
    rw [size]
    exact h.size.trans (Nat.le_add_right _ _)
  · refine UsesOld.modifyBody (UsesOld.modifyBody h.old b ?_) b ?_
    all_goals
      intro i hi
      rcases List.mem_cons.mp hi with rfl | hi
      · exact .inr (.inl rfl)
      · exact .inl hi
  · rcases TreeSet.mem_insert_iff.1 hr with rfl | hr
    · exact h.size
    · rcases TreeSet.mem_insert_iff.1 hr with rfl | hr
      · exact h.size.trans (Nat.le_succ _)
      · exact h.placeholders r hr

theorem definition {op : Op} (h : s.Writable n rank f) (hb : b ∈ f.layout)
    (old : op.isPhi = false → ∀ v ∈ op.usedValues, v.index < n)
    (run : s.definition (b, v, op) f = .ok s' f') : s'.Writable n rank f' ∧ f'.layout = f.layout := by
  cases definition_run run with
  | alloca => exact ⟨h.addExtent ⟨Operand.writable_i64 _, Operand.writable_i64 _, by simp, by simp⟩, rfl⟩
  | malloc widen =>
    obtain ⟨now, writable, layout⟩ := h.widen pos (h.function.named.valueName_append v (by decide)) hb
      (fun w e => old rfl w (Op.mem_usedValues_iff.2 (by simp [Op.operands, e]))) widen
    exact ⟨now.addExtent ⟨Operand.writable_i64 _, writable, by simp, by simp⟩, layout⟩
  | merge run => exact h.merge pos hb run
  | derived derives =>
    have used := old derives.isPhi
    exact ⟨h.addDerived (used _ derives.source_mem) fun c hc => used c (derives.index_mem hc), rfl⟩

theorem collect (h : f.Writable (fun _ => True) [] rank) (old : f.UsesOld f.values.size)
    (run : Seeds.collect f = .ok s f') : s.Writable f.values.size rank f' := by
  rw [Seeds.collect, run_get_bind, run_bind_eq_ok_iff] at run
  obtain ⟨s₁, f₁, params, run⟩ := run
  rw [run_get_bind] at run
  have start : Seeds.Writable f.values.size rank f ⟨∅, ∅, [], []⟩ :=
    ⟨h, Nat.le_refl _, old, by simp [ExtentMap.Writable], by simp, by simp⟩
  have seeded : s₁.Writable f.values.size rank f₁ ∧ f₁.params = f.params := by
    refine foldlM_run_induction (fun _ s g => s.Writable f.values.size rank g ∧ g.params = f.params) ?_
      ⟨start, rfl⟩ params
    rintro front p back - s g s' g' ⟨now, same⟩ step
    refine ⟨now.parameter pos (fun p hp => h.coherent.params p (same ▸ hp)) step, ?_⟩
    exact (advances_parameter step).params.trans same
  refine (foldlM_run_induction (fun _ s g => s.Writable f.values.size rank g ∧ g.layout = f₁.layout) ?_
    ⟨seeded.1, rfl⟩ run).1
  rintro front ⟨b, v, op⟩ back split s g s' g' ⟨now, same⟩ step
  have mem : (b, v, op) ∈ f₁.pointerDefinitions := by simp [split]
  obtain ⟨⟨hb, hi⟩, -⟩ := mem_pointerDefinitions_iff.1 mem
  obtain ⟨now, layout⟩ := now.definition pos (same ▸ hb) (seeded.1.old b _ hi) step
  exact ⟨now, layout.trans same⟩

end Seeds.Writable

/-! ## Derived pointers -/

namespace ExtentMap.Writable

theorem foldl_derive {waiting : List DerivedSeed} (h : map.Writable n known) (still : List DerivedSeed)
    (old : ∀ d ∈ still ++ waiting, d.source.index < n ∧ ∀ c, d.index = some c → c.index < n) :
    (waiting.foldl derive (map, still)).1.Writable n known ∧
      ∀ d ∈ (waiting.foldl derive (map, still)).2,
        d.source.index < n ∧ ∀ c, d.index = some c → c.index < n := by
  induction waiting generalizing map still with
  | nil => exact ⟨h, by simpa using old⟩
  | cons d waiting ih =>
    rw [List.foldl_cons, derive]
    split
    · next source found =>
      obtain ⟨before, index⟩ := old d (by simp)
      have sizes := h d.source source found
      have now : Extent.Writable n known
          ⟨.derived d.source, source.width, source.count, {d.source}, d.index⟩ := by
        refine ⟨sizes.width, sizes.count, ?_, index⟩
        rintro _ ⟨⟩
        exact before
      refine ih (h.insert now) still fun d' hd' => old d' ?_
      rcases List.mem_append.mp hd' with hd' | hd' <;> simp [hd']
    · exact ih h _ (by simpa using old)

theorem settle (fuel : Nat) {waiting : List DerivedSeed} (h : map.Writable n known)
    (old : ∀ d ∈ waiting, d.source.index < n ∧ ∀ c, d.index = some c → c.index < n) :
    (settle fuel map waiting).1.Writable n known := by
  induction fuel generalizing map waiting with
  | zero => exact h
  | succ fuel ih =>
    obtain ⟨now, left⟩ := h.foldl_derive [] old
    rw [ExtentMap.settle]
    dsimp only
    split
    · exact now
    · exact ih now left

end ExtentMap.Writable

theorem Seeds.Writable.closeDerived (h : s.Writable n rank f) (run : closeDerived s f = .ok map f') :
    f' = f ∧ map.Writable n fun _ => True := by
  obtain ⟨rfl, settled⟩ := closeDerived_run run
  have writable := h.map.settle s.derived.length h.derived
  rw [settled] at writable
  exact ⟨rfl, writable⟩

/-! ## Placeholders -/

/-- A function and the extents of its pointers. Of the values there are, only placeholders may have
been given up. -/
structure Extents.Writable (n : Nat) (known : ValueId → Prop) (rank : ValueId → Nat) (f : Function)
    (e : Extents) : Prop where
  function : f.Writable known [] rank
  map : e.map.Writable n known
  placeholders : ∀ r ∈ e.placeholders, n ≤ r.index
  usesOld : f.UsesOld n
  old : ∀ v, v.index < n → known v
  new : ∀ v, f.values.size ≤ v.index → known v

namespace Extents.Writable

variable {e : Extents} {y : Operand}

theorem setIncoming (h : e.Writable n known rank f) (r : ValueId) {size : Extent → Operand}
    (writable : ∀ x : Extent, x.Writable n known → (size x).Writable known)
    (incoming : List (Operand × BlockId)) :
    e.Writable n known rank (f.setIncoming b r (e.map.sizesIn size incoming)) := by
  have sizes : ∀ z ∈ e.map.sizesIn size incoming, z.1.Writable known := by
    intro z hz
    obtain ⟨⟨x, p⟩, -, rfl⟩ := List.mem_map.mp hz
    cases x with
    | const c => exact Operand.writable_i64 _
    | value v =>
      dsimp only [ExtentMap.sizeOf]
      cases found : e.map[v]? with
      | none => exact Operand.writable_i64 _
      | some x => exact writable x (h.map v x found)
  refine { h with function := ?_, usesOld := ?_ }
  · refine h.function.mapBody b (fun i hi => ?_) fun i => ?_
    · split
      · exact (h.function.code b i hi).phi sizes
      · exact h.function.code b i hi
    · split <;> rfl
  · refine h.usesOld.modifyBody b fun i hi => ?_
    obtain ⟨j, hj, rfl⟩ := List.mem_map.mp hi
    split
    · exact .inr (.inl rfl)
    · exact .inl hj

theorem fillPlaceholders (h : e.Writable n known rank f) {m : MergeSeed}
    (run : fillPlaceholders e.map m f = .ok ⟨⟩ f') : e.Writable n known rank f' := by
  obtain ⟨-, rfl⟩ := fillPlaceholders_run run
  exact (h.setIncoming m.width (fun _ hx => hx.width) _).setIncoming m.count (fun _ hx => hx.count) _

theorem collapse {d : BlockId} (h : e.Writable n known rank f) (hr : r ∈ e.placeholders)
    (only : f.MergesOnly d r y) :
    Extents.Writable n (fun v => known v ∧ v ≠ r) rank ((f.eraseDefinition r).2.replaceUses r y)
      ⟨e.map.replaceSize r y, e.placeholders.erase r⟩ := by
  obtain ⟨i, hi, result, pairs, hop, ⟨p, hp⟩, -⟩ := only.phi
  have code := h.function.code d i hi
  have writable : y.Writable known := by
    refine code.operands y ?_
    rw [hop]
    exact List.mem_map_of_mem hp
  have unused : ∀ c, ∀ j ∈ f.body c, j.op.isPhi = false → r ∉ j.op.usedValues := by
    intro c j hj phi hr'
    exact absurd (h.usesOld c j hj phi r hr') (Nat.not_lt.mpr (h.placeholders r hr))
  have values : ((f.eraseDefinition r).2.replaceUses r y).values = f.values :=
    f.eraseDefinition_frame.2.2.1
  refine ⟨h.function.collapse only.other writable fun c j hj phi hr' => absurd hr' (unused c j hj phi),
    fun v x' hx' => ?_, fun r' hr' => h.placeholders r' (TreeSet.mem_erase_iff.1 hr').2, ?_, ?_, ?_⟩
  · rw [ExtentMap.getElem?_replaceSize] at hx'
    obtain ⟨x, hx, rfl⟩ := Option.map_eq_some_iff.mp hx'
    have sizes := h.map v x hx
    exact ⟨sizes.width.replace only.other writable, sizes.count.replace only.other writable,
      sizes.source, sizes.index⟩
  · intro c j hj phi
    rw [replaceUses, body_mapInstructions] at hj
    obtain ⟨k, hk, rfl⟩ := List.mem_map.mp hj
    have hk := mem_body_eraseDefinition hk
    rw [Instruction.mapOp, Op.isPhi_mapOperands] at phi
    rw [Instruction.mapOp, Op.mapOperands_replace_eq_self (unused c k hk phi)]
    exact h.usesOld c k hk phi
  · intro v old
    refine ⟨h.old v old, ?_⟩
    rintro rfl
    exact absurd old (Nat.not_lt.mpr (h.placeholders v hr))
  · intro v new
    rw [values] at new
    refine ⟨h.new v new, ?_⟩
    rintro rfl
    exact absurd (code.index v result) (Nat.not_lt.mpr new)

theorem collapsePlaceholders (fuel : Nat) (h : e.Writable n known rank f) :
    ∃ known, (collapsePlaceholders fuel e f).1.Writable n known rank
      (collapsePlaceholders fuel e f).2 := by
  induction fuel generalizing e f known with
  | zero => exact ⟨known, h⟩
  | succ fuel ih =>
    rw [CheckpointRestart.collapsePlaceholders]
    cases agreed : agreedPlaceholder? f e.placeholders with
    | none => exact ⟨known, h⟩
    | some pair =>
      obtain ⟨r, y⟩ := pair
      obtain ⟨hr, d, only⟩ := agreedPlaceholder?_eq_some agreed
      exact ih (h.collapse hr only)

theorem closeAliases (h : e.Writable n known rank f) (oracle : AliasOracle) (merged : ValueSet) :
    Extents.Writable n known rank f { e with map := closeAliases oracle merged e.map } := by
  refine { h with map := fun v x' hx' => ?_ }
  have differ : AliasesDiffer merged e.map (CheckpointRestart.closeAliases oracle merged e.map) :=
    AliasClosure.aliasesDiffer_close _ _
  obtain ⟨g, hg, -⟩ := differ v
  obtain ⟨x, hx, rfl⟩ := Option.map_eq_some_iff.mp (hg.symm.trans hx')
  have sizes := h.map v x hx
  exact ⟨sizes.width, sizes.count, sizes.source, sizes.index⟩

/-- A function that can be written can still be written once extents are found. -/
theorem findExtents (pos : ∀ v, 0 < rank v) (h : f.Writable (fun _ => True) [] rank)
    (old : f.UsesOld f.values.size) {oracle : AliasOracle} (run : findExtents oracle f = .ok e f') :
    ∃ known, e.Writable f.values.size known rank f' := by
  obtain ⟨s, f₁, map, f₂, f₃, merged, collected, derived, filled, -, rfl, rfl⟩ := findExtents_run run
  have seeds := Seeds.Writable.collect pos h old collected
  obtain ⟨rfl, writable⟩ := seeds.closeDerived derived
  have start : Extents.Writable f.values.size (fun _ => True) rank f₂ ⟨map, s.placeholders⟩ :=
    ⟨seeds.function, writable, seeds.placeholders, seeds.old, fun _ _ => trivial, fun _ _ => trivial⟩
  have full : Extents.Writable f.values.size (fun _ => True) rank f₃ ⟨map, s.placeholders⟩ := by
    refine forM_run_induction
      (fun _ g => Extents.Writable f.values.size (fun _ => True) rank g ⟨map, s.placeholders⟩) ?_ start filled
    intro front m back split g g' before step
    exact before.fillPlaceholders step
  obtain ⟨known, done⟩ := full.collapsePlaceholders s.placeholders.size
  exact ⟨known, done.closeAliases oracle _⟩

end Extents.Writable

end CheckpointRestart
