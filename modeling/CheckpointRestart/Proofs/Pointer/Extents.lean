import CheckpointRestart.Proofs.Pointer.Sizes

/-! # The extents of a function

What is found in the end: the function has additions only, it is still well-formed and strict, and
every extent has a known origin and sizes that are at hand wherever its pointer is.
-/

namespace CheckpointRestart

namespace Function

variable {f₀ f f' : Function} {b d : BlockId} {r v : ValueId} {y : Operand} {i : Instruction}
  {n : Nat}

/-! ## Merges of one operand -/

theorem mem_definitions_of_definition? {l : Location} (h : f.definition? v = some l) :
    f.DefinedAt v l := by
  obtain ⟨⟨w, l'⟩, found, rfl⟩ := Option.map_eq_some_iff.mp h
  obtain rfl : w = v := by simpa using List.find?_some found
  exact mem_definitions_iff.1 (List.mem_reverse.mp (List.mem_of_find?_eq_some found))

theorem mergesOnly_of_otherIncoming (hb : b ∈ f.layout)
    (h : otherIncoming (f.body b) v = [y]) : f.MergesOnly b v y := by
  unfold otherIncoming at h
  split at h
  · next w pairs found =>
    have hr : w = some v := by simpa using List.find?_some found
    have flows : ∀ z, z ∈ (pairs.map (·.1)).filter (· ≠ .value v) ↔ z = y := by
      intro z
      rw [← List.mem_eraseDups, h, List.mem_singleton]
    have hy := (flows y).mpr rfl
    rw [List.mem_filter, List.mem_map] at hy
    obtain ⟨⟨⟨_, p⟩, hp, rfl⟩, ne⟩ := hy
    refine ⟨hb, ⟨_, List.mem_of_find?_eq_some found, hr, pairs, rfl, ⟨p, hp⟩, fun z q hz => ?_⟩,
      by simpa using ne⟩
    by_cases e : z = .value v
    · exact .inl e
    · exact .inr ((flows z).mp (List.mem_filter.mpr
        ⟨List.mem_map.mpr ⟨_, hz, rfl⟩, by simpa using e⟩))
  · cases h

theorem MergesOnly.defines (h : f.MergesOnly d r y) : ∃ pairs, f.Defines d r (.phi pairs) ∧
    (∃ p, (y, p) ∈ pairs) ∧ ∀ z p, (z, p) ∈ pairs → z = .value r ∨ z = y := by
  obtain ⟨⟨_, _⟩, hi, rfl, pairs, rfl, rest⟩ := h.phi
  exact ⟨pairs, ⟨h.mem, hi⟩, rest⟩

/-! ## Dropping an added merge -/

theorem head?_dropWhile_collapseBody {is : List Instruction}
    (phi : ∀ i ∈ is, i.result = some r → i.op.isPhi = true) :
    ((collapseBody r y is).dropWhile (·.op.isPhi)).head? =
      (is.dropWhile (·.op.isPhi)).head?.map (Instruction.mapOp (Op.mapOperands (.replace r y))) := by
  induction is with
  | nil => rfl
  | cons i is ih =>
    have rest := ih fun k hk => phi k (List.mem_cons_of_mem _ hk)
    by_cases hr : i.result = some r
    · rw [collapseBody_cons_of_eq hr, List.dropWhile_cons, if_pos (phi i List.mem_cons_self hr),
        rest]
    · rw [collapseBody_cons_of_ne hr, List.dropWhile_cons, List.dropWhile_cons]
      simp only [Instruction.mapOp, Op.isPhi_mapOperands]
      split
      · exact rest
      · rfl

theorem Draft.type_of_mergesOnly {pending : ValueSet} {w : ValueId} (h : Draft f₀ f pending)
    (only : f.MergesOnly d r (.value w)) (new : f₀.values.size ≤ r.index) :
    f.valueType w = .i64 := by
  obtain ⟨pairs, defines, ⟨p, hp⟩, -⟩ := only.defines
  have not_original : ¬ Original f₀.values.size ⟨some r, .phi pairs⟩ :=
    fun o => absurd (o r rfl) (by omega)
  rcases (h.added d _ defines.2 not_original).op with ⟨_, _, hop, _⟩ | ⟨qs, hop, types⟩
  · cases hop
  · cases hop
    exact types w p hp

theorem Draft.collapsed (h : Draft f₀ f ∅) (shaped₀ : f₀.Shaped) (col : Collapsed f f' r y)
    (only : f.MergesOnly d r y) (new : f₀.values.size ≤ r.index) : Draft f₀ f' ∅ := by
  have wf : f.WellFormed := ⟨h.shaped, fun b hb i hi => h.merges b hb i hi (by simp)⟩
  have wf' := col.wellFormed only h.coherent wf
  obtain ⟨pairs, defines, -⟩ := only.defines
  refine ⟨col.coherent, wf'.toShaped, col.strict only wf h.strict, col.layout.trans h.layout,
    col.params.trans h.params, col.values ▸ h.size, fun v hv => ?_, fun b => ?_,
    fun b i hi hn => ?_, fun b i hi hn w hw => ?_, fun b hb i hi _ => wf'.merges b hb i hi,
    fun b i hi phi => ?_, fun b hb ne i hi => ?_⟩
  · rw [col.valueType, h.types v hv]
  · have fixed : ∀ i ∈ f₀.body b, i.mapOp (Op.mapOperands (.replace r y)) = i := by
      intro i hi
      obtain ⟨hi, o⟩ := h.mem_body_iff.1 hi
      refine congrArg (Instruction.mk i.result) (Op.mapOperands_replace_eq_self fun hr => ?_)
      exact absurd (h.original_operand shaped₀ hi o hr) (by omega)
    have same : (f.body b).filter (fun i => decide (Original f₀.values.size
          (i.mapOp (Op.mapOperands (.replace r y)))) && decide (i.result ≠ some r)) = f₀.body b := by
      refine (List.filter_congr fun i _ => ?_).trans (h.kept b)
      rw [Bool.eq_iff_iff, Bool.and_eq_true, decide_eq_true_eq, decide_eq_true_eq,
        decide_eq_true_eq]
      exact ⟨fun o => o.1, fun o => ⟨o, fun e => absurd (o r e) (by omega)⟩⟩
    rw [col.body, collapseBody, List.filter_map, List.filter_filter]
    exact (congrArg _ same).trans ((List.map_congr_left fixed).trans (List.map_id _))
  · rw [col.body] at hi
    obtain ⟨k, hk, -, rfl⟩ := mem_collapseBody_iff.1 hi
    obtain ⟨⟨q, hq, tq⟩, op⟩ := h.added b k hk hn
    refine ⟨⟨q, hq, col.valueType.trans tq⟩, op.imp ?_ ?_⟩
    · rintro ⟨w, bits, hop, hw, tw⟩
      refine ⟨w, bits, ?_, hw, col.valueType.trans tw⟩
      have : Operand.value w ≠ .value r := fun e => by
        cases e
        omega
      simp [Instruction.mapOp, hop, Op.mapOperands, Operand.replace, this]
    · rintro ⟨qs, hop, types⟩
      refine ⟨_, by rw [Instruction.mapOp, hop, Op.mapOperands], fun w q hw => ?_⟩
      obtain ⟨⟨z, q'⟩, hz, e⟩ := List.mem_map.mp hw
      obtain ⟨replaced, rfl⟩ := Prod.mk.inj e
      rw [col.valueType]
      rcases Operand.replace_eq_value_iff.1 replaced with ⟨-, hy⟩ | ⟨rfl, -⟩
      · subst hy
        exact h.type_of_mergesOnly only new
      · exact types w q' hz
  · rw [col.body] at hi
    obtain ⟨k, hk, hr, rfl⟩ := mem_collapseBody_iff.1 hi
    obtain ⟨w', hop, old⟩ : ∃ w', k.op = .cast (.value w') .i64 ∧ w'.index < f₀.values.size := by
      rcases (h.added b k hk hn).op with ⟨w', _, hop, old, -⟩ | ⟨_, hop, -⟩
      · exact ⟨w', hop, old⟩
      · simp [Instruction.mapOp, hop, Op.mapOperands] at hw
    have other : Operand.replace r y (.value w') = .value w' := if_neg fun e => by
      cases e
      omega
    obtain rfl : w' = w := by simpa [Instruction.mapOp, hop, Op.mapOperands, other] using hw
    refine (h.asked b k hk hn w' hop).imp_right ?_
    rintro ⟨v, hv⟩
    refine ⟨v, ?_⟩
    -- neither the allocation nor the cast is the merge that is dropped
    have ne : v ≠ r := by
      rintro rfl
      have mem : ⟨some v, .malloc (.value w')⟩ ∈ f.body b := hv.subset (by simp)
      cases (defines.unique h.shaped (h.coherent.mem_layout_of_mem_body mem) mem rfl).2
    have both := (hv.filter fun i => decide (i.result ≠ some r)).map
      (Instruction.mapOp (Op.mapOperands (.replace r y)))
    rw [col.body]
    simpa [collapseBody, ne, hr, Instruction.mapOp, Op.mapOperands, other] using both
  · rw [col.body] at hi
    obtain ⟨k, hk, -, rfl⟩ := mem_collapseBody_iff.1 hi
    exact h.merging b k hk (by simpa [Instruction.mapOp] using phi)
  · have phi : ∀ i ∈ f.body b, i.result = some r → i.op.isPhi = true := by
      intro i hi hr
      obtain ⟨-, rfl⟩ := defines.unique h.shaped (col.layout ▸ hb) hi hr
      rfl
    rw [col.body, head?_dropWhile_collapseBody phi] at hi
    obtain ⟨k, hk, rfl⟩ := Option.map_eq_some_iff.mp hi
    exact h.first b (col.layout ▸ hb) (col.entry ▸ ne) k hk

theorem Defines.collapsed {op : Op} (h : f.Defines b v op) (col : Collapsed f f' r y) (ne : v ≠ r) :
    f'.Defines b v (op.mapOperands (.replace r y)) := by
  refine ⟨col.layout ▸ h.1, ?_⟩
  rw [col.body]
  exact mem_collapseBody_iff.2 ⟨_, h.2, fun e => ne (Option.some.inj e), rfl⟩

theorem Widened.collapsed {size count : Operand} (h : f.Widened size count)
    (col : Collapsed f f' r y) (only : f.MergesOnly d r y) (shaped : f.Shaped)
    (range : ∀ w, size = .value w → w ≠ r) :
    Operand.replace r y count = count ∧ f'.Widened size count := by
  cases h with
  | const => exact ⟨rfl, .const⟩
  | @same w t =>
    refine ⟨if_neg fun e => range w rfl (Operand.value.inj e), .same (col.valueType.trans t)⟩
  | @cast w wide c def_ =>
    obtain ⟨pairs, defines, -⟩ := only.defines
    have ne : wide ≠ r := by
      rintro rfl
      exact nomatch (defines.unique shaped def_.1 def_.2 rfl).2
    refine ⟨if_neg fun e => ne (Operand.value.inj e), .cast (b := c) ?_⟩
    have := def_.collapsed col ne
    rwa [Op.mapOperands, Operand.replace, if_neg] at this
    exact fun e => range w rfl (Operand.value.inj e)

theorem settled_collapsed {x : Extent} (h : x.Settled f₀ f v) (co₀ : f₀.Coherent)
    (shaped₀ : f₀.Shaped) (col : Collapsed f f' r y) (only : f.MergesOnly d r y) (wf : f.WellFormed)
    (strict : f.Strict) (new : f₀.values.size ≤ r.index)
    (type : ∀ w, y = .value w → f.valueType w = .i64) :
    (x.mapSizes (.replace r y)).Settled f₀ f' v := by
  have old : ∀ w : ValueId, w.index < f₀.values.size → w ≠ r := by
    rintro w hw rfl
    omega
  have ne : v ≠ r := old v (index_lt_of_isPointer h.pointer)
  refine ⟨?_, h.pointer, fun c hc => ?_⟩
  · cases h.origin with
    | @parameter argc count params wide =>
      obtain ⟨same, wide⟩ := wide.collapsed col only wf.toShaped fun w hw => by
        cases hw
        exact old argc (co₀.params argc (by simp [params]))
      rw [Extent.mapSizes, same]
      exact .parameter params wide
    | alloca def_ => exact .alloca def_
    | @malloc b bytes count def_ wide =>
      obtain ⟨same, wide⟩ := wide.collapsed col only wf.toShaped fun w hw => by
        subst hw
        exact old w ((shaped₀.fits b def_.1 _ def_.2).operands w
          (by simp [Op.mem_usedValues_iff, Op.operands]))
      rw [Extent.mapSizes, same]
      exact .malloc def_ wide
    | merge def_ => exact .merge def_
    | derived def_ der => exact .derived def_ der
  · -- a size that is not the merge stays, and the merge gives way to its operand
    obtain ⟨z, hz, e⟩ : ∃ z ∈ [x.width, x.count], Operand.replace r y z = .value c := by
      obtain ⟨z, hz, e⟩ := List.mem_filterMap.mp hc
      cases z with
      | const k => cases e
      | value w =>
        cases e
        simpa [Extent.mapSizes, eq_comm] using hz
    have size : ∀ w, z = .value w → w ∈ x.sizeValues := by
      rintro w rfl
      exact List.mem_filterMap.mpr ⟨_, hz, rfl⟩
    rcases Operand.replace_eq_value_iff.1 e with ⟨hz, rfl⟩ | ⟨hz, hc⟩
    · obtain ⟨cover, -⟩ := h.sizes r (size r hz)
      exact ⟨cover.collapsed_operand col only wf strict ne, col.valueType.trans (type c rfl)⟩
    · obtain ⟨cover, t⟩ := h.sizes c (size c hz)
      exact ⟨cover.collapsed col only wf.toShaped hc ne, col.valueType.trans t⟩

end Function

namespace ExtentMap

variable {f₀ f f' : Function} {map : ExtentMap} {b d : BlockId} {r : ValueId} {y : Operand}
  {incoming : List (Operand × BlockId)} {size : Extent → Operand}

/-- The extents with `y` in place of the size `r`. -/
def replaceSize (map : ExtentMap) (r : ValueId) (y : Operand) : ExtentMap :=
  map.map fun _ x => x.mapSizes (.replace r y)

theorem getElem?_replaceSize {v : ValueId} :
    (map.replaceSize r y)[v]? = (map[v]?).map (·.mapSizes (.replace r y)) :=
  Std.ExtTreeMap.getElem?_map

theorem mem_replaceSize_iff {v : ValueId} : v ∈ map.replaceSize r y ↔ v ∈ map := by
  rw [Std.ExtTreeMap.mem_iff_isSome_getElem?, getElem?_replaceSize, Option.isSome_map,
    Std.ExtTreeMap.mem_iff_isSome_getElem?]

theorem Sound.collapsed (h : map.Sound f₀ f) (co₀ : f₀.Coherent) (shaped₀ : f₀.Shaped)
    (col : f.Collapsed f' r y) (only : f.MergesOnly d r y) (wf : f.WellFormed) (strict : f.Strict)
    (new : f₀.values.size ≤ r.index) (type : ∀ w, y = .value w → f.valueType w = .i64) :
    (map.replaceSize r y).Sound f₀ f' := by
  refine ⟨fun v x hx => ?_, fun v x source hx derived => ?_⟩
  · rw [getElem?_replaceSize] at hx
    obtain ⟨x, known, rfl⟩ := Option.map_eq_some_iff.mp hx
    exact Function.settled_collapsed (h.settled v x known) co₀ shaped₀ col only wf strict new type
  · rw [getElem?_replaceSize] at hx
    obtain ⟨x, known, rfl⟩ := Option.map_eq_some_iff.mp hx
    obtain ⟨z, hz, hw, hc⟩ := h.derived v x source known derived
    refine ⟨z.mapSizes (.replace r y), by rw [getElem?_replaceSize, hz]; rfl, ?_, ?_⟩
    · exact congrArg (Operand.replace r y) hw
    · exact congrArg (Operand.replace r y) hc

/-- A size of a merged pointer: a merge of the sizes that come in, or the one size they all have. -/
def MergedSize (f : Function) (map : ExtentMap) (b : BlockId)
    (incoming : List (Operand × BlockId)) (size : Extent → Operand) (z : Operand) : Prop :=
  (∃ r, z = .value r ∧ f.Defines b r (.phi (map.sizesIn size incoming))) ∨
    ∀ x p, (x, p) ∈ incoming → map.sizeOf size x = z

theorem sizeOf_replaceSize (hsize : ∀ x, size (x.mapSizes (.replace r y)) = .replace r y (size x))
    (x : Operand) : (map.replaceSize r y).sizeOf size x = .replace r y (map.sizeOf size x) := by
  cases x with
  | const c => rfl
  | value v =>
    rw [sizeOf, getElem?_replaceSize, sizeOf]
    cases map[v]? with
    | none => rfl
    | some x => exact hsize x

theorem MergedSize.collapsed {z : Operand} (h : MergedSize f map b incoming size z)
    (hsize : ∀ x, size (x.mapSizes (.replace r y)) = .replace r y (size x))
    (col : f.Collapsed f' r y) (only : f.MergesOnly d r y) (shaped : f.Shaped) :
    MergedSize f' (map.replaceSize r y) b incoming size (.replace r y z) := by
  rcases h with ⟨q, rfl, def_⟩ | same
  · by_cases e : q = r
    · subst e
      obtain ⟨pairs, defines, -, all⟩ := only.defines
      obtain ⟨-, e⟩ := defines.unique shaped def_.1 def_.2 rfl
      obtain rfl : map.sizesIn size incoming = pairs := by simpa using e
      refine .inr fun x p hx => ?_
      rw [sizeOf_replaceSize hsize]
      rcases all _ p (List.mem_map.mpr ⟨_, hx, rfl⟩) with e | e
      · rw [e]
      · rw [e]
        simp [Operand.replace]
    · refine .inl ⟨q, if_neg fun h => e (Operand.value.inj h), ?_⟩
      have := def_.collapsed col e
      rw [Op.mapOperands] at this
      convert this using 2
      simp only [sizesIn, List.map_map]
      refine List.map_congr_left fun z _ => ?_
      simp [sizeOf_replaceSize hsize]
  · exact .inr fun x p hx => by rw [sizeOf_replaceSize hsize, same x p hx]

end ExtentMap

/-! ## The state while placeholders are dropped -/

/-- Where a merged pointer comes from and what its sizes are. -/
structure MergedExtent (f₀ f : Function) (map : ExtentMap) (v : ValueId) (x : Extent) : Prop where
  merge : ∃ b incoming, f₀.Defines b v (.phi incoming) ∧
    (∀ z p, (.value z, p) ∈ incoming → z ∈ map) ∧
    map.MergedSize f b incoming (·.width) x.width ∧ map.MergedSize f b incoming (·.count) x.count

theorem Extent.mem_sizeValues_mapSizes {x : Extent} {g : Operand → Operand} {c : ValueId}
    (h : c ∈ x.sizeValues) (same : g (.value c) = .value c) : c ∈ (x.mapSizes g).sizeValues := by
  obtain ⟨z, hz, e⟩ := List.mem_filterMap.mp h
  have value : z = .value c := by
    cases z <;> simp_all [Operand.value?]
  subst value
  refine List.mem_filterMap.mpr ⟨.value c, ?_, rfl⟩
  simp only [List.mem_cons, List.not_mem_nil, or_false] at hz ⊢
  rcases hz with hz | hz
  · exact .inl (by rw [mapSizes, ← hz, same])
  · exact .inr (by rw [mapSizes, ← hz, same])

/-- A function with additions and the extents of its pointers. -/
structure Prepared (f₀ f : Function) (map : ExtentMap) : Prop where
  draft : f₀.Draft f ∅
  sound : map.Sound f₀ f
  merged : ∀ (v : ValueId) (x : Extent), map[v]? = some x → x.provenance = .merge →
    MergedExtent f₀ f map v x
  /-- A merge that was added merges the sizes of a pointer that its block merges. -/
  added : ∀ b, ∀ i ∈ f.body b, ¬ Function.Original f₀.values.size i → i.op.isPhi = true →
    ∃ v x incoming r, f₀.Defines b v (.phi incoming) ∧ map[v]? = some x ∧ i.result = some r ∧
      r ∈ x.sizeValues

namespace Prepared

variable {f₀ f f' : Function} {map : ExtentMap} {d : BlockId} {r : ValueId} {y : Operand}

theorem wellFormed (h : Prepared f₀ f map) : f.WellFormed :=
  ⟨h.draft.shaped, fun b hb i hi => h.draft.merges b hb i hi (by simp)⟩

theorem collapsed (h : Prepared f₀ f map) (co₀ : f₀.Coherent) (shaped₀ : f₀.Shaped)
    (col : f.Collapsed f' r y) (only : f.MergesOnly d r y) (new : f₀.values.size ≤ r.index) :
    Prepared f₀ f' (map.replaceSize r y) := by
  have type : ∀ w, y = .value w → f.valueType w = .i64 := by
    rintro w rfl
    exact h.draft.type_of_mergesOnly only new
  refine ⟨h.draft.collapsed shaped₀ col only new, h.sound.collapsed co₀ shaped₀ col only
    h.wellFormed h.draft.strict new type, fun v x hx merge => ?_, fun b i hi added phi => ?_⟩
  · rw [ExtentMap.getElem?_replaceSize] at hx
    obtain ⟨x, known, rfl⟩ := Option.map_eq_some_iff.mp hx
    obtain ⟨b, incoming, def_, all, width, count⟩ := (h.merged v x known merge).merge
    exact ⟨b, incoming, def_, fun z p hz => ExtentMap.mem_replaceSize_iff.2 (all z p hz),
      width.collapsed (fun _ => rfl) col only h.draft.shaped,
      count.collapsed (fun _ => rfl) col only h.draft.shaped⟩
  · rw [col.body] at hi
    obtain ⟨k, hk, ne, rfl⟩ := mem_collapseBody_iff.1 hi
    obtain ⟨v, x, incoming, q, def_, known, hq, size⟩ :=
      h.added b k hk added (by simpa [Instruction.mapOp] using phi)
    have now := (ExtentMap.getElem?_replaceSize (r := r) (y := y)).trans (congrArg _ known)
    refine ⟨v, _, incoming, q, def_, now, hq, ?_⟩
    refine Extent.mem_sizeValues_mapSizes size ?_
    exact if_neg fun e => ne (by cases e; exact hq)

end Prepared

theorem agreedPlaceholder?_eq_some {f : Function} {placeholders : ValueSet} {r : ValueId}
    {y : Operand} (h : agreedPlaceholder? f placeholders = some (r, y)) :
    r ∈ placeholders ∧ ∃ d, f.MergesOnly d r y := by
  obtain ⟨v, hv, found⟩ := List.exists_of_findSome?_eq_some h
  obtain ⟨l, hl, found⟩ := Option.bind_eq_some_iff.mp found
  split at found
  · next x agreed =>
    cases found
    have defined := Function.mem_definitions_of_definition? hl
    exact ⟨Std.ExtTreeSet.mem_toList.mp hv, l.block,
      Function.mergesOnly_of_otherIncoming defined.1 agreed⟩
  · cases found

theorem Prepared.collapsePlaceholders {f₀ : Function} (co₀ : f₀.Coherent) (shaped₀ : f₀.Shaped)
    (fuel : Nat) {e : Extents} {f : Function} (h : Prepared f₀ f e.map)
    (new : ∀ r ∈ e.placeholders, f₀.values.size ≤ r.index) :
    Prepared f₀ (collapsePlaceholders fuel e f).2 (collapsePlaceholders fuel e f).1.map := by
  induction fuel generalizing e f with
  | zero => exact h
  | succ fuel ih =>
    rw [CheckpointRestart.collapsePlaceholders]
    cases agreed : agreedPlaceholder? f e.placeholders with
    | none => exact h
    | some pair =>
      obtain ⟨r, y⟩ := pair
      obtain ⟨hr, d, only⟩ := agreedPlaceholder?_eq_some agreed
      have col := h.draft.coherent.collapsed h.draft.shaped r y
      exact ih (h.collapsed co₀ shaped₀ col only (new r hr)) fun q hq =>
        new q (TreeSet.mem_erase_iff.1 hq).2

/-! ## Alias sets -/

/-- The maps differ in the alias sets of the pointers in `merged` only. -/
def AliasesDiffer (merged : ValueSet) (map map' : ExtentMap) : Prop :=
  ∀ v : ValueId, ∃ g : ValueSet → ValueSet,
    map'[v]? = (map[v]?).map (fun x => { x with aliases := g x.aliases }) ∧ (v ∉ merged → g = id)

namespace AliasesDiffer

variable {merged : ValueSet} {map map' map'' : ExtentMap}

theorem refl : AliasesDiffer merged map map :=
  fun _ => ⟨id, by simp, fun _ => rfl⟩

theorem trans (h : AliasesDiffer merged map map') (h' : AliasesDiffer merged map' map'') :
    AliasesDiffer merged map map'' := by
  intro v
  obtain ⟨g, hg, id_⟩ := h v
  obtain ⟨g', hg', id'⟩ := h' v
  refine ⟨g' ∘ g, ?_, fun hv => by rw [id_ hv, id' hv]; rfl⟩
  rw [hg', hg, Option.map_map]
  rfl

theorem modify {p : ValueId} (hp : p ∈ merged) (g : ValueSet → ValueSet) :
    AliasesDiffer merged map (map.modify p fun x => { x with aliases := g x.aliases }) := by
  intro v
  rw [Std.ExtTreeMap.getElem?_modify]
  by_cases h : p = v
  · subst h
    exact ⟨g, by simp, fun hv => absurd hp hv⟩
  · refine ⟨id, ?_, fun _ => rfl⟩
    rw [if_neg (by rwa [Std.LawfulEqCmp.compare_eq_iff_eq])]
    simp

end AliasesDiffer

namespace AliasClosure

variable {oracle : AliasOracle} {merged : ValueSet}

theorem aliasesDiffer_pass (c : AliasClosure) :
    AliasesDiffer merged c.map (c.pass oracle merged).map := by
  refine List.foldlRecOn merged.toList _ (motive := fun c' : AliasClosure =>
    AliasesDiffer merged c.map c'.map) .refl fun c' h p hp => h.trans ?_
  have hp : p ∈ merged := Std.ExtTreeSet.mem_toList.mp hp
  refine List.foldlRecOn (c'.unexpanded merged p) _ (motive := fun c'' : AliasClosure =>
    AliasesDiffer merged c'.map c''.map) .refl fun c'' h m _ => h.trans ?_
  exact .modify hp fun s => List.foldl (·.insert ·) (s.erase m) _

theorem aliasesDiffer_close (fuel : Nat) (c : AliasClosure) :
    AliasesDiffer merged c.map (close oracle merged fuel c).map := by
  induction fuel generalizing c with
  | zero => exact .refl
  | succ fuel ih =>
    rw [close]
    split
    · exact .refl
    · exact (aliasesDiffer_pass c).trans (ih _)

end AliasClosure

theorem ExtentMap.sizeOf_aliases {merged : ValueSet} {map map' : ExtentMap}
    (h : AliasesDiffer merged map map') {size : Extent → Operand}
    (hsize : ∀ (x : Extent) s, size { x with aliases := s } = size x) (x : Operand) :
    map'.sizeOf size x = map.sizeOf size x := by
  cases x with
  | const c => rfl
  | value v =>
    obtain ⟨g, hg, -⟩ := h v
    rw [sizeOf, hg, sizeOf]
    cases map[v]? with
    | none => rfl
    | some x => exact hsize x _

theorem Extent.Settled.provenance_of_phi {f₀ f : Function} {v : ValueId} {x : Extent} {b : BlockId}
    {pairs : List (Operand × BlockId)} (h : x.Settled f₀ f v) (shaped₀ : f₀.Shaped)
    (merged : f₀.Defines b v (.phi pairs)) : x.provenance = .merge := by
  have other : ∀ {c op}, f₀.Defines c v op → op = .phi pairs := by
    intro c op def_
    simpa using (merged.unique shaped₀ def_.1 def_.2 rfl).2
  cases h.origin with
  | parameter params => exact absurd (by simp [params]) (shaped₀.params v merged.mem_defined)
  | alloca def_ => exact nomatch other def_
  | malloc def_ => exact nomatch other def_
  | merge => rfl
  | derived def_ der =>
    cases other def_
    cases der

namespace Prepared

variable {f₀ f f' : Function} {map map' : ExtentMap} {merged : ValueSet}

theorem aliases (h : Prepared f₀ f map) (shaped₀ : f₀.Shaped)
    (phis : ∀ v ∈ merged, ∃ b pairs, f₀.Defines b v (.phi pairs))
    (differ : AliasesDiffer merged map map') : Prepared f₀ f map' := by
  have sizes : ∀ {size : Extent → Operand}, (∀ (x : Extent) s, size { x with aliases := s } = size x) →
      ∀ x, map'.sizeOf size x = map.sizeOf size x :=
    fun hsize x => ExtentMap.sizeOf_aliases differ hsize x
  have mergedSize : ∀ {b incoming} {size : Extent → Operand} {z},
      (∀ (x : Extent) s, size { x with aliases := s } = size x) →
      map.MergedSize f b incoming size z → map'.MergedSize f b incoming size z := by
    intro b incoming size z hsize h
    unfold ExtentMap.MergedSize ExtentMap.sizesIn at *
    simpa only [sizes hsize] using h
  have known : ∀ {v : ValueId} {x' : Extent}, map'[v]? = some x' → ∃ x s, map[v]? = some x ∧
      x' = { x with aliases := s } ∧ (v ∉ merged → x' = x) := by
    intro v x' hx'
    obtain ⟨g, hg, id_⟩ := differ v
    rw [hg] at hx'
    obtain ⟨x, hx, rfl⟩ := Option.map_eq_some_iff.mp hx'
    exact ⟨x, _, hx, rfl, fun hv => by rw [id_ hv]; rfl⟩
  have still : ∀ {v : ValueId} {x : Extent}, map[v]? = some x → ∃ s, map'[v]? = some { x with aliases := s } := by
    intro v x hx
    obtain ⟨g, hg, -⟩ := differ v
    exact ⟨_, by rw [hg, hx]; rfl⟩
  refine ⟨h.draft, ⟨fun v x' hx' => ?_, fun v x' source hx' derived => ?_⟩,
    fun v x' hx' merge => ?_, fun b i hi new phi => ?_⟩
  · obtain ⟨x, s, hx, rfl, same⟩ := known hx'
    have settled := h.sound.settled v x hx
    by_cases hv : v ∈ merged
    · obtain ⟨b, pairs, def_⟩ := phis v hv
      have kind := settled.provenance_of_phi shaped₀ def_
      refine ⟨?_, settled.pointer, settled.sizes⟩
      cases settled.origin with
      | merge def_ => exact .merge def_
      | parameter | alloca | malloc | derived => cases kind
    · rw [same hv]
      exact settled
  · obtain ⟨x, s, hx, rfl, -⟩ := known hx'
    obtain ⟨z, hz, hw, hc⟩ := h.sound.derived v x source hx derived
    obtain ⟨t, hz'⟩ := still hz
    exact ⟨_, hz', hw, hc⟩
  · obtain ⟨x, s, hx, rfl, -⟩ := known hx'
    obtain ⟨b, incoming, def_, all, width, count⟩ := (h.merged v x hx merge).merge
    refine ⟨b, incoming, def_, fun z p hz => ?_, mergedSize (fun _ _ => rfl) width,
      mergedSize (fun _ _ => rfl) count⟩
    have hz := all z p hz
    rw [Std.ExtTreeMap.mem_iff_isSome_getElem?] at hz ⊢
    obtain ⟨x, hx⟩ := Option.isSome_iff_exists.mp hz
    obtain ⟨t, hz'⟩ := still hx
    rw [hz']
    rfl
  · obtain ⟨v, x, incoming, r, def_, known, hr, size⟩ := h.added b i hi new phi
    obtain ⟨t, known'⟩ := still known
    exact ⟨v, _, incoming, r, def_, known', hr, size⟩

end Prepared

theorem Filling.prepared {f₀ f : Function} {s : Seeds} {map : ExtentMap} {seen : List ValueId}
    {g : Function} (h : Filling f₀ f map s.merges []) (sound : s.Sound f₀ g seen)
    (settling : ExtentMap.Settling f₀ g s.map map []) : Prepared f₀ f map := by
  obtain ⟨pending, draft, empty⟩ := h.draft
  refine ⟨{ draft with merges := fun b hb i hi _ => ?_ }, h.sound, fun v x hx merge => ?_,
    fun b i hi new phi => ?_⟩
  · exact draft.merges b hb i hi fun r hr => by simpa using empty r hr
  · rcases settling.new v x hx with base | ⟨source, derived⟩
    · obtain ⟨m, hm, rfl⟩ := sound.merged v x base merge
      obtain ⟨seed, aliases, entry⟩ := sound.merges m hm
      rw [base] at entry
      cases entry
      have filled := h.filled m hm
      exact ⟨m.block, m.incoming, seed.merged, filled.known, .inl ⟨_, rfl, filled.width⟩,
        .inl ⟨_, rfl, filled.count⟩⟩
    · rw [derived] at merge
      cases merge
  · obtain ⟨m, hm, rfl, hr⟩ := h.added b i hi new phi
    rw [List.append_nil] at hm
    obtain ⟨seed, aliases, entry⟩ := sound.merges m hm
    have known := settling.kept m.pointer _ entry
    rcases hr with hr | hr
    · exact ⟨m.pointer, _, m.incoming, _, seed.merged, known, hr, by simp [Extent.sizeValues, Operand.value?]⟩
    · exact ⟨m.pointer, _, m.incoming, _, seed.merged, known, hr, by simp [Extent.sizeValues, Operand.value?]⟩

/-- The stages of finding extents. -/
theorem findExtents_run {oracle : AliasOracle} {f f' : Function} {e : Extents}
    (run : findExtents oracle f = .ok e f') :
    ∃ s f₁ map f₂ f₃, ∃ merged : ValueSet, Seeds.collect f = .ok s f₁ ∧ closeDerived s f₁ = .ok map f₂ ∧
      s.merges.forM (fillPlaceholders map) f₂ = .ok ⟨⟩ f₃ ∧
      (∀ v, v ∈ merged ↔ ∃ m ∈ s.merges, v = m.pointer) ∧
      let r := collapsePlaceholders s.placeholders.size ⟨map, s.placeholders⟩ f₃
      { r.1 with map := closeAliases oracle merged r.1.map } = e ∧ r.2 = f' := by
  rw [findExtents, run_bind_eq_ok_iff] at run
  obtain ⟨s, f₁, collected, run⟩ := run
  obtain ⟨map, f₂, derived, run⟩ := run_bind_eq_ok_iff.1 run
  obtain ⟨⟨⟩, f₃, filled, run⟩ := run_bind_eq_ok_iff.1 run
  rw [run_modifyGet_bind] at run
  refine ⟨s, f₁, map, f₂, f₃, _, collected, derived, filled, fun v => ?_, run_pure_eq_ok_iff.1 run⟩
  simpa using mem_foldl_iff (fun t : ValueSet => v ∈ t) (fun m : MergeSeed => v = m.pointer)
    (fun t m => by rw [TreeSet.mem_insert_iff, or_comm]) s.merges ∅

/-- Finding the extents of a function prepares it for what comes after. -/
theorem prepared_findExtents {oracle : AliasOracle} {f f' : Function} {e : Extents}
    (co : f.Coherent) (wf : f.WellFormed) (strict : f.Strict)
    (plain : ∀ i ∈ f.body f.entry, i.op.isPhi = false)
    (run : findExtents oracle f = .ok e f') : Prepared f f' e.map := by
  obtain ⟨s, f₁, map, f₂, f₃, merged, collected, derived, filled, mem_merged, rfl, rfl⟩ := findExtents_run run
  obtain ⟨seen, sound⟩ := Seeds.sound_collect co wf strict plain collected
  obtain ⟨rfl, settling⟩ := settling_closeDerived sound derived
  have filling := filling_forM sound settling filled
  have new : ∀ r ∈ s.placeholders, f.values.size ≤ r.index := by
    intro r hr
    obtain ⟨m, hm, e⟩ := (sound.placeholders r).mp hr
    have := (sound.merges m hm).1.new
    rcases e with rfl | rfl
    · exact this.1
    · exact this.2
  have dropped := (filling.prepared sound settling).collapsePlaceholders co wf.toShaped
    s.placeholders.size (e := ⟨map, s.placeholders⟩) new
  refine dropped.aliases wf.toShaped (fun v hv => ?_) (AliasClosure.aliasesDiffer_close _ _)
  obtain ⟨m, hm, rfl⟩ := (mem_merged v).mp hv
  exact ⟨m.block, m.incoming, (sound.merges m hm).1.merged⟩

end CheckpointRestart
