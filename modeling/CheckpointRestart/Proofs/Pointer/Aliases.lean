import CheckpointRestart.Proofs.Pointer.Closure
import CheckpointRestart.Proofs.Pointer.Keys
import CheckpointRestart.Proofs.Pointer.Roots

/-! # What alias sets hold

An allocation or a parameter is an alias of itself, and a derived pointer has its source as alias.
A merged pointer has as aliases the pointers that are not merged and reach it through merges, as far
as the oracle does not rule them out. No oracle that goes by roots rules out a pointer with a root,
and pointers without common roots have no allocation and no parameter in common.
-/

open Relation

namespace CheckpointRestart

open CheckpointRestart.Function

/-- The operation makes an allocation. -/
def Op.Allocates (op : Op) : Prop :=
  (∃ t n, op = .alloca t n) ∨ ∃ bytes, op = .malloc bytes

namespace Function

variable {f f' : Function} {b : BlockId} {v p a : ValueId} {op : Op} {aliases : ValueSet}

/-- `v` is defined by a merge. -/
def Merged (f : Function) (v : ValueId) : Prop :=
  ∃ b pairs, f.Defines b v (.phi pairs)

/-- `a` is an incoming value of the merge that defines the pointer `p`. -/
def ComesFrom (f : Function) (p a : ValueId) : Prop :=
  (f.valueType p).isPointer = true ∧ ∃ b pairs q, f.Defines b p (.phi pairs) ∧ (.value a, q) ∈ pairs

/-- The aliases of a pointer before merged pointers are replaced. -/
inductive Seeded (f : Function) (v : ValueId) : ValueSet → Prop
  | parameter : v ∈ f.params → Seeded f v {v}
  | allocation {b : BlockId} {op : Op} : f.Defines b v op → op.Allocates → Seeded f v {v}
  | derived {b : BlockId} {op : Op} {source : ValueId} {index : Option ValueId} :
    f.Defines b v op → Derives op source index → (f.valueType source).isPointer = true →
    Seeded f v {source}
  | merge {b : BlockId} {pairs : List (Operand × BlockId)} {aliases : ValueSet} :
    f.Defines b v (.phi pairs) → (∀ a, a ∈ aliases ↔ ∃ q, (.value a, q) ∈ pairs) →
    Seeded f v aliases

end Function

variable {f f' : Function} {b : BlockId} {v p a : ValueId} {op : Op} {map : ExtentMap} {s s' : Seeds}

/-- All aliases are those that pointers start with. -/
def ExtentMap.Seeded (f : Function) (map : ExtentMap) : Prop :=
  ∀ (v : ValueId) x, map[v]? = some x → (f.valueType v).isPointer = true ∧ f.Seeded v x.aliases

theorem ExtentMap.Seeded.insert {x : Extent} (h : map.Seeded f)
    (pointer : (f.valueType v).isPointer = true) (hx : f.Seeded v x.aliases) :
    ExtentMap.Seeded f (map.insert v x) := by
  intro w y hy
  rw [TreeMap.getElem?_insert_iff] at hy
  split at hy
  · next e =>
    cases hy
    exact e ▸ ⟨pointer, hx⟩
  · exact h w y hy

theorem ExtentMap.Seeded.isPointer (h : map.Seeded f) (hv : v ∈ map) :
    (f.valueType v).isPointer = true := by
  obtain ⟨x, hx⟩ := Option.isSome_iff_exists.mp (Std.ExtTreeMap.mem_iff_isSome_getElem?.mp hv)
  exact (h v x hx).1

/-! ## One look at every pointer -/

/-- The seeds name the pointers of `f` as they are defined there. -/
structure Seeds.Traced (f : Function) (s : Seeds) : Prop where
  map : s.map.Seeded f
  derived : ∀ d ∈ s.derived, (f.valueType d.pointer).isPointer = true ∧
    ∃ b op, f.Defines b d.pointer op ∧ Derives op d.source d.index
  merges : ∀ m ∈ s.merges, (f.valueType m.pointer).isPointer = true ∧
    f.Defines m.block m.pointer (.phi m.incoming) ∧ m.pointer ∈ s.map

namespace Seeds

theorem Traced.addExtent (h : s.Traced f) {x : Extent} (pointer : (f.valueType v).isPointer = true)
    (hx : f.Seeded v x.aliases) : (s.addExtent v x).Traced f where
  map := h.map.insert pointer hx
  derived := h.derived
  merges m hm := by
    obtain ⟨pointer, def_, mem⟩ := h.merges m hm
    exact ⟨pointer, def_, TreeMap.mem_insert_iff.2 (.inr mem)⟩

theorem merge_run {incoming : List (Operand × BlockId)} (run : s.merge b v incoming f = .ok s' f') :
    ∃ x m : _, s'.map = s.map.insert v x ∧ (∀ a, a ∈ x.aliases ↔ ∃ q, (.value a, q) ∈ incoming) ∧
      s'.derived = s.derived ∧ s'.merges = s.merges ++ [m] ∧ m.block = b ∧ m.pointer = v ∧
      m.incoming = incoming := by
  rw [Seeds.merge, run_get_bind, run_newValue_bind, run_newValue_bind, run_modify_bind] at run
  obtain ⟨rfl, -⟩ := run_pure_eq_ok_iff.1 run
  refine ⟨_, _, rfl, fun a => ?_, rfl, rfl, rfl, rfl, rfl⟩
  rw [TreeSet.mem_foldl_insert_iff]
  simp only [Std.ExtTreeSet.not_mem_empty, List.mem_filterMap, Prod.exists, false_or]
  constructor
  · rintro ⟨x, q, mem, hx⟩
    cases x with
    | value w =>
      cases hx
      exact ⟨q, mem⟩
    | const c => cases hx
  · rintro ⟨q, mem⟩
    exact ⟨_, q, mem, rfl⟩

theorem Traced.definition (h : s.Traced f) {g g' : Function} (def_ : f.Defines b v op)
    (pointer : (f.valueType v).isPointer = true) (run : s.definition (b, v, op) g = .ok s' g') :
    s'.Traced f ∧ (∀ m ∈ s.merges, m ∈ s'.merges) ∧
      (op.isPhi = true → ∃ m ∈ s'.merges, m.pointer = v) := by
  cases definition_run run with
  | alloca => exact ⟨h.addExtent pointer (.allocation def_ (.inl ⟨_, _, rfl⟩)), fun _ => id, nofun⟩
  | malloc => exact ⟨h.addExtent pointer (.allocation def_ (.inr ⟨_, rfl⟩)), fun _ => id, nofun⟩
  | merge run =>
    obtain ⟨x, m, map, aliases, derived, merges, rfl, rfl, rfl⟩ := merge_run run
    refine ⟨⟨?_, derived ▸ h.derived, fun m' hm' => ?_⟩, fun m' hm' => ?_, fun _ => ⟨m, ?_, rfl⟩⟩
    · rw [map]
      exact h.map.insert pointer (.merge def_ aliases)
    · rw [map, TreeMap.mem_insert_iff]
      rw [merges, List.mem_append, List.mem_singleton] at hm'
      rcases hm' with hm' | rfl
      · obtain ⟨pointer, def_, mem⟩ := h.merges m' hm'
        exact ⟨pointer, def_, .inr mem⟩
      · exact ⟨pointer, def_, .inl rfl⟩
    · rw [merges]
      exact List.mem_append_left _ hm'
    · simp [merges]
  | derived derives =>
    refine ⟨⟨h.map, fun d hd => ?_, h.merges⟩, fun _ => id, fun phi => ?_⟩
    · rcases List.mem_append.mp hd with hd | hd
      · exact h.derived d hd
      · obtain rfl := List.mem_singleton.mp hd
        exact ⟨pointer, b, op, def_, derives⟩
    · rw [derives.isPhi] at phi
      cases phi

theorem traced_params {ps : List ValueId} {g : Function}
    (run : ps.foldlM parameter ⟨∅, ∅, [], []⟩ f = .ok s g) : s.Traced f := by
  have start : Traced f ⟨∅, ∅, [], []⟩ := ⟨by simp [ExtentMap.Seeded], by simp, by simp⟩
  refine (foldlM_run_induction (fun _ s g => s.Traced f ∧ g.params = f.params ∧
    ∀ v, (g.valueType v).isPointer = (f.valueType v).isPointer) ?_ ⟨start, rfl, fun _ => rfl⟩ run).1
  rintro front p back - s g s' g' ⟨traced, params, types⟩ step
  refine ⟨?_, (advances_parameter step).params.trans params,
    fun v => (isPointer_parameter step).trans (types v)⟩
  rcases parameter_run step with ⟨-, rfl, -⟩ | ⟨pointer, argc, count, both, -, rfl⟩
  · exact traced
  · exact traced.addExtent (types p ▸ pointer) (.parameter (by simp [← params, both]))

theorem traced_collect (run : collect f = .ok s f') :
    s.Traced f ∧ ∀ v, (f.valueType v).isPointer = true → f.Merged v → ∃ m ∈ s.merges, m.pointer = v := by
  rw [collect, run_get_bind, run_bind_eq_ok_iff] at run
  obtain ⟨s₁, f₁, params, run⟩ := run
  rw [run_get_bind] at run
  have all := foldlM_run_induction (fun front s _ => s.Traced f ∧
    ∀ d ∈ front, d.2.2.isPhi = true → ∃ m ∈ s.merges, m.pointer = d.2.1) ?_
    ⟨traced_params params, by simp⟩ run
  · refine ⟨all.1, ?_⟩
    rintro v pointer ⟨b, pairs, def_⟩
    refine all.2 (b, v, .phi pairs) ?_ rfl
    exact (mem_pointerDefinitions_params params).mpr (mem_pointerDefinitions_iff.2 ⟨def_, pointer⟩)
  · rintro front ⟨b, v, op⟩ back split s g s' g' ⟨traced, found⟩ step
    have mem : (b, v, op) ∈ f₁.pointerDefinitions := by simp [split]
    obtain ⟨def_, pointer⟩ :=
      mem_pointerDefinitions_iff.1 ((mem_pointerDefinitions_params params).mp mem)
    obtain ⟨traced, kept, new⟩ := traced.definition def_ pointer step
    refine ⟨traced, fun d hd phi => ?_⟩
    rcases List.mem_append.mp hd with hd | hd
    · obtain ⟨m, hm, e⟩ := found d hd phi
      exact ⟨m, kept m hm, e⟩
    · obtain rfl := List.mem_singleton.mp hd
      exact new phi

end Seeds

/-! ## Derived pointers, and sizes that are dropped -/

namespace ExtentMap.Seeded

theorem foldl_derive {waiting : List DerivedSeed} (h : map.Seeded f) (still : List DerivedSeed)
    (all : ∀ d ∈ still ++ waiting, (f.valueType d.pointer).isPointer = true ∧
      ∃ b op, f.Defines b d.pointer op ∧ Derives op d.source d.index) :
    (waiting.foldl derive (map, still)).1.Seeded f ∧
      ∀ d ∈ (waiting.foldl derive (map, still)).2, (f.valueType d.pointer).isPointer = true ∧
        ∃ b op, f.Defines b d.pointer op ∧ Derives op d.source d.index := by
  induction waiting generalizing map still with
  | nil => exact ⟨h, by simpa using all⟩
  | cons d waiting ih =>
    rw [List.foldl_cons, derive]
    split
    · next source known =>
      obtain ⟨pointer, b, op, def_, derives⟩ := all d (by simp)
      refine ih (h.insert pointer (.derived def_ derives (h _ _ known).1)) _ fun d' hd' => all d' ?_
      rcases List.mem_append.mp hd' with hd' | hd' <;> simp [hd']
    · exact ih h _ (by simpa using all)

theorem settle (fuel : Nat) {waiting : List DerivedSeed} (h : map.Seeded f)
    (all : ∀ d ∈ waiting, (f.valueType d.pointer).isPointer = true ∧
      ∃ b op, f.Defines b d.pointer op ∧ Derives op d.source d.index) :
    (settle fuel map waiting).1.Seeded f := by
  induction fuel generalizing map waiting with
  | zero => exact h
  | succ fuel ih =>
    obtain ⟨seeded, left⟩ := h.foldl_derive [] all
    rw [ExtentMap.settle]
    dsimp only
    split
    · exact seeded
    · exact ih seeded left

theorem collapsePlaceholders (fuel : Nat) {e : Extents} {g : Function} (h : e.map.Seeded f) :
    (collapsePlaceholders fuel e g).1.map.Seeded f := by
  induction fuel generalizing e g with
  | zero => exact h
  | succ fuel ih =>
    rw [CheckpointRestart.collapsePlaceholders]
    cases agreedPlaceholder? g e.placeholders with
    | none => exact h
    | some pair =>
      refine ih fun v x hx => ?_
      obtain ⟨y, hy, rfl⟩ := Option.map_eq_some_iff.mp (getElem?_replaceSize ▸ hx)
      exact h v y hy

end ExtentMap.Seeded

theorem seeded_closeDerived (h : s.Traced f) {g g' : Function} (run : closeDerived s g = .ok map g') :
    map.Seeded f := by
  have seeded := h.map.settle s.derived.length h.derived
  rwa [(closeDerived_run run).2] at seeded

/-! ## The aliases found -/

namespace Function

theorem Seeded.mem_iff_comesFrom {aliases : ValueSet} (h : f.Seeded p aliases) (once : f.PointersOnce)
    (pointer : (f.valueType p).isPointer = true) (merged : f.Merged p) :
    a ∈ aliases ↔ f.ComesFrom p a := by
  obtain ⟨b, pairs, def_⟩ := merged
  have only {c : BlockId} {op : Op} (other : f.Defines c p op) : op = .phi pairs :=
    once.op_eq pointer def_ other
  have here : f.ComesFrom p a ↔ ∃ q, (.value a, q) ∈ pairs := by
    constructor
    · rintro ⟨-, c, pairs', q, other, mem⟩
      cases only other
      exact ⟨q, mem⟩
    · rintro ⟨q, mem⟩
      exact ⟨pointer, b, pairs, q, def_, mem⟩
  rw [here]
  cases h with
  | parameter given =>
    have defined := Seeds.mem_pointerDefinitions_iff.2 ⟨def_, pointer⟩
    exact absurd (List.mem_map_of_mem defined) (once.params p given)
  | allocation other allocates =>
    cases only other
    rcases allocates with ⟨_, _, h⟩ | ⟨_, h⟩ <;> cases h
  | derived other derives =>
    cases only other
    cases derives
  | merge other mem =>
    cases only other
    exact mem a

end Function

section Found

variable {oracle : AliasOracle} {e : Extents}

theorem mem_of_filled {ms : List MergeSeed} {g g' : Function}
    (run : ms.forM (fillPlaceholders map) g = .ok ⟨⟩ g') :
    ∀ m ∈ ms, ∀ a q, (.value a, q) ∈ m.incoming → a ∈ map := by
  refine forM_run_induction
    (fun front _ => ∀ m ∈ front, ∀ a q, (.value a, q) ∈ m.incoming → a ∈ map) ?_ (by simp) run
  intro front m back _ g g' before step m' hm'
  rcases List.mem_append.mp hm' with hm' | hm'
  · exact before m' hm'
  · obtain rfl := List.mem_singleton.mp hm'
    exact (fillPlaceholders_run step).1

/-- All pointers have extents, and only merged pointers have still to be replaced. -/
structure Surveyed (f : Function) (merged : ValueSet) (map : ExtentMap) : Prop where
  seeded : map.Seeded f
  mem_merged_iff : ∀ p, p ∈ merged ↔ (f.valueType p).isPointer = true ∧ f.Merged p
  known : ∀ p ∈ merged, p ∈ map
  incoming : ∀ p a, f.ComesFrom p a → (f.valueType a).isPointer = true

theorem surveyed_findExtents (once : f.PointersOnce) (run : findExtents oracle f = .ok e f') :
    ∃ merged map, Surveyed f merged map ∧ e.map = closeAliases oracle merged map := by
  obtain ⟨s, f₁, map, f₂, f₃, merged, collected, derived, filled, mem_merged, rfl, rfl⟩ := findExtents_run run
  obtain ⟨traced, found⟩ := Seeds.traced_collect collected
  have seeded := seeded_closeDerived traced derived
  refine ⟨_, _, ⟨seeded.collapsePlaceholders _, fun p => ?_, fun p hp => ?_, fun p a from_ => ?_⟩, rfl⟩
  · rw [mem_merged]
    constructor
    · rintro ⟨m, hm, rfl⟩
      obtain ⟨pointer, def_, -⟩ := traced.merges m hm
      exact ⟨pointer, m.block, m.incoming, def_⟩
    · rintro ⟨pointer, merged⟩
      obtain ⟨m, hm, e⟩ := found p pointer merged
      exact ⟨m, hm, e.symm⟩
  · obtain ⟨m, hm, rfl⟩ := (mem_merged p).mp hp
    exact mem_collapsePlaceholders _ (mem_closeDerived (.inl (traced.merges m hm).2.2) derived)
  · obtain ⟨pointer, b, pairs, q, def_, mem⟩ := from_
    obtain ⟨m, hm, rfl⟩ := found p pointer ⟨b, pairs, def_⟩
    have same : Op.phi m.incoming = .phi pairs := once.op_eq pointer def_ (traced.merges m hm).2.1
    cases same
    exact seeded.isPointer (mem_of_filled filled m hm a q mem)

namespace Surveyed

variable {merged : ValueSet}

theorem isPointer_of_transGen (h : Surveyed f merged map) (reach : TransGen f.ComesFrom p a) :
    (f.valueType a).isPointer = true := by
  obtain ⟨q, -, last⟩ := TransGen.tail'_iff.mp reach
  exact h.incoming q a last

theorem merged_iff (h : Surveyed f merged map) (pointer : (f.valueType a).isPointer = true) :
    a ∈ merged ↔ f.Merged a := by
  rw [h.mem_merged_iff, and_iff_right pointer]

theorem getElem?_closeAliases (hv : v ∉ merged) : (closeAliases oracle merged map)[v]? = map[v]? := by
  have differ : AliasesDiffer merged map (closeAliases oracle merged map) :=
    AliasClosure.aliasesDiffer_close _ _
  obtain ⟨g, hg, id_⟩ := differ v
  rw [hg, id_ hv]
  cases map[v]? <;> rfl

theorem mem_aliases (h : Surveyed f merged map) (once : f.PointersOnce) (hp : p ∈ merged) {x : Extent}
    (hx : (closeAliases oracle merged map)[p]? = some x) :
    (a ∈ x.aliases → ¬ f.Merged a ∧ TransGen f.ComesFrom p a) ∧
      (¬ f.Merged a → AliasClosure.Admits oracle f.ComesFrom a → TransGen f.ComesFrom p a →
        a ∈ x.aliases) := by
  have seeded : ∀ p ∈ merged, ∀ a, a ∈ AliasClosure.aliases ⟨map, ∅⟩ p ↔ f.ComesFrom p a := by
    intro p hp a
    obtain ⟨pointer, merge⟩ := (h.mem_merged_iff p).mp hp
    obtain ⟨y, hy⟩ :=
      Option.isSome_iff_exists.mp (Std.ExtTreeMap.mem_iff_isSome_getElem?.mp (h.known p hp))
    simpa [AliasClosure.aliases, hy] using (h.seeded p y hy).2.mem_iff_comesFrom once pointer merge
  have source : ∀ p a, f.ComesFrom p a → p ∈ merged := by
    rintro p a ⟨pointer, b, pairs, q, def_, -⟩
    exact (h.mem_merged_iff p).mpr ⟨pointer, b, pairs, def_⟩
  obtain ⟨sound, complete⟩ := mem_aliases_closeAliases h.known seeded source hp hx a
  refine ⟨fun ha => ?_, fun leaf admits reach => ?_⟩
  · obtain ⟨leaf, reach⟩ := sound ha
    exact ⟨(h.merged_iff (h.isPointer_of_transGen reach)).not.mp leaf, reach⟩
  · exact complete ((h.merged_iff (h.isPointer_of_transGen reach)).not.mpr leaf) admits reach

end Surveyed

end Found

/-! ## Aliases and roots -/

namespace Function

theorem PointersOnce.roots_of_reflTransGen (once : f.PointersOnce) {rs : ValueSet}
    (reach : ReflTransGen f.ComesFrom p a) (known : f.roots[p]? = some rs) :
    ∃ ts, f.roots[a]? = some ts ∧ ∀ r ∈ ts, r ∈ rs := by
  induction reach with
  | refl => exact ⟨rs, known, fun _ => id⟩
  | tail _ last ih =>
    obtain ⟨us, hus, sub⟩ := ih
    obtain ⟨pointer, b, pairs, q, def_, mem⟩ := last
    obtain ⟨ts, hts, sub'⟩ := once.roots_of_incoming def_ pointer mem hus
    exact ⟨ts, hts, fun r hr => sub r (sub' r hr)⟩

/-- An oracle that goes by roots rules out nothing on the ways to a pointer that has a root or whose
roots are not known. -/
theorem PointersOnce.admits_ofRoots (once : f.PointersOnce) (rooted : f.roots[a]? ≠ some ∅) :
    AliasClosure.Admits (.ofRoots f.roots) f.ComesFrom a := by
  intro p x reach onto
  by_contra ruled
  obtain ⟨-, rs, ts, hp, hx, disjoint⟩ :=
    AliasOracle.ofRoots_eq_false_iff.1 (Bool.eq_false_iff.mpr ruled)
  obtain ⟨_, hx', sub⟩ := once.roots_of_reflTransGen reach.to_reflTransGen hp
  obtain ⟨us, ha, sub'⟩ := once.roots_of_reflTransGen onto hx
  cases hx.symm.trans hx'
  refine rooted (ha.trans (congrArg some (Std.ExtTreeSet.ext_mem fun r => ?_)))
  refine iff_of_false (fun hr => ?_) Std.ExtTreeSet.not_mem_empty
  exact disjoint r (sub r (sub' r hr)) (sub' r hr)

/-- The memory a pointer stands for is an allocation of the function, or is handed to it. -/
def Rooted (f : Function) (a : ValueId) : Prop :=
  a ∈ f.params ∨ ∃ b op, f.Defines b a op ∧ op.Allocates

theorem PointersOnce.roots_of_rooted (once : f.PointersOnce) (rooted : f.Rooted a)
    (pointer : (f.valueType a).isPointer = true) : f.roots[a]? = some {a} := by
  rcases rooted with given | ⟨b, op, def_, allocates⟩
  · exact once.roots_spec.2 a given pointer
  · rw [once.roots_spec.1 _ (Seeds.mem_pointerDefinitions_iff.2 ⟨def_, pointer⟩)]
    rcases allocates with ⟨t, n, rfl⟩ | ⟨bytes, rfl⟩ <;> rfl

end Function

section Results

variable {oracle : AliasOracle} {e : Extents}

/-- An allocation or a parameter among the aliases of a pointer is one of its roots. -/
theorem Surveyed.mem_roots {merged : ValueSet} (h : Surveyed f merged map) (once : f.PointersOnce)
    {x : Extent} (hx : (closeAliases oracle merged map)[v]? = some x) (rooted : f.Rooted a)
    (ha : a ∈ x.aliases) {rs : ValueSet} (known : f.roots[v]? = some rs) : a ∈ rs := by
  -- such a pointer is its own and only root, which the roots of `v` include
  suffices ∃ ts, (f.valueType a).isPointer = true ∧ f.roots[a]? = some ts ∧ ∀ r ∈ ts, r ∈ rs by
    obtain ⟨ts, pointer, hts, sub⟩ := this
    cases hts.symm.trans (once.roots_of_rooted rooted pointer)
    exact sub a (TreeSet.mem_singleton_iff.2 rfl)
  by_cases hv : v ∈ merged
  · obtain ⟨-, reach⟩ := (h.mem_aliases once hv hx).1 ha
    obtain ⟨ts, hts, sub⟩ := once.roots_of_reflTransGen reach.to_reflTransGen known
    exact ⟨ts, h.isPointer_of_transGen reach, hts, sub⟩
  · rw [getElem?_closeAliases hv] at hx
    obtain ⟨pointer, seeded⟩ := h.seeded v x hx
    generalize x.aliases = aliases at ha seeded
    cases seeded with
    | parameter =>
      obtain rfl := TreeSet.mem_singleton_iff.1 ha
      exact ⟨rs, pointer, known, fun _ => id⟩
    | allocation =>
      obtain rfl := TreeSet.mem_singleton_iff.1 ha
      exact ⟨rs, pointer, known, fun _ => id⟩
    | derived def_ derives source =>
      obtain rfl := TreeSet.mem_singleton_iff.1 ha
      exact ⟨rs, source, (once.roots_of_derives def_ pointer derives known).1, fun _ => id⟩
    | merge def_ => exact absurd ((h.mem_merged_iff v).mpr ⟨pointer, _, _, def_⟩) hv

theorem exists_extent (run : findExtents oracle f = .ok e f')
    (source : v ∈ f.params ∨ ∃ b op, f.Defines b v op) (pointer : (f.valueType v).isPointer = true) :
    ∃ x, e.map[v]? = some x :=
  Option.isSome_iff_exists.mp
    (Std.ExtTreeMap.mem_iff_isSome_getElem?.mp (mem_findExtents run source pointer))

/-- The aliases of a merged pointer are not merged themselves, and are what reaches it through merges,
if no pointer is defined twice. An oracle that rules nothing out loses none of them, and one that goes
by roots loses none that has a root or whose roots are not known. -/
theorem mem_aliases_of_merged (once : f.PointersOnce) (run : findExtents oracle f = .ok e f')
    (pointer : (f.valueType p).isPointer = true) (merged : f.Merged p) :
    ∃ x, e.map[p]? = some x ∧ (∀ a ∈ x.aliases, ¬ f.Merged a ∧ TransGen f.ComesFrom p a) ∧
      (oracle = .conservative → ∀ a, TransGen f.ComesFrom p a → ¬ f.Merged a → a ∈ x.aliases) ∧
      (oracle = .ofRoots f.roots → ∀ a, TransGen f.ComesFrom p a → ¬ f.Merged a →
        f.roots[a]? ≠ some ∅ → a ∈ x.aliases) := by
  obtain ⟨b, pairs, def_⟩ := id merged
  obtain ⟨set, map, collected, final⟩ := surveyed_findExtents once run
  obtain ⟨x, hx⟩ := exists_extent run (.inr ⟨b, _, def_⟩) pointer
  have hp : p ∈ set := (collected.mem_merged_iff p).mpr ⟨pointer, merged⟩
  have aliases (a : ValueId) := collected.mem_aliases once hp (final ▸ hx) (a := a)
  refine ⟨x, hx, fun a => (aliases a).1, fun any a reach leaf => ?_, fun roots a reach leaf rooted => ?_⟩
  · exact (aliases a).2 leaf (fun _ _ _ _ => any ▸ rfl) reach
  · exact (aliases a).2 leaf (roots ▸ once.admits_ofRoots rooted) reach

/-- Two pointers that change places in every round, and a third one that stays apart. -/
def trading : Function where
  name := "trading"
  params := []
  returns := .void
  values := #[⟨"a", .bytePtr⟩, ⟨"b", .bytePtr⟩, ⟨"c", .bytePtr⟩, ⟨"end", .bytePtr⟩, ⟨"p", .bytePtr⟩,
    ⟨"q", .bytePtr⟩, ⟨"done", .int 1⟩]
  blocks := #[
    ⟨"entry", [
      .define ⟨0⟩ (.alloca (.int 8) 4),
      .define ⟨1⟩ (.malloc (.const (.int 64 4))),
      .define ⟨2⟩ (.alloca (.int 8) 4),
      .define ⟨3⟩ (.gep (.value ⟨2⟩) (.const (.int 64 4))),
      .effect (.br ⟨1⟩)]⟩,
    ⟨"loop", [
      .define ⟨4⟩ (.phi [(.value ⟨0⟩, ⟨0⟩), (.value ⟨5⟩, ⟨1⟩)]),
      .define ⟨5⟩ (.phi [(.value ⟨1⟩, ⟨0⟩), (.value ⟨4⟩, ⟨1⟩)]),
      .define ⟨6⟩ (.compare .eq (.value ⟨4⟩) (.value ⟨3⟩)),
      .effect (.condBr (.value ⟨6⟩) ⟨2⟩ ⟨1⟩)]⟩,
    ⟨"exit", [.effect (.ret none)]⟩]
  layout := [⟨0⟩, ⟨1⟩, ⟨2⟩]

theorem mem_aliases_of_merged_trading :
    ∃ e f' x, findExtents .conservative trading = .ok e f' ∧ e.map[(⟨4⟩ : ValueId)]? = some x ∧
      ⟨0⟩ ∈ x.aliases ∧ ⟨1⟩ ∈ x.aliases ∧ ⟨5⟩ ∉ x.aliases := by
  have first : trading.Defines ⟨1⟩ ⟨4⟩ (.phi [(.value ⟨0⟩, ⟨0⟩), (.value ⟨5⟩, ⟨1⟩)]) := by
    constructor <;> decide
  have second : trading.Defines ⟨1⟩ ⟨5⟩ (.phi [(.value ⟨1⟩, ⟨0⟩), (.value ⟨4⟩, ⟨1⟩)]) := by
    constructor <;> decide
  have plain : ∀ b ∈ trading.layout, ∀ i ∈ trading.body b,
      i.result = some ⟨0⟩ ∨ i.result = some ⟨1⟩ → i.op.isPhi = false := by
    decide
  have leaf {a : ValueId} (ha : a = ⟨0⟩ ∨ a = ⟨1⟩) : ¬ trading.Merged a := by
    rintro ⟨b, pairs, hb, hi⟩
    have := plain b hb _ hi (by simpa using ha)
    cases this
  obtain ⟨e, found⟩ : ∃ e, ((findExtents .conservative).perform trading).1.toOption = some e :=
    Option.isSome_iff_exists.mp (by decide +kernel)
  have found := Edit.run_of_perform found
  obtain ⟨x, hx, only, all, -⟩ := mem_aliases_of_merged ⟨by decide, by decide⟩ found
    (by decide) ⟨_, _, first⟩
  have a_p : trading.ComesFrom ⟨4⟩ ⟨0⟩ := ⟨by decide, _, _, ⟨0⟩, first, by decide⟩
  have q_p : trading.ComesFrom ⟨4⟩ ⟨5⟩ := ⟨by decide, _, _, ⟨1⟩, first, by decide⟩
  have b_q : trading.ComesFrom ⟨5⟩ ⟨1⟩ := ⟨by decide, _, _, ⟨0⟩, second, by decide⟩
  exact ⟨e, _, x, found, hx, all rfl _ (.single a_p) (leaf (.inl rfl)),
    all rfl _ (.tail (.single q_p) b_q) (leaf (.inr rfl)), fun held => (only _ held).1 ⟨_, _, second⟩⟩

/-- Two merges define `p`. -/
def rebinding : Function where
  name := "rebinding"
  params := []
  returns := .void
  values := #[⟨"a", .bytePtr⟩, ⟨"b", .bytePtr⟩, ⟨"p", .bytePtr⟩]
  blocks := #[
    ⟨"entry", [
      .define ⟨0⟩ (.alloca (.int 8) 4),
      .define ⟨1⟩ (.alloca (.int 8) 4),
      .effect (.br ⟨1⟩)]⟩,
    ⟨"next", [
      .define ⟨2⟩ (.phi [(.value ⟨0⟩, ⟨0⟩)]),
      .define ⟨2⟩ (.phi [(.value ⟨1⟩, ⟨0⟩)]),
      .effect (.ret none)]⟩]
  layout := [⟨0⟩, ⟨1⟩]

/-- What comes in by the first of two merges that define a pointer is lost. -/
theorem not_mem_aliases_of_rebinding :
    ∃ e f' x, findExtents .conservative rebinding = .ok e f' ∧ e.map[(⟨2⟩ : ValueId)]? = some x ∧
      rebinding.ComesFrom ⟨2⟩ ⟨0⟩ ∧ ¬ rebinding.Merged ⟨0⟩ ∧ ⟨0⟩ ∉ x.aliases := by
  have evaluated : ((findExtents .conservative).perform rebinding).1.toOption.any (fun e =>
      e.map[(⟨2⟩ : ValueId)]?.any fun x => decide (⟨0⟩ ∉ x.aliases)) = true := by
    decide +kernel
  obtain ⟨e, found, held⟩ := (Option.any_eq_true _ _).mp evaluated
  obtain ⟨x, hx, lost⟩ := (Option.any_eq_true _ _).mp held
  have plain : ∀ b ∈ rebinding.layout, ∀ i ∈ rebinding.body b, i.result = some ⟨0⟩ →
      i.op.isPhi = false := by
    decide
  have first : rebinding.Defines ⟨1⟩ ⟨2⟩ (.phi [(.value ⟨0⟩, ⟨0⟩)]) := by
    constructor <;> decide
  refine ⟨e, _, x, Edit.run_of_perform found, hx, ?_, ?_, of_decide_eq_true lost⟩
  · exact ⟨by decide, _, _, _, first, List.mem_singleton_self _⟩
  · rintro ⟨b, pairs, hb, hi⟩
    cases plain b hb _ hi rfl

/-- Pointers that are told apart by their roots have alias sets with no allocation and no parameter in
common, if no pointer is defined twice. -/
theorem disjoint_aliases_of_ofRoots (once : f.PointersOnce)
    (run : findExtents (.ofRoots f.roots) f = .ok e f') {u v : ValueId}
    (apart : AliasOracle.ofRoots f.roots u v = false) :
    ∃ x y, e.map[u]? = some x ∧ e.map[v]? = some y ∧
      ∀ a, f.Rooted a → a ∈ x.aliases → a ∉ y.aliases := by
  obtain ⟨-, rs, ts, hrs, hts, disjoint⟩ := AliasOracle.ofRoots_eq_false_iff.1 apart
  have found {w : ValueId} {us : ValueSet} (known : f.roots[w]? = some us) :
      ∃ x, e.map[w]? = some x :=
    exists_extent run (isPointer_of_roots known).2 (isPointer_of_roots known).1
  obtain ⟨x, hx⟩ := found hrs
  obtain ⟨y, hy⟩ := found hts
  refine ⟨x, y, hx, hy, fun a rooted hu hv => ?_⟩
  obtain ⟨set, map, collected, final⟩ := surveyed_findExtents once run
  rw [final] at hx hy
  exact disjoint a (collected.mem_roots once hx rooted hu hrs)
    (collected.mem_roots once hy rooted hv hts)

theorem disjoint_aliases_of_ofRoots_trading :
    ∃ e f' x y, findExtents (.ofRoots trading.roots) trading = .ok e f' ∧
      AliasOracle.ofRoots trading.roots ⟨4⟩ ⟨3⟩ = false ∧
      e.map[(⟨4⟩ : ValueId)]? = some x ∧ e.map[(⟨3⟩ : ValueId)]? = some y ∧
      ∀ a, trading.Rooted a → a ∈ x.aliases → a ∉ y.aliases := by
  obtain ⟨e, found⟩ : ∃ e, ((findExtents (.ofRoots trading.roots)).perform trading).1.toOption = some e :=
    Option.isSome_iff_exists.mp (by decide +kernel)
  have found := Edit.run_of_perform found
  have apart : AliasOracle.ofRoots trading.roots ⟨4⟩ ⟨3⟩ = false := by decide +kernel
  obtain ⟨x, y, hx, hy, disjoint⟩ := disjoint_aliases_of_ofRoots ⟨by decide, by decide⟩ found apart
  exact ⟨e, _, x, y, found, apart, hx, hy, disjoint⟩

/-- Merges null into the argument vector, and goes on from there. -/
def clearing : Function where
  name := "clearing"
  params := [⟨0⟩, ⟨1⟩]
  returns := .void
  values := #[⟨"argc", .int 32⟩, ⟨"argv", .ptr .bytePtr⟩, ⟨"u", .ptr .bytePtr⟩, ⟨"v", .ptr .bytePtr⟩]
  blocks := #[
    ⟨"entry", [.effect (.br ⟨1⟩)]⟩,
    ⟨"next", [
      .define ⟨1⟩ (.phi [(.const (.null (.ptr .bytePtr)), ⟨0⟩)]),
      .define ⟨2⟩ (.gep (.value ⟨1⟩) (.const (.int 64 1))),
      .define ⟨3⟩ (.gep (.value ⟨1⟩) (.const (.int 64 2))),
      .effect (.ret none)]⟩]
  layout := [⟨0⟩, ⟨1⟩]

/-- Pointers that are told apart share a parameter that is defined again. -/
theorem mem_aliases_of_clearing :
    ∃ e f' x y, findExtents (.ofRoots clearing.roots) clearing = .ok e f' ∧
      AliasOracle.ofRoots clearing.roots ⟨2⟩ ⟨3⟩ = false ∧
      e.map[(⟨2⟩ : ValueId)]? = some x ∧ e.map[(⟨3⟩ : ValueId)]? = some y ∧
      clearing.Rooted ⟨1⟩ ∧ ⟨1⟩ ∈ x.aliases ∧ ⟨1⟩ ∈ y.aliases := by
  have evaluated : ((findExtents (.ofRoots clearing.roots)).perform clearing).1.toOption.any (fun e =>
      e.map[(⟨2⟩ : ValueId)]?.any fun x => e.map[(⟨3⟩ : ValueId)]?.any fun y =>
        decide (⟨1⟩ ∈ x.aliases ∧ ⟨1⟩ ∈ y.aliases)) = true := by
    decide +kernel
  obtain ⟨e, found, held⟩ := (Option.any_eq_true _ _).mp evaluated
  obtain ⟨x, hx, held⟩ := (Option.any_eq_true _ _).mp held
  obtain ⟨y, hy, both⟩ := (Option.any_eq_true _ _).mp held
  exact ⟨e, _, x, y, Edit.run_of_perform found, by decide +kernel, hx, hy, .inl (by decide),
    of_decide_eq_true both⟩

end Results

end CheckpointRestart
