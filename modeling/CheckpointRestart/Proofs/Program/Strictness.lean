import CheckpointRestart.Program.Scoping
import CheckpointRestart.Proofs.Flow.Dominance
import CheckpointRestart.Proofs.Program.WellFormed
import Mathlib.Data.List.Nodup

/-! # Strict functions

A function is strict if control never gets to a use of a value without having passed its
definition. Of a well-formed function the scoping check, which asks for dominance, accepts exactly
the strict ones. Strictness is the form in which edits are reasoned about: it says what ways
through the function there must not be, and an edit either keeps these ways or changes them in a
manner that can be described.
-/

namespace CheckpointRestart

/-- A value is used in a body by something other than a merge, before any definition of it. -/
def Exposed (v : ValueId) : List Instruction → Prop
  | [] => False
  | i :: rest =>
    (i.op.isPhi = false ∧ v ∈ i.op.usedValues) ∨ (i.result ≠ some v ∧ Exposed v rest)

/-- A merge of the body takes `v` from the block `p`. -/
def TakesFrom (body : List Instruction) (v : ValueId) (p : BlockId) : Prop :=
  ∃ i ∈ body, ∃ pairs, i.op = .phi pairs ∧ (.value v, p) ∈ pairs

section Bodies

variable {v : ValueId} {p : BlockId} {is js : List Instruction}

theorem exposed_append_iff :
    Exposed v (is ++ js) ↔ Exposed v is ∨ (v ∉ results is ∧ Exposed v js) := by
  induction is with
  | nil => simp [Exposed]
  | cons i is ih =>
    rw [List.cons_append, Exposed, ih, Exposed, results_cons, List.mem_append, Option.mem_toList]
    grind

theorem exposed_iff_getElem? :
    Exposed v is ↔ ∃ n i, is[n]? = some i ∧ i.op.isPhi = false ∧ v ∈ i.op.usedValues ∧
      v ∉ results (is.take n) := by
  induction is with
  | nil => simp [Exposed]
  | cons i is ih =>
    rw [Exposed, ih]
    constructor
    · rintro (⟨phi, use⟩ | ⟨ne, n, j, hj, phi, use, fresh⟩)
      · exact ⟨0, i, rfl, phi, use, by simp⟩
      · refine ⟨n + 1, j, hj, phi, use, ?_⟩
        rw [List.take_succ_cons, results_cons, List.mem_append, Option.mem_toList]
        exact fun h => h.elim ne fresh
    · rintro ⟨n, j, hj, phi, use, fresh⟩
      cases n with
      | zero =>
        cases hj
        exact .inl ⟨phi, use⟩
      | succ n =>
        rw [List.take_succ_cons, results_cons, List.mem_append, Option.mem_toList, not_or] at fresh
        exact .inr ⟨fresh.1, n, j, hj, phi, use, fresh.2⟩

theorem Exposed.exists_use (h : Exposed v is) : ∃ i ∈ is, v ∈ i.op.usedValues := by
  obtain ⟨n, i, hi, _, use, _⟩ := exposed_iff_getElem?.1 h
  exact ⟨i, List.mem_of_getElem? hi, use⟩

theorem takesFrom_append_iff :
    TakesFrom (is ++ js) v p ↔ TakesFrom is v p ∨ TakesFrom js v p := by
  simp only [TakesFrom, List.mem_append]
  constructor
  · rintro ⟨i, hi | hi, h⟩
    · exact .inl ⟨i, hi, h⟩
    · exact .inr ⟨i, hi, h⟩
  · rintro (⟨i, hi, h⟩ | ⟨i, hi, h⟩)
    · exact ⟨i, .inl hi, h⟩
    · exact ⟨i, .inr hi, h⟩

end Bodies

namespace Function

/-- Control can get to the start of a block without having passed a definition of `v`. -/
inductive Lacks (f : Function) (v : ValueId) : BlockId → Prop
  | entry : Lacks f v f.entry
  | step {p b : BlockId} :
    Lacks f v p → v ∉ results (f.body p) → b ∈ f.successors p → Lacks f v b

/-- No use of a value that may be lacking there, unless the value is `given`. -/
structure StrictFor (f : Function) (given : ValueId → Prop) : Prop where
  operands : ∀ b v, Exposed v (f.body b) → f.Lacks v b → given v
  incoming : ∀ b ∈ f.layout, ∀ v p, TakesFrom (f.body b) v p → f.Lacks v p →
    v ∉ results (f.body p) → given v

def Strict (f : Function) : Prop :=
  f.StrictFor (· ∈ f.params)

/-- Every block is in the layout, once, and the parameters are values of the function. -/
structure Coherent (f : Function) : Prop where
  mem_layout : ∀ b, b ∈ f.layout ↔ b.index < f.blocks.size
  nodup : f.layout.Nodup
  params : ∀ p ∈ f.params, p.index < f.values.size

theorem coherent_iff (f : Function) : f.Coherent ↔ (∀ b ∈ f.layout, b.index < f.blocks.size) ∧
    (∀ n < f.blocks.size, ⟨n⟩ ∈ f.layout) ∧ f.layout.Nodup ∧ ∀ p ∈ f.params, p.index < f.values.size := by
  constructor
  · rintro ⟨mem_layout, nodup, params⟩
    exact ⟨fun b => (mem_layout b).mp, fun n => (mem_layout ⟨n⟩).mpr, nodup, params⟩
  · rintro ⟨within, all, nodup, params⟩
    exact ⟨fun b => ⟨within b, all b.index⟩, nodup, params⟩

instance (f : Function) : Decidable f.Coherent :=
  decidable_of_iff' _ f.coherent_iff

/-! ## Ways that lack a value -/

variable {f : Function} {v : ValueId} {b d : BlockId}

theorem Shaped.entry_mem (h : f.Shaped) : f.entry ∈ f.layout := by
  obtain ⟨b, rest, hl⟩ := List.exists_cons_of_ne_nil h.nonempty
  simp [entry, hl]

theorem mem_successors_iff {c : BlockId} :
    c ∈ f.successors b ↔ ∃ t, (f.block b).terminator? = some t ∧ c ∈ t.op.targets := by
  unfold successors Block.successors
  cases (f.block b).terminator? <;> simp

theorem Shaped.successor_mem {c : BlockId} (h : f.Shaped) (hb : b ∈ f.layout)
    (hc : c ∈ f.successors b) : c ∈ f.layout := by
  obtain ⟨t, ht, target⟩ := mem_successors_iff.1 hc
  have last : t ∈ f.body b := List.mem_of_getLast? (Option.filter_eq_some_iff.mp ht).1
  exact (h.fits b hb t last).targets c target

theorem mem_predecessors_iff {p : BlockId} :
    p ∈ f.predecessors b ↔ p ∈ f.layout ∧ b ∈ f.successors p := by
  simp [predecessors]

theorem WellFormed.mem_predecessors_of_incoming (h : f.WellFormed) (hb : b ∈ f.layout)
    {i : Instruction} (hi : i ∈ f.body b) {pairs : List (Operand × BlockId)}
    (hop : i.op = .phi pairs) {x : Operand} {p : BlockId} (hp : (x, p) ∈ pairs) :
    p ∈ f.predecessors b :=
  (h.merges b hb i hi pairs hop).mem_iff.mp (List.mem_map.mpr ⟨_, hp, rfl⟩)

theorem WellFormed.successor_of_incoming (h : f.WellFormed) (hb : b ∈ f.layout) {i : Instruction}
    (hi : i ∈ f.body b) {pairs : List (Operand × BlockId)} (hop : i.op = .phi pairs)
    {x : Operand} {p : BlockId} (hp : (x, p) ∈ pairs) : b ∈ f.successors p :=
  (mem_predecessors_iff.1 (h.mem_predecessors_of_incoming hb hi hop hp)).2

theorem Lacks.mem_layout (h : f.Shaped) (lacks : f.Lacks v b) : b ∈ f.layout := by
  induction lacks with
  | entry => exact h.entry_mem
  | step _ _ edge ih => exact h.successor_mem ih edge

theorem Lacks.reachable (h : f.Shaped) (lacks : f.Lacks v b) : f.Reachable b := by
  induction lacks with
  | entry => exact .refl h.entry_mem
  | step _ _ edge ih => exact .step ih edge (h.successor_mem ih.inside_end edge)

theorem lacks_of_reaches {inside : BlockId → Prop} (way : Reaches f.successors inside f.entry b)
    (undefined : ∀ c, inside c → v ∉ results (f.body c)) : f.Lacks v b := by
  induction way with
  | refl _ => exact .entry
  | step way edge _ ih => exact .step ih (undefined _ way.inside_end) edge

theorem lacks_of_reachable (reach : f.Reachable d)
    (only : ∀ c ∈ f.layout, v ∈ results (f.body c) → c = d) : f.Lacks v d := by
  have undefined : ∀ c, c ∈ f.layout ∧ c ≠ d → v ∉ results (f.body c) :=
    fun c ⟨hc, hne⟩ hv => hne (only c hc hv)
  rcases reach.avoids_or_first d with h | h | ⟨c, h, edge, _⟩
  · exact absurd rfl h.inside_end.2
  · exact h ▸ .entry
  · exact .step (lacks_of_reaches h undefined) (undefined c h.inside_end) edge

theorem Lacks.reachableAvoiding (h : f.Shaped) (defines : v ∈ results (f.body d))
    (lacks : f.Lacks v b) (ne : b ≠ d) : f.ReachableAvoiding d b := by
  induction lacks with
  | entry => exact .refl ⟨h.entry_mem, ne⟩
  | @step p b way undefined edge ih =>
    have hp : p ≠ d := fun e => undefined (e ▸ defines)
    exact .step (ih hp) edge ⟨h.successor_mem (way.mem_layout h) edge, ne⟩

/-! ## Where values are defined -/

/-- The instruction at `l` defines `v`. -/
def DefinedAt (f : Function) (v : ValueId) (l : Location) : Prop :=
  l.block ∈ f.layout ∧ ∃ i, (f.body l.block)[l.position]? = some i ∧ i.result = some v

theorem mem_definitions_iff {l : Location} : (v, l) ∈ f.definitions ↔ f.DefinedAt v l := by
  obtain ⟨b, n⟩ := l
  simp only [definitions, DefinedAt, List.mem_flatMap, List.mem_filterMap, Prod.exists,
    List.mk_mem_zipIdx_iff_getElem?, Option.map_eq_some_iff, Prod.mk.injEq, Location.mk.injEq]
  constructor
  · rintro ⟨_, hb, i, _, hi, _, hr, rfl, rfl, rfl⟩
    exact ⟨hb, i, hi, hr⟩
  · rintro ⟨hb, i, hi, hr⟩
    exact ⟨b, hb, i, n, hi, v, hr, rfl, rfl, rfl⟩

theorem map_fst_definitions (f : Function) : f.definitions.map (·.1) = f.defined := by
  have body : ∀ b (is : List Instruction) n, ((is.zipIdx n).filterMap fun x =>
      x.1.result.map (·, (⟨b, x.2⟩ : Location))).map (·.1) = results is := by
    intro b is
    induction is with
    | nil => intro n; rfl
    | cons i is ih =>
      intro n
      rw [List.zipIdx_cons, List.filterMap_cons, results_cons]
      cases i.result <;> simp [ih]
  simp only [definitions, defined, List.map_flatMap, body]

theorem DefinedAt.unique (h : f.Shaped) {l l' : Location} (hl : f.DefinedAt v l)
    (hl' : f.DefinedAt v l') : l = l' := by
  have nodup : (f.definitions.map (·.1)).Nodup := map_fst_definitions f ▸ h.once
  have := List.inj_on_of_nodup_map nodup (mem_definitions_iff.2 hl) (mem_definitions_iff.2 hl')
    rfl
  exact congrArg Prod.snd this

theorem exists_definedAt (hb : b ∈ f.layout) (hv : v ∈ results (f.body b)) :
    ∃ n, f.DefinedAt v ⟨b, n⟩ := by
  obtain ⟨i, hi, hr⟩ := mem_results_iff.1 hv
  obtain ⟨n, hn⟩ := List.getElem?_of_mem hi
  exact ⟨n, hb, i, hn, hr⟩

theorem DefinedAt.mem_results {l : Location} (h : f.DefinedAt v l) :
    v ∈ results (f.body l.block) := by
  obtain ⟨_, i, hi, hr⟩ := h
  exact mem_results_iff.2 ⟨i, List.mem_of_getElem? hi, hr⟩

theorem Shaped.defining_block {c : BlockId} (h : f.Shaped) (hb : b ∈ f.layout)
    (hvb : v ∈ results (f.body b)) (hc : c ∈ f.layout) (hvc : v ∈ results (f.body c)) : b = c := by
  obtain ⟨n, hn⟩ := exists_definedAt hb hvb
  obtain ⟨m, hm⟩ := exists_definedAt hc hvc
  exact congrArg Location.block (hn.unique h hm)

theorem DefinedAt.mem_results_take_iff (h : f.Shaped) {n k : Nat} (hv : f.DefinedAt v ⟨b, n⟩) :
    v ∈ results ((f.body b).take k) ↔ n < k := by
  obtain ⟨hb, i, hi, hr⟩ := id hv
  constructor
  · intro hk
    obtain ⟨j, hj, hjr⟩ := mem_results_iff.1 hk
    obtain ⟨m, hm⟩ := List.getElem?_of_mem hj
    rw [List.getElem?_take] at hm
    split at hm
    · have at_m : f.DefinedAt v ⟨b, m⟩ := ⟨hb, j, hm, hjr⟩
      cases hv.unique h at_m
      assumption
    · cases hm
  · intro hk
    refine mem_results_iff.2 ⟨i, List.mem_of_getElem? (i := n) ?_, hr⟩
    rw [List.getElem?_take, if_pos hk, hi]

end Function

namespace Scope

variable {f : Function} {v : ValueId} {b : BlockId}

theorem isReachable_iff :
    (ofFunction f).dominators.isReachable b = true ↔ f.Reachable b :=
  Dominators.isReachable_compute_iff

theorem definedAt_of_definition? {l : Location} (h : (ofFunction f).definition? v = some l) :
    f.DefinedAt v l := by
  obtain ⟨xs, ys, split, _⟩ := List.lookup_eq_some_iff.mp h
  have listed : (v, l) ∈ f.definitions.reverse := by
    rw [show f.definitions.reverse = _ from split]
    simp
  exact Function.mem_definitions_iff.1 (List.mem_reverse.mp listed)

theorem definition?_eq_some_iff (h : f.Shaped) {l : Location} :
    (ofFunction f).definition? v = some l ↔ f.DefinedAt v l := by
  refine ⟨definedAt_of_definition?, fun hl => ?_⟩
  cases hd : (ofFunction f).definition? v with
  | none =>
    rw [← Function.mem_definitions_iff] at hl
    have absent := List.lookup_eq_none_iff.mp hd (v, l) (by simpa [ofFunction] using hl)
    simp at absent
  | some l' => rw [(definedAt_of_definition? hd).unique h hl]

/-- To be defined before a place is, for a value that is no parameter, not to be lacking there. -/
theorem definedBefore_iff (h : f.Shaped) (reach : f.Reachable b) {n : Nat} :
    (ofFunction f).definedBefore v b n = true ↔
      v ∈ f.params ∨ ¬ (f.Lacks v b ∧ v ∉ results ((f.body b).take n)) := by
  rw [definedBefore, Bool.or_eq_true, List.contains_iff_mem]
  refine or_congr Iff.rfl ?_
  cases hd : (ofFunction f).definition? v with
  | none =>
    have undefined : ∀ c, c ∈ f.layout → v ∉ results (f.body c) := by
      intro c hc hv
      obtain ⟨m, hm⟩ := Function.exists_definedAt hc hv
      rw [(definition?_eq_some_iff h).mpr hm] at hd
      cases hd
    refine ⟨(nomatch ·), fun hn => absurd ⟨Function.lacks_of_reaches reach undefined, ?_⟩ hn⟩
    intro hv
    obtain ⟨i, hi, hr⟩ := mem_results_iff.1 hv
    exact undefined b reach.inside_end (mem_results_iff.2 ⟨i, List.mem_of_mem_take hi, hr⟩)
  | some l =>
    obtain ⟨d, m⟩ := l
    have at_d := (definition?_eq_some_iff h).mp hd
    have hd_mem : d ∈ f.layout := at_d.1
    have only : ∀ c ∈ f.layout, v ∈ results (f.body c) → c = d :=
      fun c hc hv => h.defining_block hc hv hd_mem at_d.mem_results
    by_cases hb : d = b
    · subst hb
      have lacks := Function.lacks_of_reachable reach only
      simp [at_d.mem_results_take_iff h, lacks]
    · have outside : v ∉ results ((f.body b).take n) := by
        intro hv
        obtain ⟨i, hi, hr⟩ := mem_results_iff.1 hv
        exact hb (only b reach.inside_end
          (mem_results_iff.2 ⟨i, List.mem_of_mem_take hi, hr⟩)).symm
      have lacks_iff : f.Lacks v b ↔ f.ReachableAvoiding d b := by
        refine ⟨fun lacks => lacks.reachableAvoiding h at_d.mem_results (Ne.symm hb), fun way => ?_⟩
        exact Function.lacks_of_reaches way fun c ⟨hc, hne⟩ hv => hne (only c hc hv)
      simp [hb, outside, lacks_iff, Dominators.dominates_compute_iff, ofFunction, hd_mem, reach]

end Scope

namespace Function

variable {f : Function}

theorem incomingFault_eq_false_iff (h : f.Shaped) {v : ValueId} {p : BlockId} :
    ((Scope.ofFunction f).dominators.isReachable p &&
      !(Scope.ofFunction f).definedBefore v p (f.body p).length) = false ↔
      (f.Lacks v p → v ∉ results (f.body p) → v ∈ f.params) := by
  by_cases reach : f.Reachable p
  · rw [Scope.isReachable_iff.2 reach, Bool.true_and, Bool.not_eq_false',
      Scope.definedBefore_iff h reach, List.take_length]
    grind
  · have unreached : (Scope.ofFunction f).dominators.isReachable p = false :=
      eq_false_of_ne_true fun r => reach (Scope.isReachable_iff.1 r)
    rw [unreached, Bool.false_and]
    exact ⟨fun _ lacks => absurd (lacks.reachable h) reach, fun _ => rfl⟩

theorem instructionScopeFault?_eq_none_iff (h : f.Shaped) {b : BlockId} {n : Nat}
    {i : Instruction} (reach : f.Reachable b) :
    f.instructionScopeFault? (Scope.ofFunction f) b n i = none ↔
      (i.op.isPhi = false → ∀ v ∈ i.op.usedValues, f.Lacks v b →
        v ∉ results ((f.body b).take n) → v ∈ f.params) ∧
      (∀ pairs, i.op = .phi pairs → ∀ v p, (.value v, p) ∈ pairs → f.Lacks v p →
        v ∉ results (f.body p) → v ∈ f.params) := by
  have ordinary : (i.op.usedValues.findSome? fun v =>
      if (Scope.ofFunction f).definedBefore v b n then none
      else some (ScopeFault.operand (f.valueName v) (f.renderInstruction i) (f.blockName b))) =
        none ↔ ∀ v ∈ i.op.usedValues, f.Lacks v b → v ∉ results ((f.body b).take n) →
          v ∈ f.params := by
    rw [List.findSome?_eq_none_iff]
    refine forall₂_congr fun v _ => ?_
    rw [ite_eq_left_iff]
    simp only [Scope.definedBefore_iff h reach]
    grind
  unfold instructionScopeFault?
  cases hop : i.op with
  | phi pairs =>
    simp only [Op.isPhi, Bool.true_eq_false, false_implies, true_and, List.findSome?_eq_none_iff,
      Op.phi.injEq, forall_eq', Prod.forall]
    constructor
    · intro none v p hp
      have := none _ _ hp
      simp only [ite_eq_right_iff, reduceCtorEq, imp_false, Bool.not_eq_true] at this
      exact (incomingFault_eq_false_iff h).mp this
    · intro strict x p hp
      cases x with
      | const c => rfl
      | value v => simp [(incomingFault_eq_false_iff h).mpr (strict v p hp)]
  | _ =>
    rw [hop] at ordinary
    simpa only [Op.isPhi, true_implies, reduceCtorEq, false_implies, implies_true, and_true]
      using ordinary

/-- The scoping check accepts exactly the strict ones among the well-formed functions. -/
theorem checkScoping_eq_ok_iff (h : f.WellFormed) : f.checkScoping = .ok () ↔ f.Strict := by
  have whole : f.checkScoping = .ok () ↔ ∀ b, f.Reachable b → ∀ n i, (f.body b)[n]? = some i →
      f.instructionScopeFault? (Scope.ofFunction f) b n i = none := by
    have found : f.checkScoping = .ok () ↔ f.scopeFault? = none := by
      unfold checkScoping
      cases f.scopeFault? <;> simp
    rw [found, scopeFault?, List.findSome?_eq_none_iff]
    constructor
    · intro none b reach n i hi
      have := none b reach.inside_end
      rw [if_pos (Scope.isReachable_iff.2 reach), List.findSome?_eq_none_iff] at this
      exact this (i, n) (List.mk_mem_zipIdx_iff_getElem?.mpr hi)
    · intro none b _
      split
      · next reach =>
        rw [List.findSome?_eq_none_iff]
        rintro ⟨i, n⟩ hi
        exact none b (Scope.isReachable_iff.1 reach) n i
          (List.mk_mem_zipIdx_iff_getElem?.mp hi)
      · rfl
  rw [whole]
  constructor
  · intro none
    refine ⟨fun b v exposed lacks => ?_,
      fun b hb v p ⟨i, hi, pairs, hop, hp⟩ lacks undefined => ?_⟩
    · have reach := lacks.reachable h.toShaped
      obtain ⟨n, i, hi, phi, use, fresh⟩ := exposed_iff_getElem?.1 exposed
      exact ((instructionScopeFault?_eq_none_iff h.toShaped reach).mp (none b reach n i hi)).1 phi v use
        lacks fresh
    · have edge := h.successor_of_incoming hb hi hop hp
      have reach : f.Reachable b := .step (lacks.reachable h.toShaped) edge hb
      obtain ⟨n, hn⟩ := List.getElem?_of_mem hi
      exact ((instructionScopeFault?_eq_none_iff h.toShaped reach).mp (none b reach n i hn)).2 pairs hop v p
        hp lacks undefined
  · intro strict b reach n i hi
    refine (instructionScopeFault?_eq_none_iff h.toShaped reach).mpr ⟨?_, ?_⟩
    · intro phi v use lacks fresh
      exact strict.operands b v (exposed_iff_getElem?.2 ⟨n, i, hi, phi, use, fresh⟩) lacks
    · intro pairs hop v p hp lacks undefined
      exact strict.incoming b reach.inside_end v p ⟨i, List.mem_of_getElem? hi, pairs, hop, hp⟩ lacks undefined

end Function

end CheckpointRestart
