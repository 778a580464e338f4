import CheckpointRestart.Pointer.Roots
import CheckpointRestart.Proofs.Flow.Liveness
import CheckpointRestart.Proofs.Pointer.Seeds

/-! # Where pointers come from

The roots of a pointer solve the equations that the instructions give. A pass can only add roots or
make those of a pointer unknown, so the bound on the number of passes is never what ends the
iteration.
-/

namespace CheckpointRestart

namespace RootMap

/-- What is known in the second place leaves as much open as what is known in the first. -/
def Less : Option ValueSet → Option ValueSet → Prop
  | _, none => True
  | none, some _ => False
  | some s, some t => ∀ r ∈ s, r ∈ t

def Below (x y : RootMap) : Prop :=
  ∀ v : ValueId, Less x[v]? y[v]?

variable {x y : RootMap} {v w : ValueId} {s : Option ValueSet} {xs : List Operand}

theorem Less.refl : Less s s := by
  cases s with
  | none => trivial
  | some s => exact fun _ hr => hr

theorem Less.trans {t u : Option ValueSet} (h : Less s t) (h' : Less t u) : Less s u := by
  cases u with
  | none => trivial
  | some u =>
    cases t with
    | none => cases h'
    | some t =>
      cases s with
      | none => cases h
      | some s => exact fun r hr => h' r (h r hr)

theorem Less.antisymm {t : Option ValueSet} (h : Less s t) (h' : Less t s) : s = t := by
  cases s with
  | none =>
    cases t with
    | none => rfl
    | some t => cases h
  | some s =>
    cases t with
    | none => cases h'
    | some t => exact congrArg _ (Std.ExtTreeSet.ext_mem fun r => ⟨h r, h' r⟩)

theorem Less.exists_of_some {t : ValueSet} (h : Less s (some t)) :
    ∃ u, s = some u ∧ ∀ r ∈ u, r ∈ t := by
  cases s with
  | none => cases h
  | some u => exact ⟨u, rfl, h⟩

theorem getElem?_assign : (x.assign v s)[w]? = if w = v then s else x[w]? := by
  cases s with
  | some s => exact TreeMap.getElem?_insert_iff
  | none =>
    rw [assign, Std.ExtTreeMap.getElem?_erase]
    by_cases h : w = v
    · simp [h]
    · rw [if_neg h, if_neg]
      rw [Std.LawfulEqCmp.compare_eq_iff_eq]
      exact Ne.symm h

theorem Below.ofOperand? (h : Below x y) (z : Operand) : Less (x.ofOperand? z) (y.ofOperand? z) := by
  cases z with
  | value v => exact h v
  | const c => exact .refl

theorem union?_eq_some_iff {t : ValueSet} : x.union? xs = some t ↔
    (∀ z ∈ xs, (x.ofOperand? z).isSome = true) ∧
      ∀ r, r ∈ t ↔ ∃ z ∈ xs, ∃ u, x.ofOperand? z = some u ∧ r ∈ u := by
  have fold : ∀ acc : ValueSet, xs.foldlM (fun acc z => (x.ofOperand? z).map (acc ∪ ·)) acc = some t ↔
      (∀ z ∈ xs, (x.ofOperand? z).isSome = true) ∧
        ∀ r, r ∈ t ↔ r ∈ acc ∨ ∃ z ∈ xs, ∃ u, x.ofOperand? z = some u ∧ r ∈ u := by
    induction xs with
    | nil =>
      intro acc
      simp only [List.foldlM_nil, Option.pure_def, Option.some.injEq, List.not_mem_nil, false_implies,
        implies_true, true_and, false_and, exists_false, or_false]
      exact ⟨fun e r => e ▸ Iff.rfl, fun same => Std.ExtTreeSet.ext_mem fun r => (same r).symm⟩
    | cons z zs ih =>
      intro acc
      rw [List.foldlM_cons]
      cases known : x.ofOperand? z with
      | none => simp [known]
      | some u =>
        simp only [Option.map_some, Option.bind_eq_bind, Option.bind_some, ih, List.forall_mem_cons,
          known, Option.isSome_some, true_and, Std.ExtTreeSet.mem_union_iff, List.exists_mem_cons_iff,
          Option.some.injEq, exists_eq_left', or_assoc]
  rw [union?, fold ∅]
  simp

theorem Below.union? (h : Below x y) (xs : List Operand) : Less (x.union? xs) (y.union? xs) := by
  have fold : ∀ acc acc' : ValueSet, (∀ r ∈ acc, r ∈ acc') →
      Less (xs.foldlM (fun acc z => (x.ofOperand? z).map (acc ∪ ·)) acc)
        (xs.foldlM (fun acc z => (y.ofOperand? z).map (acc ∪ ·)) acc') := by
    induction xs with
    | nil => exact fun _ _ sub => sub
    | cons z zs ih =>
      intro acc acc' sub
      rw [List.foldlM_cons, List.foldlM_cons]
      have operand := h.ofOperand? z
      cases known : y.ofOperand? z with
      | none => trivial
      | some w =>
        obtain ⟨u, hu, sub'⟩ := (known ▸ operand).exists_of_some
        rw [hu]
        refine ih _ _ fun r hr => ?_
        rw [Std.ExtTreeSet.mem_union_iff] at hr ⊢
        exact hr.imp (sub r) (sub' r)
  exact fold ∅ ∅ fun _ hr => hr

end RootMap

open RootMap

namespace Function

variable {f : Function} {x y : RootMap} {v : ValueId} {op : Op} {b : BlockId}
  {d : BlockId × ValueId × Op} {ds : List (BlockId × ValueId × Op)}

theorem Below.rootsOf? (h : Below x y) (v : ValueId) (op : Op) :
    Less (f.rootsOf? x v op) (f.rootsOf? y v op) := by
  cases op with
  | alloca | malloc => exact .refl
  | phi incoming => exact h.union? _
  | gep z index => exact h.ofOperand? z
  | cast z t =>
    simp only [Function.rootsOf?]
    split
    · exact h.ofOperand? z
    · trivial
  | _ => trivial

/-- Takes one pointer's roots from the equations. -/
def updateRoots (f : Function) (x : RootMap) (d : BlockId × ValueId × Op) : RootMap :=
  x.assign d.2.1 (f.rootsOf? x d.2.1 d.2.2)

theorem rootPass_eq : f.rootPass ds x = ds.foldl f.updateRoots x := rfl

theorem getElem?_updateRoots :
    (f.updateRoots x d)[v]? = if v = d.2.1 then f.rootsOf? x d.2.1 d.2.2 else x[v]? :=
  getElem?_assign

theorem getElem?_foldl_updateRoots (hv : v ∉ ds.map (·.2.1)) : (ds.foldl f.updateRoots x)[v]? = x[v]? := by
  induction ds generalizing x with
  | nil => rfl
  | cons d ds ih =>
    rw [List.map_cons, List.mem_cons, not_or] at hv
    rw [List.foldl_cons, ih hv.2, getElem?_updateRoots, if_neg hv.1]

/-! ## Passes only add -/

/-- Nothing more is known than the equations give. -/
def RootsRise (f : Function) (x : RootMap) : Prop :=
  ∀ d ∈ f.pointerDefinitions, Less x[d.2.1]? (f.rootsOf? x d.2.1 d.2.2)

/-- No pointer is defined twice, and no parameter is defined again. -/
structure PointersOnce (f : Function) : Prop where
  nodup : (f.pointerDefinitions.map (·.2.1)).Nodup
  params : ∀ p ∈ f.params, p ∉ f.pointerDefinitions.map (·.2.1)

theorem Shaped.pointersOnce (shaped : f.Shaped) : f.PointersOnce where
  nodup := Seeds.nodup_pointerDefinitions shaped
  params p given defined := by
    obtain ⟨⟨b, p, op⟩, mem, rfl⟩ := List.mem_map.mp defined
    exact shaped.params p (Seeds.mem_pointerDefinitions_iff.1 mem).1.mem_defined given

theorem PointersOnce.eq_of_mem (once : f.PointersOnce) {d d' : BlockId × ValueId × Op}
    (hd : d ∈ f.pointerDefinitions) (hd' : d' ∈ f.pointerDefinitions) (same : d'.2.1 = d.2.1) :
    d' = d :=
  List.inj_on_of_nodup_map once.nodup hd' hd same

theorem PointersOnce.op_eq (once : f.PointersOnce) (pointer : (f.valueType v).isPointer = true)
    {b c : BlockId} {op op' : Op} (def_ : f.Defines b v op) (other : f.Defines c v op') : op' = op := by
  have same := once.eq_of_mem (Seeds.mem_pointerDefinitions_iff.2 ⟨def_, pointer⟩)
    (Seeds.mem_pointerDefinitions_iff.2 ⟨other, pointer⟩) rfl
  exact congrArg (·.2.2) same

theorem RootsRise.below_update (h : f.RootsRise x) (hd : d ∈ f.pointerDefinitions) :
    Below x (f.updateRoots x d) := by
  intro v
  rw [getElem?_updateRoots]
  split
  · next e => exact e ▸ h d hd
  · exact .refl

theorem RootsRise.update (h : f.RootsRise x) (once : f.PointersOnce) (hd : d ∈ f.pointerDefinitions) :
    f.RootsRise (f.updateRoots x d) := by
  intro d' hd'
  refine Less.trans ?_ (Below.rootsOf? (h.below_update hd) _ _)
  rw [getElem?_updateRoots]
  split
  · next e =>
    rw [once.eq_of_mem hd hd' e]
    exact .refl
  · exact h d' hd'

theorem RootsRise.foldl (h : f.RootsRise x) (once : f.PointersOnce) (sub : ∀ d ∈ ds, d ∈ f.pointerDefinitions) :
    f.RootsRise (ds.foldl f.updateRoots x) ∧ Below x (ds.foldl f.updateRoots x) := by
  induction ds generalizing x with
  | nil => exact ⟨h, fun _ => .refl⟩
  | cons d ds ih =>
    rw [List.forall_mem_cons] at sub
    obtain ⟨rise, below⟩ := ih (h.update once sub.1) sub.2
    exact ⟨rise, fun v => (h.below_update sub.1 v).trans (below v)⟩

/-- In a pass that changes nothing the equations hold. -/
theorem RootsRise.eq_of_same (h : f.RootsRise x) (once : f.PointersOnce)
    (same : f.rootPass f.pointerDefinitions x = x) (hd : d ∈ f.pointerDefinitions) :
    x[d.2.1]? = f.rootsOf? x d.2.1 d.2.2 := by
  -- `front` is what the pass has dealt with when it comes to `d`
  obtain ⟨front, back, split⟩ := List.append_of_mem hd
  have within : ∀ d' ∈ front, d' ∈ f.pointerDefinitions := fun d' hd' => by simp [split, hd']
  have behind : ∀ d' ∈ back, d' ∈ f.pointerDefinitions := fun d' hd' => by simp [split, hd']
  obtain ⟨rise, below⟩ := h.foldl once within
  obtain ⟨-, later⟩ := (rise.update once hd).foldl once behind
  have last := later d.2.1
  rw [getElem?_updateRoots, if_pos rfl, ← List.foldl_cons, ← List.foldl_append, ← split] at last
  rw [rootPass_eq] at same
  rw [same] at last
  exact (h d hd).antisymm ((Below.rootsOf? below _ _).trans last)

/-! ## How much can be added -/

/-- Every value that can be a root. -/
def conceivableRoots (f : Function) : List ValueId :=
  f.pointerDefinitions.map (·.2.1) ++ f.params

/-- No set of roots holds a value that cannot be a root. -/
def RootsWithin (f : Function) (x : RootMap) : Prop :=
  ∀ (v : ValueId) (s : ValueSet), x[v]? = some s → ∀ r ∈ s, r ∈ f.conceivableRoots

theorem RootsWithin.ofOperand? (h : f.RootsWithin x) {z : Operand} {s : ValueSet}
    (known : x.ofOperand? z = some s) : ∀ r ∈ s, r ∈ f.conceivableRoots := by
  cases z with
  | value v => exact h v s known
  | const c =>
    cases known
    simp

theorem RootsWithin.rootsOf? (h : f.RootsWithin x) (hd : d ∈ f.pointerDefinitions) {s : ValueSet}
    (known : f.rootsOf? x d.2.1 d.2.2 = some s) : ∀ r ∈ s, r ∈ f.conceivableRoots := by
  obtain ⟨b, v, op⟩ := d
  have own : ∀ r ∈ ({v} : ValueSet), r ∈ f.conceivableRoots := by
    intro r hr
    obtain rfl := TreeSet.mem_singleton_iff.1 hr
    exact List.mem_append_left _ (List.mem_map_of_mem hd)
  cases op with
  | alloca | malloc =>
    cases known
    exact own
  | phi incoming =>
    intro r hr
    obtain ⟨z, -, u, hu, hr⟩ := ((union?_eq_some_iff.1 known).2 r).mp hr
    exact h.ofOperand? hu r hr
  | gep z index => exact h.ofOperand? known
  | cast z t =>
    simp only [Function.rootsOf?] at known
    split at known
    · exact h.ofOperand? known
    · cases known
  | _ => cases known

theorem RootsWithin.foldl (h : f.RootsWithin x) (sub : ∀ d ∈ ds, d ∈ f.pointerDefinitions) :
    f.RootsWithin (ds.foldl f.updateRoots x) := by
  induction ds generalizing x with
  | nil => exact h
  | cons d ds ih =>
    rw [List.forall_mem_cons] at sub
    refine ih (fun v s known => ?_) sub.2
    rw [getElem?_updateRoots] at known
    split at known
    · exact h.rootsOf? sub.1 known
    · exact h v s known

/-- How much is known of a pointer, the least if everything is. -/
def weight (top : Nat) : Option ValueSet → Nat
  | none => top
  | some s => s.size

def rootRank (f : Function) (x : RootMap) : Nat :=
  (f.pointerDefinitions.map fun d => weight (f.conceivableRoots.length + 1) x[d.2.1]?).sum

theorem RootsWithin.weight_le (h : f.RootsWithin x) (v : ValueId) :
    weight (f.conceivableRoots.length + 1) x[v]? ≤ f.conceivableRoots.length + 1 := by
  cases known : x[v]? with
  | none => exact Nat.le_refl _
  | some s => exact Nat.le_succ_of_le (TreeSet.size_le_of_subset (h v s known))

theorem RootsWithin.rank_le (h : f.RootsWithin x) :
    f.rootRank x ≤ f.pointerDefinitions.length * (f.conceivableRoots.length + 1) := by
  have each : ∀ n ∈ f.pointerDefinitions.map fun d => weight (f.conceivableRoots.length + 1) x[d.2.1]?,
      n ≤ f.conceivableRoots.length + 1 := by
    intro n hn
    obtain ⟨d, -, rfl⟩ := List.mem_map.mp hn
    exact h.weight_le _
  simpa [rootRank] using List.sum_le_card_nsmul _ _ each

theorem weight_le_weight {top : Nat} {s t : Option ValueSet} (h : Less s t)
    (room : ∀ u, s = some u → u.size < top) : weight top s ≤ weight top t := by
  cases t with
  | none =>
    cases s with
    | none => exact Nat.le_refl _
    | some s => exact Nat.le_of_lt (room s rfl)
  | some t =>
    obtain ⟨u, rfl, sub⟩ := h.exists_of_some
    exact TreeSet.size_le_size sub

theorem weight_lt_weight {top : Nat} {s t : Option ValueSet} (h : Less s t) (differ : t ≠ s)
    (room : ∀ u, s = some u → u.size < top) : weight top s < weight top t := by
  cases t with
  | none =>
    cases s with
    | none => exact absurd rfl differ
    | some s => exact room s rfl
  | some t =>
    obtain ⟨u, rfl, sub⟩ := h.exists_of_some
    by_contra ge
    exact differ (congrArg _ (TreeSet.eq_of_subset_of_size_le sub (Nat.not_lt.mp ge)).symm)

theorem rootRank_lt (within : f.RootsWithin x) (below : Below x y)
    (changed : ∃ d ∈ f.pointerDefinitions, y[d.2.1]? ≠ x[d.2.1]?) : f.rootRank x < f.rootRank y := by
  have room : ∀ (v : ValueId) (u : ValueSet), x[v]? = some u → u.size < f.conceivableRoots.length + 1 :=
    fun v u known => Nat.lt_succ_of_le (TreeSet.size_le_of_subset (within v u known))
  obtain ⟨d, hd, differ⟩ := changed
  exact List.sum_lt_sum _ _ (fun d _ => weight_le_weight (below _) (room _))
    ⟨d, hd, weight_lt_weight (below _) differ (room _)⟩

/-! ## What the roots come to -/

theorem getElem?_initialRoots (v : ValueId) : (f.initialRoots f.pointerDefinitions)[v]? =
    (if v ∈ f.params ∧ (f.valueType v).isPointer = true then some {v} else none).or
      (if v ∈ f.pointerDefinitions.map (·.2.1) then some ∅ else none) := by
  have params : ∀ (ps : List ValueId) (x : RootMap),
      (ps.foldl (fun roots p => roots.insert p {p}) x)[v]? = if v ∈ ps then some {v} else x[v]? := by
    intro ps
    induction ps with
    | nil => simp
    | cons p ps ih =>
      intro x
      rw [List.foldl_cons, ih, TreeMap.getElem?_insert_iff]
      by_cases e : v = p <;> simp [e]
  have others : ∀ (ds : List (BlockId × ValueId × Op)) (x : RootMap), (ds.foldl (fun roots d =>
      if d.2.1 ∈ roots then roots else roots.insert d.2.1 ∅) x)[v]? =
        x[v]?.or (if v ∈ ds.map (·.2.1) then some ∅ else none) := by
    intro ds
    induction ds with
    | nil => simp
    | cons d ds ih =>
      intro x
      rw [List.foldl_cons, ih]
      by_cases e : v = d.2.1
      · subst e
        by_cases there : d.2.1 ∈ x <;> simp [there]
      · have same : (if d.2.1 ∈ x then x else x.insert d.2.1 ∅)[v]? = x[v]? := by
          split
          · rfl
          · exact TreeMap.getElem?_insert_iff.trans (if_neg e)
        rw [same]
        simp only [List.map_cons, List.mem_cons, e, false_or]
  refine (others _ _).trans (congrArg (Option.or · _) ?_)
  rw [params]
  simp

/-- The roots of a pointer are what the instruction that defines it makes of the roots of others,
and those of a pointer parameter are the parameter itself. -/
theorem PointersOnce.roots_spec (once : f.PointersOnce) :
    (∀ d ∈ f.pointerDefinitions, f.roots[d.2.1]? = f.rootsOf? f.roots d.2.1 d.2.2) ∧
      ∀ p ∈ f.params, (f.valueType p).isPointer = true → f.roots[p]? = some {p} := by
  have given : ∀ d ∈ f.pointerDefinitions, d.2.1 ∉ f.params :=
    fun d hd given => once.params _ given (List.mem_map_of_mem hd)
  have rise : f.RootsRise (f.initialRoots f.pointerDefinitions) := by
    intro d hd
    have start : (f.initialRoots f.pointerDefinitions)[d.2.1]? = some ∅ := by
      rw [getElem?_initialRoots, if_neg fun h => given d hd h.1, if_pos (List.mem_map_of_mem hd)]
      rfl
    rw [start]
    cases f.rootsOf? (f.initialRoots f.pointerDefinitions) d.2.1 d.2.2 with
    | none => trivial
    | some s => exact fun r hr => absurd hr (by simp)
  have within : f.RootsWithin (f.initialRoots f.pointerDefinitions) := by
    intro v s known r hr
    rw [getElem?_initialRoots] at known
    split at known
    · next h =>
      cases known
      obtain rfl := TreeSet.mem_singleton_iff.1 hr
      exact List.mem_append_right _ h.1
    · split at known
      · cases known
        simp at hr
      · cases known
  have parameters : ∀ p ∈ f.params, (f.valueType p).isPointer = true →
      (f.initialRoots f.pointerDefinitions)[p]? = some {p} := by
    intro p hp pointer
    rw [getElem?_initialRoots, if_pos ⟨hp, pointer⟩]
    rfl
  have pass_param : ∀ x : RootMap, ∀ p ∈ f.params, (f.rootPass f.pointerDefinitions x)[p]? = x[p]? := by
    intro x p hp
    rw [rootPass_eq]
    refine getElem?_foldl_updateRoots fun defined => ?_
    obtain ⟨d, hd, rfl⟩ := List.mem_map.mp defined
    exact given d hd hp
  have room : f.pointerDefinitions.length * (f.conceivableRoots.length + 1) -
      f.rootRank (f.initialRoots f.pointerDefinitions) <
        f.pointerDefinitions.length * (f.pointerDefinitions.length + f.params.length + 2) + 1 := by
    have le : f.conceivableRoots.length + 1 ≤ f.pointerDefinitions.length + f.params.length + 2 := by
      simp [conceivableRoots]
    have := Nat.mul_le_mul_left f.pointerDefinitions.length le
    omega
  obtain ⟨y, ⟨rise, -, parameters⟩, same, last⟩ := stabilize_eq_step (f.rootPass f.pointerDefinitions)
    (fun x y => f.pointerDefinitions.all fun d => x[d.2.1]? == y[d.2.1]?)
    (fun x => f.RootsRise x ∧ f.RootsWithin x ∧
      ∀ p ∈ f.params, (f.valueType p).isPointer = true → x[p]? = some {p})
    f.rootRank (f.pointerDefinitions.length * (f.conceivableRoots.length + 1))
    (fun x inv => ⟨(inv.1.foldl once fun _ => id).1, inv.2.1.foldl fun _ => id,
      fun p hp pointer => (pass_param x p hp).trans (inv.2.2 p hp pointer)⟩)
    (fun x inv changed => rootRank_lt inv.2.1 (inv.1.foldl once fun _ => id).2
      (by simpa [rootPass_eq] using changed))
    (fun x inv => inv.2.1.rank_le) ⟨rise, within, parameters⟩ room
  have fixed : f.rootPass f.pointerDefinitions y = y := by
    refine Std.ExtTreeMap.ext_getElem? fun v => ?_
    by_cases hv : v ∈ f.pointerDefinitions.map (·.2.1)
    · obtain ⟨d, hd, rfl⟩ := List.mem_map.mp hv
      have all : ∀ d ∈ f.pointerDefinitions,
          (f.rootPass f.pointerDefinitions y)[d.2.1]? = y[d.2.1]? := by
        simpa using same
      exact all d hd
    · exact getElem?_foldl_updateRoots hv
  have roots : f.roots = y := last.trans fixed
  rw [roots]
  exact ⟨fun d hd => rise.eq_of_same once fixed hd, parameters⟩

theorem getElem?_roots_of_not_mem (hv : v ∉ f.pointerDefinitions.map (·.2.1)) :
    f.roots[v]? = (f.initialRoots f.pointerDefinitions)[v]? := by
  have passes : ∀ (same : RootMap → RootMap → Bool) (bound : Nat) (x : RootMap),
      (stabilize (f.rootPass f.pointerDefinitions) same bound x)[v]? = x[v]? := by
    intro same bound
    induction bound with
    | zero => exact fun _ => rfl
    | succ bound ih =>
      intro x
      have pass : (f.rootPass f.pointerDefinitions x)[v]? = x[v]? := getElem?_foldl_updateRoots hv
      rw [stabilize]
      split
      · exact pass
      · rw [ih, pass]
  exact passes _ _ _

theorem isPointer_of_roots {rs : ValueSet} (known : f.roots[v]? = some rs) :
    (f.valueType v).isPointer = true ∧ (v ∈ f.params ∨ ∃ b op, f.Defines b v op) := by
  by_cases hv : v ∈ f.pointerDefinitions.map (·.2.1)
  · obtain ⟨⟨b, v, op⟩, mem, rfl⟩ := List.mem_map.mp hv
    obtain ⟨def_, pointer⟩ := Seeds.mem_pointerDefinitions_iff.1 mem
    exact ⟨pointer, .inr ⟨b, op, def_⟩⟩
  · rw [getElem?_roots_of_not_mem hv, getElem?_initialRoots, if_neg hv, Option.or_none] at known
    split at known
    · next given => exact ⟨given.2, .inl given.1⟩
    · cases known

theorem PointersOnce.roots_of_derives (once : f.PointersOnce) {source : ValueId} {index : Option ValueId}
    {rs : ValueSet} (def_ : f.Defines b v op) (pointer : (f.valueType v).isPointer = true)
    (derives : Derives op source index) (known : f.roots[v]? = some rs) :
    f.roots[source]? = some rs ∧
      ((∃ x, op = .gep (.value source) x) ∨ ∃ t, op = .cast (.value source) t) := by
  rw [once.roots_spec.1 _ (Seeds.mem_pointerDefinitions_iff.2 ⟨def_, pointer⟩)] at known
  cases derives with
  | gep => exact ⟨known, .inl ⟨_, rfl⟩⟩
  | load => cases known
  | cast =>
    simp only [rootsOf?] at known
    split at known
    · exact ⟨known, .inr ⟨_, rfl⟩⟩
    · cases known

/-- What comes in where a pointer is merged has no roots that the pointer has not. -/
theorem PointersOnce.roots_of_incoming (once : f.PointersOnce) {pairs : List (Operand × BlockId)} {w : ValueId}
    {p : BlockId} {rs : ValueSet} (def_ : f.Defines b v (.phi pairs))
    (pointer : (f.valueType v).isPointer = true) (hw : (.value w, p) ∈ pairs)
    (known : f.roots[v]? = some rs) : ∃ ts, f.roots[w]? = some ts ∧ ∀ r ∈ ts, r ∈ rs := by
  rw [once.roots_spec.1 _ (Seeds.mem_pointerDefinitions_iff.2 ⟨def_, pointer⟩)] at known
  obtain ⟨each, mem⟩ := union?_eq_some_iff.1 known
  have flows : .value w ∈ pairs.map (·.1) := List.mem_map_of_mem hw
  obtain ⟨ts, hts⟩ := Option.isSome_iff_exists.mp (each _ flows)
  exact ⟨ts, hts, fun r hr => (mem r).mpr ⟨_, flows, ts, hts, hr⟩⟩

/-- A pointer that, if it points anywhere, points into an allocation of the function itself. -/
def OwnRoots (f : Function) (v : ValueId) : Prop :=
  ∃ rs, f.roots[v]? = some rs ∧ ∀ r ∈ rs, r ∉ f.params

namespace OwnRoots

variable (h : f.OwnRoots v) (shaped : f.Shaped) (pointer : (f.valueType v).isPointer = true)

include h shaped pointer

theorem not_mem_params : v ∉ f.params := by
  intro given
  obtain ⟨rs, known, own⟩ := h
  rw [shaped.pointersOnce.roots_spec.2 v given pointer] at known
  cases known
  exact own v (TreeSet.mem_singleton_iff.2 rfl) given

theorem incoming {pairs : List (Operand × BlockId)} (def_ : f.Defines b v (.phi pairs)) {w : ValueId}
    {p : BlockId} (hw : (.value w, p) ∈ pairs) : f.OwnRoots w := by
  obtain ⟨rs, known, own⟩ := h
  obtain ⟨ts, hts, sub⟩ := shaped.pointersOnce.roots_of_incoming def_ pointer hw known
  exact ⟨ts, hts, fun r hr => own r (sub r hr)⟩

theorem source {source : ValueId} {index : Option ValueId} (def_ : f.Defines b v op)
    (derives : Derives op source index) :
    f.OwnRoots source ∧ ((∃ x, op = .gep (.value source) x) ∨ ∃ t, op = .cast (.value source) t) := by
  obtain ⟨rs, known, own⟩ := h
  obtain ⟨same, kind⟩ := shaped.pointersOnce.roots_of_derives def_ pointer derives known
  exact ⟨⟨rs, same, own⟩, kind⟩

end OwnRoots

end Function

theorem AliasOracle.ofRoots_eq_false_iff {x : RootMap} {v w : ValueId} :
    AliasOracle.ofRoots x v w = false ↔ v ≠ w ∧ ∃ s t, x[v]? = some s ∧ x[w]? = some t ∧
      ∀ r ∈ s, r ∉ t := by
  rw [AliasOracle.ofRoots, Bool.or_eq_false_iff, beq_eq_false_iff_ne]
  refine and_congr_right fun _ => ?_
  cases x[v]? with
  | none => simp
  | some s =>
    cases x[w]? with
    | none => simp
    | some t =>
      have same : s.any (t.contains ·) = false ↔ ∀ r ∈ s, r ∉ t := by
        rw [TreeSet.any_eq_any_toList]
        simp
      simpa using same

end CheckpointRestart
