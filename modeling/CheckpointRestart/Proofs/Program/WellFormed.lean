import CheckpointRestart.Program.Structure
import CheckpointRestart.Proofs.Effects
import Mathlib.Data.List.Sort
import Mathlib.Data.List.TakeWhile

/-! # Well-formed functions

The structural check accepts a function exactly if it is well formed. Well-formedness is said of
the function as a whole, without an order in which faults are looked for: in particular the values
defined, in layout order, are distinct and none of them is a parameter.
-/

namespace CheckpointRestart

/-- The results of some instructions, in order. -/
def results (is : List Instruction) : List ValueId :=
  is.filterMap (·.result)

@[simp] theorem results_nil : results [] = [] := rfl

@[simp] theorem results_cons (i : Instruction) (is : List Instruction) :
    results (i :: is) = i.result.toList ++ results is := by
  cases h : i.result <;> simp [results, h]

@[simp] theorem results_append (is js : List Instruction) :
    results (is ++ js) = results is ++ results js := by
  simp [results]

theorem mem_results_iff {v : ValueId} {is : List Instruction} :
    v ∈ results is ↔ ∃ i ∈ is, i.result = some v := by
  simp [results]

/-- Merges only at the front of a body. -/
def PhisLead (body : List Instruction) : Prop :=
  ∀ i ∈ body.dropWhile (·.op.isPhi), i.op.isPhi = false

/-- A terminator at the end of a body, and nowhere else. -/
structure Terminated (body : List Instruction) : Prop where
  last : ∃ t, body.getLast? = some t ∧ t.op.isTerminator = true
  inner : ∀ i ∈ body.dropLast, i.op.isTerminator = false

theorem isPhi_of_mem_takeWhile {body : List Instruction} {i : Instruction}
    (h : i ∈ body.takeWhile (·.op.isPhi)) : i.op.isPhi = true :=
  List.mem_takeWhile_imp (p := fun i : Instruction => i.op.isPhi) h

theorem phisLead_iff {body : List Instruction} :
    PhisLead body ↔ ∀ i n, body[n]? = some i → i.op.isPhi = true →
      n < (body.takeWhile (·.op.isPhi)).length := by
  have split : body.takeWhile (·.op.isPhi) ++ body.dropWhile (·.op.isPhi) = body :=
    List.takeWhile_append_dropWhile
  constructor
  · intro h i n hi phi
    rw [← split, List.getElem?_append] at hi
    split at hi
    · assumption
    · simp [h i (List.mem_of_getElem? hi)] at phi
  · intro h i hi
    obtain ⟨n, hn⟩ := List.getElem?_of_mem hi
    have at_n : (body.takeWhile (·.op.isPhi) ++
        body.dropWhile (·.op.isPhi))[(body.takeWhile (·.op.isPhi)).length + n]? = some i := by
      rw [List.getElem?_append_right (Nat.le_add_right _ _), Nat.add_sub_cancel_left, hn]
    rw [split] at at_n
    by_contra phi
    have := h i _ at_n (by simpa using phi)
    omega

theorem phisLead_append {phis rest : List Instruction} (lead : ∀ i ∈ phis, i.op.isPhi = true)
    (others : ∀ i ∈ rest, i.op.isPhi = false) : PhisLead (phis ++ rest) := by
  intro i hi
  rw [List.dropWhile_append_of_pos (by simpa using lead)] at hi
  exact others i ((List.dropWhile_sublist _).subset hi)

theorem phisLead_of_plain {is : List Instruction} (h : ∀ i ∈ is, i.op.isPhi = false) : PhisLead is :=
  fun i hi => h i ((List.dropWhile_sublist _).subset hi)

theorem dropWhile_of_plain {is : List Instruction} (h : ∀ i ∈ is, i.op.isPhi = false) :
    is.dropWhile (·.op.isPhi) = is := by
  cases is with
  | nil => rfl
  | cons i is => simp [h i List.mem_cons_self]

theorem dropWhile_append_of_exists {is js : List Instruction} (h : ∃ i ∈ is, i.op.isPhi = false) :
    (is ++ js).dropWhile (·.op.isPhi) = is.dropWhile (·.op.isPhi) ++ js := by
  obtain ⟨i, hi, phi⟩ := h
  have : ¬ (is.dropWhile (·.op.isPhi)).isEmpty = true := by
    rw [List.isEmpty_iff, List.dropWhile_eq_nil_iff]
    exact fun all => by simp [all i hi] at phi
  rw [List.dropWhile_append, if_neg this]

theorem PhisLead.behind {is js : List Instruction} (h : PhisLead (is ++ js))
    (found : ∃ i ∈ is, i.op.isPhi = false) : ∀ i ∈ js, i.op.isPhi = false := by
  rw [PhisLead, dropWhile_append_of_exists found] at h
  exact fun i hi => h i (List.mem_append_right _ hi)

theorem PhisLead.insert {is js : List Instruction} {j : Instruction} (h : PhisLead (is ++ js))
    (hj : j.op.isPhi = false) (hjs : ∀ i ∈ js, i.op.isPhi = false) : PhisLead (is ++ j :: js) := by
  have split : is.takeWhile (·.op.isPhi) ++ is.dropWhile (·.op.isPhi) = is :=
    List.takeWhile_append_dropWhile
  rw [← split, List.append_assoc]
  refine phisLead_append (fun i => isPhi_of_mem_takeWhile) fun i hi => ?_
  rcases List.mem_append.mp hi with hi | hi
  · by_cases all : ∃ i ∈ is, i.op.isPhi = false
    · exact h i (by rw [dropWhile_append_of_exists all]; exact List.mem_append_left _ hi)
    · have none : is.dropWhile (·.op.isPhi) = [] := by
        rw [List.dropWhile_eq_nil_iff]
        simpa using all
      rw [none] at hi
      cases hi
  · rcases List.mem_cons.mp hi with rfl | hi
    · exact hj
    · exact hjs i hi

theorem inner_iff (body : List Instruction) :
    (∀ i ∈ body.dropLast, i.op.isTerminator = false) ↔
      ∀ i n, body[n]? = some i → i.op.isTerminator = true → n + 1 = body.length := by
  constructor
  · intro h i n hi term
    have lt : n < body.length := (List.getElem?_eq_some_iff.mp hi).1
    by_contra ne
    have inner : body.dropLast[n]? = some i := by
      rw [List.getElem?_dropLast, if_pos (by omega), hi]
    simp [h i (List.mem_of_getElem? inner)] at term
  · intro h i hi
    obtain ⟨n, hn⟩ := List.getElem?_of_mem hi
    rw [List.getElem?_dropLast] at hn
    split at hn
    · by_contra term
      have := h i n hn (by simpa using term)
      omega
    · simp at hn

theorem terminated_iff {body : List Instruction} :
    Terminated body ↔ ∃ is t, body = is ++ [t] ∧ t.op.isTerminator = true ∧
      ∀ i ∈ is, i.op.isTerminator = false := by
  constructor
  · rintro ⟨⟨t, last, ht⟩, inner⟩
    obtain ⟨is, rfl⟩ := List.getLast?_eq_some_iff.mp last
    exact ⟨is, t, rfl, ht, by simpa using inner⟩
  · rintro ⟨is, t, rfl, ht, inner⟩
    exact ⟨⟨t, by simp, ht⟩, by simpa using inner⟩

theorem Block.terminator?_isNone_iff {b : Block} :
    b.terminator?.isNone = false ↔ ∃ t, b.body.getLast? = some t ∧ t.op.isTerminator = true := by
  unfold terminator?
  cases h : b.body.getLast? with
  | none => simp
  | some t => by_cases ht : t.op.isTerminator = true <;> simp [Option.filter, ht]

namespace Function

/-- The results of all instructions, in layout order. -/
def defined (f : Function) : List ValueId :=
  f.layout.flatMap fun b => results (f.body b)

/-- An instruction that fits the function it stands in. -/
structure Fits (f : Function) (i : Instruction) : Prop where
  operands : ∀ v ∈ i.op.usedValues, v.index < f.values.size
  targets : ∀ t ∈ i.op.targets, t ∈ f.layout
  typed : ∀ v, i.result = some v → (f.valueType v).isVoid = false
  produces : i.result = none → i.op.producesValue = false

/-- If the instruction is a merge, it has one incoming value for each predecessor of `b`. -/
def Merges (f : Function) (b : BlockId) (i : Instruction) : Prop :=
  ∀ pairs, i.op = .phi pairs → (pairs.map (·.2)).Perm (f.predecessors b)

/-- Well-formed except for the incoming values of merges. -/
structure Shaped (f : Function) : Prop where
  nonempty : f.layout ≠ []
  entry_free : f.predecessors f.entry = []
  terminated : ∀ b ∈ f.layout, Terminated (f.body b)
  phisLead : ∀ b ∈ f.layout, PhisLead (f.body b)
  fits : ∀ b ∈ f.layout, ∀ i ∈ f.body b, f.Fits i
  once : f.defined.Nodup
  params : ∀ v ∈ f.defined, v ∉ f.params

structure WellFormed (f : Function) : Prop extends Shaped f where
  merges : ∀ b ∈ f.layout, ∀ i ∈ f.body b, f.Merges b i

end Function

theorem sortedBlocks_eq_insertionSort (bs : List BlockId) :
    sortedBlocks bs = bs.insertionSort fun a b => a.index ≤ b.index := by
  have one : ∀ (b : BlockId) (bs : List BlockId),
      insertBlock b bs = bs.orderedInsert (fun a b => a.index ≤ b.index) b := by
    intro b bs
    induction bs with
    | nil => rfl
    | cons c bs ih => rw [insertBlock, List.orderedInsert_cons, ih]
  unfold sortedBlocks List.insertionSort
  congr
  funext b bs
  exact one b bs

theorem sortedBlocks_eq_iff {xs ys : List BlockId} :
    sortedBlocks xs = sortedBlocks ys ↔ xs.Perm ys := by
  let order (a b : BlockId) : Prop := a.index ≤ b.index
  have total : Std.Total order := ⟨fun a b => Nat.le_total a.index b.index⟩
  have trans : IsTrans BlockId order := ⟨fun a b c => Nat.le_trans⟩
  simp only [sortedBlocks_eq_insertionSort]
  constructor
  · intro h
    exact (List.perm_insertionSort order xs).symm.trans ((List.Perm.of_eq h).trans (List.perm_insertionSort order ys))
  · intro h
    refine List.Perm.eq_of_pairwise ?_ (List.pairwise_insertionSort order xs)
      (List.pairwise_insertionSort order ys)
      ((List.perm_insertionSort order xs).trans (h.trans (List.perm_insertionSort order ys).symm))
    intro a b _ _ hab hba
    obtain ⟨a⟩ := a
    obtain ⟨b⟩ := b
    exact congrArg BlockId.mk (Nat.le_antisymm hab hba)

namespace Function

variable {f : Function} {b : BlockId} {defined defined' : List ValueId}

theorem checkResult_eq_ok_iff {i : Instruction} :
    f.checkResult b defined i = .ok defined' ↔
      (∀ v, i.result = some v → (f.valueType v).isVoid = false) ∧
      (i.result = none → i.op.producesValue = false) ∧
      (∀ v, i.result = some v → v ∉ defined) ∧ defined' = i.result.toList ++ defined := by
  unfold checkResult
  cases hr : i.result with
  | none => by_cases hp : i.op.producesValue <;> simp [hp, @eq_comm _ defined]
  | some v =>
    by_cases hv : (f.valueType v).isVoid <;> by_cases hd : v ∈ defined <;>
      simp [hv, hd, @eq_comm _ (v :: defined)]

theorem checkIncoming_eq_ok_iff {i : Instruction} {u : Unit} :
    f.checkIncoming b i = .ok u ↔ f.Merges b i := by
  unfold checkIncoming Merges
  cases i.op with
  | phi pairs => simp [← sortedBlocks_eq_iff]
  | _ => simp

theorem checkInstruction_eq_ok_iff {i : Instruction} {position : Nat} :
    f.checkInstruction b defined (i, position) = .ok defined' ↔
      (i.op.isTerminator = true → position + 1 = (f.body b).length) ∧
      (i.op.isPhi = true → position < (f.block b).phis.length) ∧
      f.Fits i ∧ f.Merges b i ∧ (∀ v, i.result = some v → v ∉ defined) ∧
      defined' = i.result.toList ++ defined := by
  unfold checkInstruction
  dsimp only
  by_cases early : (i.op.isTerminator && position + 1 != (f.block b).body.length) = true
  · rw [if_pos early]
    refine ⟨(nomatch ·), fun h => ?_⟩
    simp only [Bool.and_eq_true, bne_iff_ne] at early
    exact absurd (h.1 early.1) early.2
  rw [if_neg early]
  by_cases late : (i.op.isPhi && decide ((f.block b).phis.length ≤ position)) = true
  · rw [if_pos late]
    refine ⟨(nomatch ·), fun h => ?_⟩
    simp only [Bool.and_eq_true, decide_eq_true_eq] at late
    exact absurd (h.2.1 late.1) (by omega)
  rw [if_neg late]
  cases dangling : i.op.usedValues.find? (fun v => decide (f.values.size ≤ v.index)) with
  | some v =>
    refine ⟨(nomatch ·), fun h => ?_⟩
    have := h.2.2.1.operands v (List.mem_of_find?_eq_some dangling)
    have := List.find?_some dangling
    simp only [decide_eq_true_eq] at this
    omega
  | none =>
    cases unknown : i.op.targets.find? (fun t => !f.layout.contains t) with
    | some t =>
      refine ⟨(nomatch ·), fun h => ?_⟩
      have := h.2.2.1.targets t (List.mem_of_find?_eq_some unknown)
      have := List.find?_some unknown
      simp_all
    | none =>
      simp only [Bool.and_eq_true, bne_iff_ne, decide_eq_true_eq, not_and, not_not, not_le]
        at early late
      simp only [List.find?_eq_none, decide_eq_true_eq, not_le, Bool.not_eq_true',
        List.contains_iff_mem, Bool.not_eq_false] at dangling unknown
      simp only [bind_eq_ok_iff, checkResult_eq_ok_iff, checkIncoming_eq_ok_iff]
      constructor
      · rintro ⟨d, ⟨typed, produces, fresh, rfl⟩, -, incoming, ok⟩
        cases ok
        exact ⟨early, late, ⟨dangling, unknown, typed, produces⟩, incoming, fresh, rfl⟩
      · rintro ⟨-, -, fits, incoming, fresh, rfl⟩
        exact ⟨_, ⟨fits.typed, fits.produces, fresh, rfl⟩, (), incoming, rfl⟩

/-- A check that runs over a list and adds what each member defines to what is defined already
succeeds exactly if every member passes and nothing is defined twice. -/
theorem foldlM_check_eq_ok_iff {ε α : Type} (check : List ValueId → α → Except ε (List ValueId))
    (passes : α → Prop) (defines : α → List ValueId)
    (spec : ∀ a defined defined', check defined a = .ok defined' ↔
      passes a ∧ (defines a).Nodup ∧ (∀ v ∈ defines a, v ∉ defined) ∧
        defined' = (defines a).reverse ++ defined)
    (xs : List α) (defined defined' : List ValueId) :
    xs.foldlM check defined = .ok defined' ↔
      (∀ a ∈ xs, passes a) ∧ (xs.flatMap defines).Nodup ∧
        (∀ v ∈ xs.flatMap defines, v ∉ defined) ∧
        defined' = (xs.flatMap defines).reverse ++ defined := by
  induction xs generalizing defined with
  | nil => simp [pure, Except.pure, eq_comm]
  | cons a rest ih =>
    rw [List.foldlM_cons, bind_eq_ok_iff]
    constructor
    · rintro ⟨_, ha, hrest⟩
      obtain ⟨pass, nodup, fresh, rfl⟩ := (spec _ _ _).mp ha
      obtain ⟨passes, nodups, freshes, rfl⟩ := (ih _).mp hrest
      refine ⟨by simpa using ⟨pass, passes⟩, ?_, ?_, by simp⟩
      · rw [List.flatMap_cons, List.nodup_append]
        refine ⟨nodup, nodups, fun v hv w hw heq => freshes w hw ?_⟩
        exact List.mem_append_left _ (by simpa [← heq] using hv)
      · intro v hv
        rcases List.mem_append.mp (List.flatMap_cons ▸ hv) with hv | hv
        · exact fresh v hv
        · exact fun h => freshes v hv (List.mem_append_right _ h)
    · rintro ⟨passes, nodups, freshes, rfl⟩
      rw [List.flatMap_cons, List.nodup_append] at nodups
      rw [List.flatMap_cons] at freshes
      refine ⟨(defines a).reverse ++ defined, (spec _ _ _).mpr ⟨passes a List.mem_cons_self,
        nodups.1, fun v hv => freshes v (List.mem_append_left _ hv), rfl⟩,
        (ih _).mpr ⟨?_, ?_, ?_, ?_⟩⟩
      · exact fun b hb => passes b (List.mem_cons_of_mem _ hb)
      · exact nodups.2.1
      · intro v hv h
        rcases List.mem_append.mp h with h | h
        · exact nodups.2.2 v (by simpa using h) v hv rfl
        · exact freshes v (List.mem_append_right _ hv) h
      · simp

theorem flatMap_zipIdx_result (is : List Instruction) (n : Nat) :
    ((is.zipIdx n).flatMap fun p => p.1.result.toList) = results is := by
  induction is generalizing n with
  | nil => rfl
  | cons i is ih => simp [List.zipIdx_cons, ih]

theorem checkBlock_eq_ok_iff :
    f.checkBlock defined b = .ok defined' ↔
      (Terminated (f.body b) ∧ PhisLead (f.body b) ∧
        ∀ i ∈ f.body b, f.Fits i ∧ f.Merges b i) ∧
      (results (f.body b)).Nodup ∧ (∀ v ∈ results (f.body b), v ∉ defined) ∧
      defined' = (results (f.body b)).reverse ++ defined := by
  have fold := foldlM_check_eq_ok_iff (f.checkInstruction b)
    (fun p => (p.1.op.isTerminator = true → p.2 + 1 = (f.body b).length) ∧
      (p.1.op.isPhi = true → p.2 < (f.block b).phis.length) ∧ f.Fits p.1 ∧ f.Merges b p.1)
    (fun p => p.1.result.toList) ?_ (f.body b).zipIdx defined defined'
  · unfold checkBlock
    by_cases missing : (f.block b).terminator?.isNone = true
    · rw [if_pos missing]
      refine ⟨(nomatch ·), fun h => ?_⟩
      rw [Block.terminator?_isNone_iff.2 h.1.1.last] at missing
      cases missing
    · rw [if_neg missing, fold, flatMap_zipIdx_result]
      refine and_congr ?_ Iff.rfl
      have last := Block.terminator?_isNone_iff.1 (eq_false_of_ne_true missing)
      simp only [Prod.forall, List.mk_mem_zipIdx_iff_getElem?]
      constructor
      · intro h
        refine ⟨⟨last, (inner_iff _).mpr fun i n hi => (h i n hi).1⟩,
          phisLead_iff.2 fun i n hi => (h i n hi).2.1, fun i hi => ?_⟩
        obtain ⟨n, hn⟩ := List.getElem?_of_mem hi
        exact (h i n hn).2.2
      · rintro ⟨terminated, lead, fits⟩ i n hi
        exact ⟨(inner_iff _).mp terminated.inner i n hi,
          phisLead_iff.1 lead i n hi, fits i (List.mem_of_getElem? hi)⟩
  · rintro ⟨i, n⟩ d d'
    rw [checkInstruction_eq_ok_iff]
    cases i.result <;> simp [and_assoc]

/-- The structural check accepts exactly the well-formed functions. -/
theorem validate_eq_ok_iff : f.validate = .ok () ↔ f.WellFormed := by
  have fold := foldlM_check_eq_ok_iff f.checkBlock _ _ (fun _ _ _ => f.checkBlock_eq_ok_iff)
    f.layout f.params
  unfold validate
  by_cases empty : f.layout.isEmpty = true
  · rw [if_pos empty]
    exact ⟨(nomatch ·), fun h => absurd (List.isEmpty_iff.mp empty) h.nonempty⟩
  rw [if_neg empty]
  by_cases entry : (!(f.predecessors f.entry).isEmpty) = true
  · rw [if_pos entry]
    refine ⟨(nomatch ·), fun h => ?_⟩
    rw [h.entry_free] at entry
    cases entry
  rw [if_neg entry]
  have discarded : (discard (f.layout.foldlM f.checkBlock f.params) = .ok ()) ↔
      ∃ d, f.layout.foldlM f.checkBlock f.params = .ok d := by
    cases f.layout.foldlM f.checkBlock f.params <;>
      simp [discard, Functor.mapConst, Except.map]
  refine discarded.trans ?_
  simp only [fold]
  constructor
  · rintro ⟨_, passes, nodup, fresh, -⟩
    refine ⟨⟨by simpa using empty, by simpa using entry, fun b hb => (passes b hb).1,
      fun b hb => (passes b hb).2.1, fun b hb i hi => ((passes b hb).2.2 i hi).1, nodup, fresh⟩,
      fun b hb i hi => ((passes b hb).2.2 i hi).2⟩
  · intro h
    refine ⟨_, fun b hb => ⟨h.terminated b hb, h.phisLead b hb, fun i hi => ?_⟩, h.once, h.params,
      rfl⟩
    exact ⟨h.fits b hb i hi, h.merges b hb i hi⟩

end Function

end CheckpointRestart
