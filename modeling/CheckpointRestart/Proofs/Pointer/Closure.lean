import CheckpointRestart.Pointer.Analysis
import CheckpointRestart.Proofs.Collections
import Mathlib

/-! # Replacing merged pointers

The alias sets of merged pointers are substituted into one another while they change. What may be
lost from them is found by looking at the graph of merges as it was: on every way from a pointer to
something that is not merged there is a member of its alias set, and nothing behind that member has
been replaced yet. In the end only the last pointer of the way can be that member.
-/

open Relation

namespace CheckpointRestart

namespace AliasClosure

variable {oracle : AliasOracle} {merged : ValueSet} {c : AliasClosure} {p q m x a : ValueId}
  {step : ValueId → ValueId → Prop} {xs : List ValueId}

/-- The merged pointers replaced in the alias set of `p` so far. -/
def replaced (c : AliasClosure) (p : ValueId) : ValueSet :=
  c.expanded.getD p ∅

theorem mem_replaced_expand_iff :
    x ∈ (expand oracle p c m).replaced q ↔ (q = p ∧ x = m) ∨ x ∈ c.replaced q := by
  rw [expand, replaced, TreeMap.getD_insert_iff]
  split
  · next same =>
    rw [TreeSet.mem_insert_iff, same]
    simp [replaced]
  · next other => simp [other, replaced]

theorem mem_map_expand_iff : q ∈ (expand oracle p c m).map ↔ q ∈ c.map :=
  Std.ExtTreeMap.mem_modify

theorem aliases_expand_of_ne (h : q ≠ p) : (expand oracle p c m).aliases q = c.aliases q := by
  rw [aliases, expand, Std.ExtTreeMap.getElem?_modify, if_neg]
  · rfl
  · rw [Std.LawfulEqCmp.compare_eq_iff_eq]
    exact Ne.symm h

theorem mem_aliases_expand_iff (known : p ∈ c.map) :
    x ∈ (expand oracle p c m).aliases p ↔ x ≠ m ∧ (x ∈ c.aliases p ∨
      m ≠ p ∧ x ∈ c.aliases m ∧ x ≠ p ∧ x ∉ c.replaced p ∧ oracle p x = true) := by
  obtain ⟨e, he⟩ := Option.isSome_iff_exists.mp (Std.ExtTreeMap.mem_iff_isSome_getElem?.mp known)
  have before : c.aliases p = e.aliases := by rw [aliases, he]
  rw [aliases, expand, Std.ExtTreeMap.getElem?_modify_self, he, before]
  dsimp only [Option.map_some]
  rw [TreeSet.mem_foldl_insert_iff, TreeSet.mem_erase_iff]
  by_cases self : m = p
  · simp [self]
  · simp only [self, if_false, List.mem_filter, Std.ExtTreeSet.mem_toList, replaced]
    simp only [Bool.and_eq_true, Bool.not_eq_true', decide_eq_true_eq]
    rw [← Bool.not_eq_true, Std.ExtTreeSet.contains_iff_mem, TreeSet.mem_insert_iff]
    grind

/-! ## Ways through the graph of merges -/

theorem transGen_of_isChain (chain : List.IsChain step (p :: xs)) (hx : x ∈ xs) :
    TransGen step p x := by
  have pairs := (chain.imp fun _ _ => TransGen.single).pairwise
  exact List.rel_of_pairwise_cons pairs hx

theorem reflTransGen_of_isChain (chain : List.IsChain step (x :: xs))
    (last : (x :: xs).getLast? = some a) : ReflTransGen step x a := by
  cases xs with
  | nil => cases last; exact .refl
  | cons y ys => exact (transGen_of_isChain chain (List.mem_of_getLast? last)).to_reflTransGen

/-- A way from `p` to `a` that does not come back to `p`. -/
structure Way (step : ValueId → ValueId → Prop) (p : ValueId) (xs : List ValueId) (a : ValueId) :
    Prop where
  chain : List.IsChain step (p :: xs)
  fresh : p ∉ xs
  last : xs.getLast? = some a

theorem Way.through {front back : List ValueId} (way : Way step p (front ++ x :: back) a) :
    TransGen step p x ∧ ReflTransGen step x a := by
  obtain ⟨chain, -, last⟩ := way
  rw [List.getLast?_append_of_ne_nil _ (List.cons_ne_nil x back)] at last
  exact ⟨transGen_of_isChain chain (by simp),
    reflTransGen_of_isChain (chain.tail.right_of_append) last⟩

/-- What follows the last time a chain comes by `x` is a way. -/
theorem exists_way_of_isChain (chain : List.IsChain step xs) (last : xs.getLast? = some a)
    (hx : x ∈ xs) (ne : a ≠ x) : ∃ front back, xs = front ++ x :: back ∧ Way step x back a := by
  obtain ⟨back, front, split, fresh⟩ := List.eq_append_cons_of_mem (List.mem_reverse.mpr hx)
  have split : xs = front.reverse ++ x :: back.reverse := by
    simpa using congrArg List.reverse split
  rw [split] at chain last
  refine ⟨_, _, split, chain.right_of_append, fun hx => fresh (List.mem_reverse.mp hx), ?_⟩
  rw [List.getLast?_append, List.getLast?_cons] at last
  cases h : back.reverse.getLast? with
  | none => simp [h, ne.symm] at last
  | some y => simpa [h] using last

theorem exists_way (reach : TransGen step p a) (ne : a ≠ p) : ∃ xs, Way step p xs a := by
  obtain ⟨xs, chain, last⟩ :=
    List.exists_isChain_cons_of_relationReflTransGen reach.to_reflTransGen
  have last : (p :: xs).getLast? = some a := by
    rw [List.getLast?_eq_some_getLast (List.cons_ne_nil p xs), last]
  obtain ⟨-, back, -, way⟩ := exists_way_of_isChain chain last List.mem_cons_self ne
  exact ⟨back, way⟩

/-! ## What an expansion keeps -/

/-- The oracle rules out no pointer on the ways to `a`. -/
def Admits (oracle : AliasOracle) (step : ValueId → ValueId → Prop) (a : ValueId) : Prop :=
  ∀ p x, TransGen step p x → ReflTransGen step x a → oracle p x = true

/-- The alias sets of merged pointers, on the way from what `step` gives for one of them to all that
can be reached. -/
structure Tracks (oracle : AliasOracle) (step : ValueId → ValueId → Prop) (merged : ValueSet)
    (c : AliasClosure) : Prop where
  known : ∀ p ∈ merged, p ∈ c.map
  within : ∀ p, ∀ m ∈ c.replaced p, m ∈ merged
  gone : ∀ p ∈ merged, ∀ m ∈ c.replaced p, m ∉ c.aliases p
  reaches : ∀ p ∈ merged, ∀ x ∈ c.aliases p, TransGen step p x
  /-- On every way to a pointer that is not merged there is an alias, and nothing behind it has been
  replaced. -/
  meets : ∀ p ∈ merged, ∀ a, a ∉ merged → Admits oracle step a → ∀ xs, Way step p xs a →
    ∃ front x back, xs = front ++ x :: back ∧ x ∈ c.aliases p ∧ ∀ y ∈ back, y ∉ c.replaced p

theorem meets_expand (h : c.Tracks oracle step merged) (hp : p ∈ merged) (hm : m ∈ merged)
    (leaf : a ∉ merged) (admits : Admits oracle step a) (way : Way step p xs a) :
    ∃ front x back, xs = front ++ x :: back ∧ x ∈ (expand oracle p c m).aliases p ∧
      ∀ y ∈ back, y ∉ (expand oracle p c m).replaced p := by
  obtain ⟨front, x, back, split, hx, ahead⟩ := h.meets p hp a leaf admits xs way
  simp only [mem_aliases_expand_iff (h.known p hp), mem_replaced_expand_iff, true_and, not_or]
  by_cases on : m ∈ x :: back
  · -- the way goes on from `m`, where an alias of `m` takes the place of the alias found before
    have chain := way.chain
    have last := way.last
    rw [split, ← List.cons_append] at chain
    rw [split, List.getLast?_append_of_ne_nil _ (List.cons_ne_nil x back)] at last
    obtain ⟨between, rest, split', onward⟩ :=
      exists_way_of_isChain chain.right_of_append last on fun e => leaf (e ▸ hm)
    obtain ⟨skipped, y, behind, split'', hy, -⟩ := h.meets m hm a leaf admits rest onward
    have whole : xs = (front ++ between ++ m :: skipped) ++ y :: behind := by
      rw [split, split', split'']
      simp
    have later : ∀ z ∈ rest, z ∈ back := by
      intro z hz
      cases between with
      | nil => exact (List.cons.inj split').2 ▸ hz
      | cons w between => exact (List.cons.inj split').2 ▸ by simp [hz]
    have unreplaced : ∀ z ∈ y :: behind, z ≠ m ∧ z ∉ c.replaced p := by
      intro z hz
      have hz : z ∈ rest := split'' ▸ List.mem_append_right _ hz
      exact ⟨fun e => onward.fresh (e ▸ hz), ahead z (later z hz)⟩
    have self : y ≠ p := fun e => way.fresh (e ▸ whole ▸ by simp)
    have other : m ≠ p := fun e => way.fresh (e ▸ split ▸ List.mem_append_right _ on)
    obtain ⟨reach, onto⟩ := (whole ▸ way).through
    refine ⟨_, y, behind, whole, ⟨(unreplaced y List.mem_cons_self).1, .inr ⟨other, hy, self,
      (unreplaced y List.mem_cons_self).2, admits p y reach onto⟩⟩, fun z hz => unreplaced z (List.mem_cons_of_mem _ hz)⟩
  · refine ⟨front, x, back, split, ⟨fun e => on (e ▸ List.mem_cons_self), .inl hx⟩, fun y hy => ?_⟩
    exact ⟨fun e => on (e ▸ List.mem_cons_of_mem _ hy), ahead y hy⟩

theorem Tracks.expand (h : c.Tracks oracle step merged) (hp : p ∈ merged) (hm : m ∈ merged)
    (reach : TransGen step p m) : (expand oracle p c m).Tracks oracle step merged where
  known q hq := mem_map_expand_iff.2 (h.known q hq)
  within q y hy := by
    rcases mem_replaced_expand_iff.1 hy with ⟨-, rfl⟩ | hy
    · exact hm
    · exact h.within q y hy
  gone q hq y hy := by
    rw [mem_replaced_expand_iff] at hy
    by_cases e : q = p
    · subst e
      rw [mem_aliases_expand_iff (h.known q hq)]
      rintro ⟨ne, hx⟩
      have old : y ∈ c.replaced q := hy.resolve_left fun new => ne new.2
      rcases hx with hx | ⟨-, -, -, unreplaced, -⟩
      · exact h.gone q hq y old hx
      · exact unreplaced old
    · rw [aliases_expand_of_ne e]
      exact h.gone q hq y (hy.resolve_left fun new => e new.1)
  reaches q hq x hx := by
    by_cases e : q = p
    · subst e
      rcases ((mem_aliases_expand_iff (h.known q hq)).mp hx).2 with hx | ⟨-, hx, -⟩
      · exact h.reaches q hq x hx
      · exact reach.trans (h.reaches m hm x hx)
    · rw [aliases_expand_of_ne e] at hx
      exact h.reaches q hq x hx
  meets q hq a leaf admits xs way := by
    by_cases e : q = p
    · subst e
      exact meets_expand h hq hm leaf admits way
    · obtain ⟨front, x, back, split, hx, ahead⟩ := h.meets q hq a leaf admits xs way
      rw [aliases_expand_of_ne e]
      exact ⟨front, x, back, split, hx, fun y hy => by simpa [mem_replaced_expand_iff, e] using ahead y hy⟩

/-! ## What a pass keeps -/

theorem mem_unexpanded_iff : m ∈ c.unexpanded merged p ↔ m ∈ c.aliases p ∧ m ∈ merged := by
  simp [unexpanded]

theorem Tracks.pass (h : c.Tracks oracle step merged) :
    (c.pass oracle merged).Tracks oracle step merged := by
  refine List.foldlRecOn merged.toList _ h fun c h p hp => ?_
  have hp : p ∈ merged := Std.ExtTreeSet.mem_toList.mp hp
  refine List.foldlRecOn (c.unexpanded merged p) _ h fun c' h' m hm => ?_
  obtain ⟨held, hm⟩ := mem_unexpanded_iff.1 hm
  exact h'.expand hp hm (h.reaches p hp m held)

/-- Everything replaced in `c` is replaced in `c'`. -/
def Grows (c c' : AliasClosure) : Prop :=
  ∀ p, ∀ m ∈ c.replaced p, m ∈ c'.replaced p

theorem grows_foldl_expand (ms : List ValueId) : c.Grows (ms.foldl (expand oracle p) c) := by
  refine List.foldlRecOn (motive := c.Grows) ms _ (fun _ _ => id) fun c' h m _ q x hx => ?_
  exact mem_replaced_expand_iff.2 (.inr (h q x hx))

theorem grows_foldl (ps : List ValueId) :
    c.Grows (ps.foldl (fun c p => (c.unexpanded merged p).foldl (expand oracle p) c) c) := by
  refine List.foldlRecOn (motive := c.Grows) ps _ (fun _ _ => id) fun c' h p _ q x hx => ?_
  exact grows_foldl_expand _ q x (h q x hx)

/-- A pass replaces what there is to replace. -/
theorem mem_replaced_pass (hp : p ∈ merged) (hm : m ∈ merged) (held : m ∈ c.aliases p) :
    m ∈ (c.pass oracle merged).replaced p := by
  obtain ⟨back, front, split, fresh⟩ := List.eq_append_cons_of_mem (Std.ExtTreeSet.mem_toList.mpr hp)
  rw [pass, split, List.foldl_append, List.foldl_cons]
  apply grows_foldl
  -- the alias set of `p` does not change before it is its turn
  have still : ∀ c' : AliasClosure, c' = back.foldl
      (fun c p => (c.unexpanded merged p).foldl (expand oracle p) c) c → c'.aliases p = c.aliases p := by
    rintro _ rfl
    refine List.foldlRecOn (motive := fun c' : AliasClosure => c'.aliases p = c.aliases p) back _ rfl
      fun c' h q hq => ?_
    refine List.foldlRecOn (motive := fun c'' : AliasClosure => c''.aliases p = c.aliases p)
      (c'.unexpanded merged q) _ h fun c'' h _ _ => ?_
    rw [aliases_expand_of_ne (fun e : p = q => fresh (e ▸ hq)), h]
  generalize before : back.foldl _ c = c'
  have waits : m ∈ c'.unexpanded merged p :=
    mem_unexpanded_iff.2 ⟨still c' before.symm ▸ held, hm⟩
  obtain ⟨ms, ms', split⟩ := List.append_of_mem waits
  rw [split, List.foldl_append, List.foldl_cons]
  exact grows_foldl_expand ms' p m (mem_replaced_expand_iff.2 (.inl ⟨rfl, rfl⟩))

/-! ## What is left in the end -/

theorem done_iff : c.done merged = true ↔ ∀ p ∈ merged, ∀ m ∈ c.aliases p, m ∉ merged := by
  simp [done, unexpanded, List.filter_eq_nil_iff]

/-- How many replacements have been made in all. -/
def spent (merged : ValueSet) (c : AliasClosure) : Nat :=
  (merged.toList.map fun p => (c.replaced p).size).sum

theorem Tracks.spent_le (h : c.Tracks oracle step merged) :
    c.spent merged ≤ merged.size * merged.size := by
  have each : ∀ n ∈ merged.toList.map fun p => (c.replaced p).size, n ≤ merged.size := by
    intro n hn
    obtain ⟨p, -, rfl⟩ := List.mem_map.mp hn
    exact TreeSet.size_le_size (h.within p)
  simpa [spent] using List.sum_le_card_nsmul _ _ each

theorem Tracks.spent_lt_pass (h : c.Tracks oracle step merged) (left : c.done merged = false) :
    c.spent merged < (c.pass oracle merged).spent merged := by
  have grows : c.Grows (c.pass oracle merged) := grows_foldl merged.toList
  obtain ⟨p, hp, m, held, hm⟩ : ∃ p ∈ merged, ∃ m ∈ c.aliases p, m ∈ merged := by
    by_contra none
    push Not at none
    rw [done_iff.2 none] at left
    cases left
  refine List.sum_lt_sum _ _ (fun q _ => TreeSet.size_le_size (grows q))
    ⟨p, Std.ExtTreeSet.mem_toList.mpr hp, ?_⟩
  by_contra full
  refine h.gone p hp m ?_ held
  rw [TreeSet.eq_of_subset_of_size_le (grows p) (Nat.le_of_not_lt full)]
  exact mem_replaced_pass hp hm held

theorem Tracks.close (h : c.Tracks oracle step merged) (fuel : Nat)
    (enough : merged.size * merged.size < c.spent merged + fuel) :
    (close oracle merged fuel c).Tracks oracle step merged ∧
      (close oracle merged fuel c).done merged = true := by
  induction fuel generalizing c with
  | zero => exact absurd h.spent_le (Nat.not_le.mpr enough)
  | succ fuel ih =>
    rw [AliasClosure.close]
    split
    · next done => exact ⟨h, done⟩
    · next left =>
      have more := h.spent_lt_pass (Bool.eq_false_iff.mpr left)
      exact ih h.pass (by omega)

theorem tracks_start {map : ExtentMap} (known : ∀ p ∈ merged, p ∈ map)
    (seeded : ∀ p ∈ merged, ∀ x, x ∈ aliases ⟨map, ∅⟩ p ↔ step p x) :
    Tracks oracle step merged ⟨map, ∅⟩ where
  known := known
  within p m hm := by simp [replaced] at hm
  gone p _ m hm := by simp [replaced] at hm
  reaches p hp x hx := .single ((seeded p hp x).mp hx)
  meets p hp a _ _ xs way := by
    obtain ⟨chain, -, last⟩ := way
    cases xs with
    | nil => cases last
    | cons x xs =>
      exact ⟨[], x, xs, rfl, (seeded p hp x).mpr (List.isChain_cons_cons.mp chain).1, by simp [replaced]⟩

/-- Where nothing is left to replace, an alias set holds what can be reached and is not merged, except
for what the oracle may have ruled out. -/
theorem Tracks.mem_aliases (h : c.Tracks oracle step merged) (done : c.done merged = true)
    (source : ∀ p x, step p x → p ∈ merged) (hp : p ∈ merged) :
    (a ∈ c.aliases p → a ∉ merged ∧ TransGen step p a) ∧
      (a ∉ merged → Admits oracle step a → TransGen step p a → a ∈ c.aliases p) := by
  refine ⟨fun ha => ⟨done_iff.1 done p hp a ha, h.reaches p hp a ha⟩, fun leaf admits reach => ?_⟩
  obtain ⟨xs, way⟩ := exists_way reach fun e => leaf (e ▸ hp)
  obtain ⟨front, x, back, rfl, hx, -⟩ := h.meets p hp a leaf admits xs way
  rcases way.through.2.cases_head with rfl | ⟨y, next, -⟩
  · exact hx
  · exact absurd (source x y next) (done_iff.1 done p hp x hx)

end AliasClosure

/-- The alias sets of merged pointers in the end, where each starts with what `step` gives for it. -/
theorem mem_aliases_closeAliases {oracle : AliasOracle} {merged : ValueSet} {map : ExtentMap}
    {step : ValueId → ValueId → Prop} (known : ∀ p ∈ merged, p ∈ map)
    (seeded : ∀ p ∈ merged, ∀ x, x ∈ AliasClosure.aliases ⟨map, ∅⟩ p ↔ step p x)
    (source : ∀ p x, step p x → p ∈ merged) {p : ValueId} (hp : p ∈ merged) {e : Extent}
    (he : (closeAliases oracle merged map)[p]? = some e) (a : ValueId) :
    (a ∈ e.aliases → a ∉ merged ∧ TransGen step p a) ∧
      (a ∉ merged → AliasClosure.Admits oracle step a → TransGen step p a → a ∈ e.aliases) := by
  have start : AliasClosure.Tracks oracle step merged ⟨map, ∅⟩ :=
    AliasClosure.tracks_start known seeded
  obtain ⟨tracks, done⟩ := start.close (merged.size * merged.size + 1) (by omega)
  rw [closeAliases] at he
  have final := tracks.mem_aliases done source hp (a := a)
  rwa [AliasClosure.aliases, he] at final

end CheckpointRestart
