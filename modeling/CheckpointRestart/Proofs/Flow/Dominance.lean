import CheckpointRestart.Flow.Dominance
import CheckpointRestart.Proofs.Flow.Reachability
import Mathlib.Data.Fintype.Card
import Mathlib.Data.List.NodupEquivFin
import Mathlib.Data.Nat.Find

/-! # What the dominator tree comes to

Two facts about the tree that the sweeps build meet in the result. No sweep ever hangs a number
from a place below which one of its dominators would be lost, so the ancestors of a number always
include its dominators. And after `k` sweeps no walk of fewer than `k` steps avoids an ancestor of
the number that it ends in. A walk without repetitions has fewer steps than there are numbers, so
after as many sweeps the ancestors of a number are its dominators, and the next sweep moves
nothing.
-/

namespace CheckpointRestart

namespace DominatorTree

variable {t : DominatorTree} {a b c m n p : Nat}

/-! ## Ancestors -/

inductive Ancestor (t : DominatorTree) (a : Nat) : Nat → Prop
  | refl : Ancestor t a a
  | up {n : Nat} : 0 < n → Ancestor t a (t.parent n) → Ancestor t a n

theorem ancestor_zero_iff : t.Ancestor a 0 ↔ a = 0 := by
  constructor
  · intro h
    cases h with
    | refl => rfl
    | up positive _ => omega
  · rintro rfl
    exact .refl

theorem ancestor_iff (positive : 0 < n) : t.Ancestor a n ↔ a = n ∨ t.Ancestor a (t.parent n) := by
  constructor
  · intro h
    cases h with
    | refl => exact .inl rfl
    | up _ h => exact .inr h
  · rintro (rfl | h)
    · exact .refl
    · exact .up positive h

theorem Ancestor.le (h : t.Ancestor a n) : a ≤ n := by
  induction h with
  | refl => exact Nat.le_refl a
  | up positive _ ih => exact ih.trans (t.parent_lt positive).le

theorem Ancestor.trans (h : t.Ancestor a b) (h' : t.Ancestor b c) : t.Ancestor a c := by
  induction h' with
  | refl => exact h
  | up positive _ ih => exact .up positive ih

theorem Ancestor.parent (h : t.Ancestor a n) (ne : a ≠ n) : t.Ancestor a (t.parent n) := by
  cases h with
  | refl => exact absurd rfl ne
  | up _ h => exact h

theorem isAncestor_iff : t.isAncestor a n = true ↔ t.Ancestor a n := by
  fun_induction isAncestor t a n with
  | case1 n ih =>
    by_cases positive : 0 < n
    · simp [ancestor_iff positive, positive, ih positive]
    · rw [Nat.eq_zero_of_not_pos positive]
      simp [ancestor_zero_iff]

theorem meet_induction {q : Nat → Prop} (up : ∀ a b, q a → q b → a < b → q (t.parent b))
    (ha : q a) (hb : q b) : q (t.meet a b) := by
  fun_induction meet t a b with
  | case1 a b lt ih => exact ih ha (up a b ha hb lt)
  | case2 a b _ gt ih => exact ih (up b a hb ha gt) hb
  | case3 => exact ha

theorem meet_ancestor (t : DominatorTree) (a b : Nat) :
    t.Ancestor (t.meet a b) a ∧ t.Ancestor (t.meet a b) b := by
  fun_induction meet t a b with
  | case1 a b lt ih => exact ⟨ih.1, .up (by omega) ih.2⟩
  | case2 a b _ gt ih => exact ⟨.up (by omega) ih.1, ih.2⟩
  | case3 a b _ _ =>
    obtain rfl : a = b := by omega
    exact ⟨.refl, .refl⟩

theorem foldl_meet_induction {q : Nat → Prop} (up : ∀ a b, q a → q b → a < b → q (t.parent b))
    {others : List Nat} (ha : q a) (all : ∀ b ∈ others, q b) :
    q (others.foldl (fun c b => t.meet b c) a) := by
  induction others generalizing a with
  | nil => exact ha
  | cons b others ih =>
    rw [List.forall_mem_cons] at all
    exact ih (meet_induction up all.1 ha) all.2

theorem foldl_meet_ancestor (t : DominatorTree) (a : Nat) (others : List Nat) :
    ∀ b ∈ a :: others, t.Ancestor (others.foldl (fun c b => t.meet b c) a) b := by
  induction others generalizing a with
  | nil =>
    rintro b (_ | ⟨_, ⟨⟩⟩)
    exact .refl
  | cons b others ih =>
    have below := ih (t.meet b a)
    have above := t.meet_ancestor b a
    simp only [List.foldl_cons, List.forall_mem_cons] at below ⊢
    exact ⟨below.1.trans above.2, below.1.trans above.1, below.2⟩

/-! ## Hanging a number anew -/

theorem parent_hang (smaller : p < n) (within : n ≤ t.size) :
    (t.hang n p).parent m = if m = n then p else t.parent m := by
  cases m with
  | zero => simp [parent, show ¬ 0 = n by omega]
  | succ m =>
    have length : (t.parents.take (n - 1)).length = n - 1 := by
      rw [List.length_take]
      unfold size at within
      omega
    rw [hang, dif_pos ⟨smaller, within⟩, parent, parent, List.getElem?_append, length,
      List.getElem?_cons]
    by_cases before : m < n - 1
    · rw [if_pos before, if_neg (by omega), List.getElem?_take_of_lt before]
    · by_cases here : m = n - 1
      · rw [if_neg before, if_pos (by omega), if_pos (by omega), Option.getD_some]
      · rw [if_neg before, if_neg (by omega), if_neg (by omega), List.getElem?_drop,
          show n + (m - (n - 1) - 1) = m by omega]

theorem size_hang (smaller : p < n) (within : n ≤ t.size) :
    (t.hang n p).size = max t.size (n + 1) := by
  rw [hang, dif_pos ⟨smaller, within⟩]
  simp only [size, List.length_append, List.length_take, List.length_cons, List.length_drop]
  unfold size at within
  omega

theorem hang_parent (positive : 0 < n) (inside : n < t.size) : t.hang n (t.parent n) = t := by
  obtain ⟨n, rfl⟩ : ∃ k, n = k + 1 := ⟨n - 1, by omega⟩
  have within : n < t.parents.length := by
    unfold size at inside
    omega
  rw [hang, dif_pos ⟨t.parent_lt positive, inside.le⟩]
  congr
  rw [parent, List.getElem?_eq_getElem within, Option.getD_some, Nat.add_sub_cancel,
    List.getElem_cons_drop, List.take_append_drop]

theorem ancestor_hang_of_lt (smaller : p < n) (within : n ≤ t.size) (before : m < n) :
    (t.hang n p).Ancestor a m ↔ t.Ancestor a m := by
  induction m using Nat.strongRecOn with
  | ind m ih =>
    by_cases positive : 0 < m
    · have up := t.parent_lt positive
      rw [ancestor_iff positive, ancestor_iff positive, parent_hang smaller within,
        if_neg (by omega), ih _ up (up.trans before)]
    · rw [Nat.eq_zero_of_not_pos positive, ancestor_zero_iff, ancestor_zero_iff]

theorem Ancestor.of_hang (smaller : p < n) (within : n ≤ t.size) (h : (t.hang n p).Ancestor a m) :
    t.Ancestor a m ∨ t.Ancestor n m ∧ t.Ancestor a p := by
  induction h with
  | refl => exact .inl .refl
  | @up m positive above ih =>
    rw [parent_hang smaller within] at above ih
    split at above
    · subst m
      exact .inr ⟨.refl, (ancestor_hang_of_lt smaller within smaller).mp above⟩
    · rw [if_neg ‹_›] at ih
      rcases ih with h | ⟨h, h'⟩
      · exact .inl (.up positive h)
      · exact .inr ⟨.up positive h, h'⟩

/-! ## Walks -/

/-- A walk of the given number of steps from `0`, all of it inside. -/
inductive Walk (sources : Nat → List Nat) (inside : Nat → Prop) : Nat → Nat → Prop
  | start : inside 0 → Walk sources inside 0 0
  | step {k m n : Nat} : Walk sources inside k m → m ∈ sources n → inside n →
    Walk sources inside (k + 1) n

namespace Walk

variable {sources : Nat → List Nat} {inside inside' : Nat → Prop} {k count : Nat}

theorem inside_end (w : Walk sources inside k n) : inside n := by
  cases w with
  | start h => exact h
  | step _ _ h => exact h

theorem mono (w : Walk sources inside k n) (sub : ∀ m, inside m → inside' m) :
    Walk sources inside' k n := by
  induction w with
  | start h => exact .start (sub _ h)
  | step _ edge h ih => exact .step ih edge (sub _ h)

theorem avoids_or_visits (m : Nat) (w : Walk sources inside k n) :
    Walk sources (fun x => inside x ∧ x ≠ m) k n ∨ ∃ j ≤ k, Walk sources inside j m := by
  induction w with
  | start h =>
    by_cases here : 0 = m
    · exact .inr ⟨0, Nat.le_refl 0, here ▸ .start h⟩
    · exact .inl (.start ⟨h, here⟩)
  | @step k l n w edge h ih =>
    rcases ih with ih | ⟨j, le, ih⟩
    · by_cases here : n = m
      · exact .inr ⟨k + 1, Nat.le_refl _, here ▸ .step w edge h⟩
      · exact .inl (.step ih edge ⟨h, here⟩)
    · exact .inr ⟨j, le.trans (Nat.le_succ k), ih⟩

theorem exists_least (w : Walk sources inside k n) (least : ∀ j < k, ¬ Walk sources inside j n)
    {i : Nat} (le : i ≤ k) :
    ∃ m, Walk sources inside i m ∧ ∀ j < i, ¬ Walk sources inside j m := by
  induction w with
  | start h =>
    obtain rfl := Nat.le_zero.mp le
    exact ⟨0, .start h, by omega⟩
  | @step k l n w edge h ih =>
    rcases Nat.lt_or_ge k i with lt | ge
    · obtain rfl : i = k + 1 := by omega
      exact ⟨n, .step w edge h, least⟩
    · exact ih (fun j lt shorter => least (j + 1) (by omega) (.step shorter edge h)) ge

theorem lt_count (bounded : ∀ n p, p ∈ sources n → n < count) (positive : 0 < count)
    (w : Walk sources inside k n) : n < count := by
  cases w with
  | start _ => exact positive
  | step _ edge _ => exact bounded _ _ edge

theorem exists_short (bounded : ∀ n p, p ∈ sources n → n < count) (positive : 0 < count)
    (w : Walk sources inside k n) : ∃ j < count, Walk sources inside j n := by
  classical
  have some : ∃ j, Walk sources inside j n := ⟨k, w⟩
  refine ⟨Nat.find some, ?_, Nat.find_spec some⟩
  have least : ∀ j < Nat.find some, ¬ Walk sources inside j n := fun j lt => Nat.find_min some lt
  have visits : ∀ i : Fin (Nat.find some + 1), ∃ m : Fin count,
      Walk sources inside i m ∧ ∀ j < i.val, ¬ Walk sources inside j m := by
    intro i
    obtain ⟨m, w, shortest⟩ := (Nat.find_spec some).exists_least least (Nat.le_of_lt_succ i.isLt)
    exact ⟨⟨m, w.lt_count bounded positive⟩, w, shortest⟩
  choose visit walk shortest using visits
  have injective : Function.Injective visit := by
    intro i j same
    rcases Nat.lt_trichotomy i j with lt | eq | gt
    · exact absurd (same ▸ walk i) (shortest j i lt)
    · exact Fin.ext eq
    · exact absurd (same ▸ walk j) (shortest i j gt)
  have enough := Fintype.card_le_of_injective visit injective
  rwa [Fintype.card_fin, Fintype.card_fin] at enough

end Walk

/-! ## What a sweep does

The numbers below `count` are taken to be the vertices of a graph, given by the sources of the edges
into each of them.
-/

structure Rooted (sources : Nat → List Nat) (count : Nat) : Prop where
  positive : 0 < count
  target : ∀ n p, p ∈ sources n → n < count
  source : ∀ n p, p ∈ sources n → p < count
  /-- Every number is entered from a smaller one. -/
  earlier : ∀ n, 0 < n → n < count → ∃ p ∈ sources n, p < n

/-- No walk to `n` avoids `a`. -/
def Dominates (sources : Nat → List Nat) (a n : Nat) : Prop :=
  ∀ k, ¬ Walk sources (· ≠ a) k n

section Sweep

variable {sources : Nat → List Nat} {count k : Nat}

theorem Dominates.eq_zero (h : Dominates sources a 0) : a = 0 := by
  by_contra ne
  exact h 0 (.start (Ne.symm ne))

theorem Dominates.source (h : Dominates sources a n) (ne : n ≠ a) (edge : p ∈ sources n) :
    Dominates sources a p :=
  fun k w => h (k + 1) (.step w edge ne)

theorem Dominates.le (g : Rooted sources count) (h : Dominates sources a n) (below : n < count) :
    a ≤ n := by
  induction n using Nat.strongRecOn with
  | ind n ih =>
    by_cases self : n = a
    · exact self.ge
    · have positive : 0 < n := by
        by_contra zero
        obtain rfl : n = 0 := by omega
        exact self h.eq_zero.symm
      obtain ⟨p, edge, lt⟩ := g.earlier n positive below
      exact (ih p lt (h.source self edge) (lt.trans below)).trans lt.le

/-- A number hangs from an ancestor of its sources, and from the lowest one: it has what they have
in common with it. -/
theorem relink_eq_hang (within : n ≤ t.size) (edge : p ∈ sources n) (lt : p < n) :
    ∃ c < n, t.relink sources n = t.hang n c ∧
      (∀ b ∈ sources n, b < t.size → t.Ancestor c b) ∧
      ∀ q : Nat → Prop, (∀ a b, q a → q b → a < b → q (t.parent b)) →
        (∀ b ∈ sources n, b < t.size → q b) → q c := by
  have present : ∀ b, b ∈ (sources n).filter (· < t.size) ↔ b ∈ sources n ∧ b < t.size := by simp
  unfold relink
  split
  · rename_i empty
    have mem := (present p).mpr ⟨edge, lt.trans_le within⟩
    rw [empty] at mem
    cases mem
  · rename_i first others listed
    rw [listed] at present
    have below := t.foldl_meet_ancestor first others
    refine ⟨_, ?_, rfl, fun b hb inside => below b ((present b).mpr ⟨hb, inside⟩), ?_⟩
    · exact (below p ((present p).mpr ⟨edge, lt.trans_le within⟩)).le.trans_lt lt
    · intro q up all
      apply foldl_meet_induction up
      · exact (present first).mp List.mem_cons_self |>.elim (all first)
      · exact fun b hb => (present b).mp (List.mem_cons_of_mem _ hb) |>.elim (all b)

/-- The tree has no numbers but those of the graph, and what dominates one of them dominates its
parent too. -/
structure Sound (sources : Nat → List Nat) (count : Nat) (t : DominatorTree) : Prop where
  size_le : t.size ≤ count
  keeps : ∀ n a, 0 < n → n < t.size → Dominates sources a n → n ≠ a →
    Dominates sources a (t.parent n)

theorem Sound.ancestor (h : t.Sound sources count) (below : n < t.size)
    (dom : Dominates sources a n) : t.Ancestor a n := by
  induction n using Nat.strongRecOn with
  | ind n ih =>
    by_cases self : n = a
    · exact self ▸ .refl
    · have positive : 0 < n := by
        by_contra zero
        obtain rfl : n = 0 := by omega
        exact self dom.eq_zero.symm
      have up := t.parent_lt positive
      exact .up positive (ih _ up (up.trans below) (h.keeps n a positive below dom self))

theorem Sound.relink (g : Rooted sources count) (h : t.Sound sources count) (positive : 0 < n)
    (below : n < count) (within : n ≤ t.size) :
    (t.relink sources n).Sound sources count ∧ (t.relink sources n).size = max t.size (n + 1) := by
  obtain ⟨p, edge, lt⟩ := g.earlier n positive below
  obtain ⟨c, smaller, eq, -, lowest⟩ := relink_eq_hang within edge lt
  have size_le := h.size_le
  rw [eq, size_hang smaller within]
  refine ⟨⟨by rw [size_hang smaller within]; omega, fun m a hm inside dom ne => ?_⟩, rfl⟩
  rw [size_hang smaller within] at inside
  rw [parent_hang smaller within]
  split
  · subst m
    -- on the way from the sources to where they meet nothing that dominates them is passed
    refine (lowest (fun b => b < t.size ∧ Dominates sources a b) ?_ ?_).2
    · rintro x y ⟨hx, dom_x⟩ ⟨hy, dom_y⟩ lt
      have := dom_x.le g (by omega)
      have up := t.parent_lt (n := y) (by omega)
      exact ⟨up.trans hy, h.keeps y a (by omega) hy dom_y (by omega)⟩
    · exact fun b hb inside => ⟨inside, dom.source ne hb⟩
  · exact h.keeps m a hm (by omega) dom ne

theorem sweep_induction (g : Rooted sources count) (inv : Nat → DominatorTree → Prop)
    (step : ∀ n t, 0 < n → n < count → inv n t → inv (n + 1) (t.relink sources n)) (h : inv 1 t) :
    inv count (t.sweep sources count) := by
  have run : ∀ length start t, 0 < start → start + length = count → inv start t →
      inv count ((List.range' start length).foldl (relink sources) t) := by
    intro length
    induction length with
    | zero =>
      intro start t _ total h
      rwa [← total]
    | succ length ih =>
      intro start t pos total h
      rw [List.range'_succ, List.foldl_cons]
      exact ih (start + 1) _ (by omega) (by omega) (step start t pos (by omega) h)
  have := g.positive
  exact run (count - 1) 1 t (by omega) (by omega) h

theorem Sound.sweep (g : Rooted sources count) (h : t.Sound sources count) :
    (t.sweep sources count).Sound sources count ∧ (t.sweep sources count).size = count := by
  have run := sweep_induction g (fun n t => t.Sound sources count ∧ n ≤ t.size)
    (fun n t pos below ⟨sound, within⟩ => ?_) ⟨h, Nat.le_add_left 1 _⟩
  · exact ⟨run.1, Nat.le_antisymm run.1.size_le run.2⟩
  · obtain ⟨sound', size⟩ := sound.relink g pos below within
    exact ⟨sound', by omega⟩

/-- No walk of fewer than `k` steps to `n` avoids an ancestor of `n`. -/
def Excludes (sources : Nat → List Nat) (t : DominatorTree) (k n : Nat) : Prop :=
  ∀ a j, j < k → Walk sources (· ≠ a) j n → ¬ t.Ancestor a n

theorem excludes_zero : t.Excludes sources k 0 := by
  intro a j _ w above
  exact w.inside_end (ancestor_zero_iff.1 above).symm

theorem excludes_one : t.Excludes sources 1 n := by
  intro a j lt w
  obtain rfl : j = 0 := by omega
  cases w with
  | start h => exact fun above => h (ancestor_zero_iff.1 above).symm

theorem Excludes.relink_self (within : n ≤ t.size) (inside : ∀ b ∈ sources n, b < t.size)
    (edge : p ∈ sources n) (lt : p < n) (h : ∀ b ∈ sources n, t.Excludes sources k b) :
    (t.relink sources n).Excludes sources (k + 1) n := by
  obtain ⟨c, smaller, eq, below, -⟩ := relink_eq_hang within edge lt
  rw [eq]
  intro a j short w above
  have above_c : t.Ancestor a c := by
    have := above.parent (Ne.symm w.inside_end)
    rwa [parent_hang smaller within, if_pos rfl, ancestor_hang_of_lt smaller within smaller] at this
  cases w with
  | start _ => omega
  | @step j m _ w edge _ =>
    exact h m edge a j (by omega) w (above_c.trans (below m edge (inside m edge)))

theorem Excludes.relink_other (within : n ≤ t.size) (edge : p ∈ sources n) (lt : p < n)
    (self : (t.relink sources n).Excludes sources k n) (h : t.Excludes sources k m) :
    (t.relink sources n).Excludes sources k m := by
  obtain ⟨c, smaller, eq, -, -⟩ := relink_eq_hang within edge lt
  rw [eq] at self ⊢
  intro a j short w above
  rcases above.of_hang smaller within with above | ⟨through, above⟩
  · exact h a j short w above
  · -- the walk passes through `n`, since `n` was an ancestor of its end
    rcases w.avoids_or_visits n with avoids | ⟨i, le, w'⟩
    · exact h n j short (avoids.mono fun _ h => h.2) through
    · refine self a i (by omega) w' (.up (by omega) ?_)
      rwa [parent_hang smaller within, if_pos rfl, ancestor_hang_of_lt smaller within smaller]

/-- Each sweep deals with walks that are one step longer. -/
theorem Excludes.sweep (g : Rooted sources count) (full : t.size = count)
    (h : ∀ n < count, t.Excludes sources k n) :
    ∀ n < count, (t.sweep sources count).Excludes sources (k + 1) n := by
  have run := sweep_induction g (t := t)
    (fun n t => t.size = count ∧ (∀ m < count, t.Excludes sources k m) ∧
      ∀ m < n, t.Excludes sources (k + 1) m)
    (fun n t pos below ⟨full, h, done⟩ => ?_) ⟨full, h, fun m hm => ?_⟩
  · exact run.2.2
  · obtain ⟨p, edge, lt⟩ := g.earlier n pos below
    have within : n ≤ t.size := by omega
    have self := Excludes.relink_self within (fun b hb => full ▸ g.source n b hb) edge lt
      fun b hb => h b (g.source n b hb)
    have self' : (t.relink sources n).Excludes sources k n := fun a j lt => self a j (by omega)
    refine ⟨?_, fun m hm => .relink_other within edge lt self' (h m hm), fun m hm => ?_⟩
    · obtain ⟨c, smaller, eq, -, -⟩ := relink_eq_hang within edge lt
      rw [eq, size_hang smaller within]
      omega
    · rcases Nat.lt_succ_iff_lt_or_eq.mp hm with before | rfl
      · exact .relink_other within edge lt self (done m before)
      · exact self
  · rw [Nat.lt_one_iff.mp hm]
    exact excludes_zero

theorem dominates_of_ancestor (g : Rooted sources count)
    (h : ∀ n < count, t.Excludes sources count n) (below : n < count) (above : t.Ancestor a n) :
    Dominates sources a n := by
  intro k w
  obtain ⟨j, short, w⟩ := w.exists_short g.target g.positive
  exact h n below a j short w above

theorem sweep_eq_self (g : Rooted sources count) (full : t.size = count)
    (sound : t.Sound sources count) (h : ∀ n < count, t.Excludes sources count n) :
    t.sweep sources count = t := by
  refine sweep_induction g (fun _ t' => t' = t) (fun n t' pos below same => ?_) rfl
  subst t'
  obtain ⟨p, edge, lt⟩ := g.earlier n pos below
  have within : n ≤ t.size := by omega
  obtain ⟨c, smaller, eq, common, lowest⟩ := relink_eq_hang within edge lt
  have up := t.parent_lt pos
  have inside : ∀ b ∈ sources n, b < count := g.source n
  -- the parent dominates the sources, so it is above where they meet
  have dom : Dominates sources (t.parent n) n :=
    dominates_of_ancestor g h below (.up pos .refl)
  have parent_le : t.parent n ≤ c :=
    (lowest (t.Ancestor (t.parent n)) (fun a b ha hb lt => hb.parent (by have := ha.le; omega))
      fun b hb _ => sound.ancestor (by have := inside b hb; omega) (dom.source (by omega) hb)).le
  -- where they meet dominates all of them, hence the number itself
  have dom_c : Dominates sources c n := by
    intro k w
    cases w with
    | start _ => omega
    | @step k m _ w edge _ =>
      have := inside m edge
      exact dominates_of_ancestor g h this (common m edge (by omega)) k w
  have le_parent : c ≤ t.parent n :=
    ((sound.ancestor (by omega) dom_c).parent (by omega)).le
  rw [eq, Nat.le_antisymm le_parent parent_le, hang_parent pos (by omega)]

/-- What `k` sweeps come to: from the first one on all numbers are in the tree. -/
def Settled (sources : Nat → List Nat) (count k : Nat) (t : DominatorTree) : Prop :=
  k = 0 ∨ t.size = count ∧ ∀ n < count, t.Excludes sources k n

theorem Settled.sweep (g : Rooted sources count) (sound : t.Sound sources count)
    (h : t.Settled sources count k) : (t.sweep sources count).Settled sources count (k + 1) := by
  obtain ⟨-, full⟩ := sound.sweep g
  rcases h with rfl | ⟨full', h⟩
  · exact .inr ⟨full, fun n _ => excludes_one⟩
  · exact .inr ⟨full, .sweep g full' h⟩

/-- A sweep that moves something leaves more settled than it found. -/
theorem findGreatest_settled_lt [∀ t, DecidablePred (Settled sources count · t)]
    (g : Rooted sources count) (sound : t.Sound sources count)
    (moved : t.sweep sources count ≠ t) :
    Nat.findGreatest (Settled sources count · t) count <
      Nat.findGreatest (Settled sources count · (t.sweep sources count)) count := by
  have here : t.Settled sources count (Nat.findGreatest (Settled sources count · t) count) :=
    Nat.findGreatest_spec (P := (Settled sources count · t)) (Nat.zero_le count) (.inl rfl)
  rcases Nat.lt_or_eq_of_le (Nat.findGreatest_le (P := (Settled sources count · t)) count)
    with lt | top
  · exact Nat.le_findGreatest (P := (Settled sources count · (t.sweep sources count))) lt
      (here.sweep g sound)
  · rw [top] at here
    have := g.positive
    rcases here with zero | ⟨full, h⟩
    · omega
    · exact absurd (sweep_eq_self g full sound h) moved

/-- The sweeps end because one of them moves nothing, and then the ancestors of every number are
its dominators. -/
theorem stabilize_sweep (g : Rooted sources count)
    (result : stabilize (sweep sources count) (· == ·) (count + 1) root = t) :
    t.sweep sources count = t ∧ t.size = count ∧
      ∀ n < count, ∀ a, t.Ancestor a n ↔ Dominates sources a n := by
  classical
  have initial : root.Sound sources count :=
    ⟨g.positive, fun n a pos inside => absurd inside (Nat.not_lt.mpr pos)⟩
  obtain ⟨y, sound, same, last⟩ := stabilize_eq_step (sweep sources count) (· == ·)
    (Sound sources count) (fun t => Nat.findGreatest (Settled sources count · t) count) count
    (fun t sound => (sound.sweep g).1)
    (fun t sound moved => findGreatest_settled_lt g sound (by simpa using moved))
    (fun t _ => Nat.findGreatest_le count) initial (Nat.lt_succ_of_le (Nat.sub_le _ _))
  have fixed : y.sweep sources count = y := by simpa using same
  obtain rfl : t = y := by rw [← result, last, fixed]
  have all : ∀ k, t.Settled sources count k := by
    intro k
    induction k with
    | zero => exact .inl rfl
    | succ k ih => exact fixed ▸ ih.sweep g sound
  have := g.positive
  rcases all count with zero | ⟨full, h⟩
  · omega
  · exact ⟨fixed, full, fun n below a =>
      ⟨dominates_of_ancestor g h below, sound.ancestor (by omega)⟩⟩

end Sweep

end DominatorTree

/-! ## The blocks of a function -/

namespace Dominators

variable {f : Function} {a b i : BlockId} {m n : Nat}

theorem number?_eq_some_iff : number? f.reversePostorder b = some n ↔
    f.reversePostorder[n]? = some b := by
  rw [number?, List.idxOf?_eq_some_iff]
  constructor
  · rintro ⟨h, rfl, -⟩
    exact List.getElem?_eq_getElem h
  · intro h
    obtain ⟨lt, rfl⟩ := List.getElem?_eq_some_iff.mp h
    refine ⟨lt, rfl, fun j hj same => ?_⟩
    exact hj.ne ((Function.nodup_reversePostorder.getElem_inj_iff).mp same)

theorem eq_of_getElem? (hm : f.reversePostorder[m]? = some b)
    (hn : f.reversePostorder[n]? = some b) : m = n := by
  rw [← number?_eq_some_iff] at hm hn
  exact Option.some.inj (hm.symm.trans hn)

theorem exists_getElem? (h : f.Reachable b) : ∃ n : Nat, f.reversePostorder[n]? = some b :=
  List.getElem?_of_mem (Function.mem_reversePostorder_iff.2 h)

theorem reachable_of_getElem? (h : f.reversePostorder[n]? = some b) : f.Reachable b :=
  Function.mem_reversePostorder_iff.1 (List.mem_of_getElem? h)

/-- The graph of the numbers of the reachable blocks. -/
def graph (f : Function) (n : Nat) : List Nat :=
  (sources f f.reversePostorder)[n]?.getD []

theorem mem_graph_iff : m ∈ graph f n ↔
    ∃ a b, f.reversePostorder[m]? = some a ∧ f.reversePostorder[n]? = some b ∧
      b ∈ f.successors a := by
  rw [graph, sources, List.getElem?_map]
  cases hn : f.reversePostorder[n]? with
  | none => simp
  | some b =>
    simp only [Option.map_some, Option.getD_some, List.mem_filterMap, Function.predecessors,
      List.mem_filter, List.contains_iff_mem, number?_eq_some_iff, Option.some.injEq,
      exists_and_left, exists_eq_left']
    constructor
    · rintro ⟨a, ⟨-, edge⟩, hm⟩
      exact ⟨a, hm, edge⟩
    · rintro ⟨a, hm, edge⟩
      exact ⟨a, ⟨(reachable_of_getElem? hm).inside_end, edge⟩, hm⟩

theorem getElem?_zero (h : f.layout ≠ []) : f.reversePostorder[0]? = some f.entry := by
  rw [← List.head?_eq_getElem?]
  exact Function.head?_reversePostorder h

theorem rooted_graph (h : f.layout ≠ []) :
    DominatorTree.Rooted (graph f) f.reversePostorder.length where
  positive := (List.getElem?_eq_some_iff.mp (getElem?_zero h)).1
  target n p edge := by
    obtain ⟨_, _, -, hn, -⟩ := mem_graph_iff.1 edge
    exact (List.getElem?_eq_some_iff.mp hn).1
  source n p edge := by
    obtain ⟨_, _, hp, -⟩ := mem_graph_iff.1 edge
    exact (List.getElem?_eq_some_iff.mp hp).1
  earlier n positive below := by
    have hn := List.getElem?_eq_getElem below
    have other : f.reversePostorder[n] ≠ f.entry := by
      intro same
      have := eq_of_getElem? (getElem?_zero h) (same ▸ hn)
      omega
    obtain ⟨a, edge, before⟩ := Function.exists_earlier (List.getElem_mem below) other
    obtain ⟨place, same⟩ := List.sublist_iff_exists_orderEmbedding_getElem?_eq.mp before
    have ha : f.reversePostorder[place 0]? = some a := (same 0).symm
    obtain rfl : place 1 = n := eq_of_getElem? (same 1).symm hn
    exact ⟨place 0, mem_graph_iff.2 ⟨a, _, ha, hn, edge⟩, place.lt_iff_lt.mpr Nat.zero_lt_one⟩

theorem exists_walk_iff {inside : BlockId → Prop} (at_n : f.reversePostorder[n]? = some b) :
    (∃ k, DominatorTree.Walk (graph f) (fun m => ∀ x ∈ f.reversePostorder[m]?, inside x) k n) ↔
      Reaches f.successors (fun x => x ∈ f.layout ∧ inside x) f.entry b := by
  have laid : f.layout ≠ [] := List.ne_nil_of_mem (reachable_of_getElem? at_n).inside_end
  constructor
  · rintro ⟨k, w⟩
    induction w generalizing b with
    | start h =>
      obtain rfl : f.entry = b := Option.some.inj ((getElem?_zero laid).symm.trans at_n)
      exact .refl ⟨(reachable_of_getElem? at_n).inside_end, h _ at_n⟩
    | step w edge h ih =>
      obtain ⟨a, c, hm, hn, edge⟩ := mem_graph_iff.1 edge
      obtain rfl : c = b := Option.some.inj (hn.symm.trans at_n)
      exact .step (ih hm) edge ⟨(reachable_of_getElem? at_n).inside_end, h _ at_n⟩
  · intro way
    induction way generalizing n with
    | refl h =>
      obtain rfl := eq_of_getElem? (getElem?_zero laid) at_n
      refine ⟨0, .start fun x hx => ?_⟩
      rw [at_n] at hx
      cases hx
      exact h.2
    | @step a c before edge h ih =>
      obtain ⟨m, hm⟩ := exists_getElem? (before.mono fun _ h => h.1)
      obtain ⟨k, w⟩ := ih hm
      refine ⟨k + 1, .step w (mem_graph_iff.2 ⟨a, c, hm, at_n, edge⟩) fun x hx => ?_⟩
      rw [at_n] at hx
      cases hx
      exact h.2

theorem settled_compute (h : f.layout ≠ []) :
    (compute f).tree.sweep (graph f) f.reversePostorder.length = (compute f).tree ∧
      (compute f).tree.size = f.reversePostorder.length ∧ ∀ n < f.reversePostorder.length, ∀ a,
        (compute f).tree.Ancestor a n ↔ DominatorTree.Dominates (graph f) a n :=
  DominatorTree.stabilize_sweep (rooted_graph h) rfl

/-- The ancestors of a block are the blocks that control has to pass on the way to it. -/
theorem ancestor_compute_iff (hm : f.reversePostorder[m]? = some a)
    (hn : f.reversePostorder[n]? = some b) :
    (compute f).tree.Ancestor m n ↔ ¬ f.ReachableAvoiding a b := by
  have laid : f.layout ≠ [] := List.ne_nil_of_mem (reachable_of_getElem? hn).inside_end
  obtain ⟨-, -, ancestors⟩ := settled_compute laid
  rw [ancestors n (List.getElem?_eq_some_iff.mp hn).1, Function.ReachableAvoiding,
    ← @exists_walk_iff f b n (· ≠ a) hn, not_exists]
  have same : ∀ x, x ≠ m ↔ ∀ y ∈ f.reversePostorder[x]?, y ≠ a := by
    intro x
    constructor
    · rintro ne y hy rfl
      exact ne (eq_of_getElem? hy hm)
    · rintro all rfl
      exact all a hm rfl
  simp only [← same]
  rfl

@[simp] theorem isReachable_compute_iff :
    (compute f).isReachable b = true ↔ f.Reachable b := by
  rw [isReachable, List.contains_iff_mem]
  exact Function.mem_reversePostorder_iff

theorem dominates_eq_true_iff : (compute f).dominates a b = true ↔
    ∃ m n, f.reversePostorder[m]? = some a ∧ f.reversePostorder[n]? = some b ∧
      (compute f).tree.Ancestor m n := by
  have order : (compute f).order = f.reversePostorder := rfl
  rw [dominates, order]
  constructor
  · intro h
    split at h
    · rename_i m n hm hn
      exact ⟨m, n, number?_eq_some_iff.1 hm, number?_eq_some_iff.1 hn,
        DominatorTree.isAncestor_iff.1 h⟩
    · cases h
  · rintro ⟨m, n, hm, hn, h⟩
    rw [number?_eq_some_iff.2 hm, number?_eq_some_iff.2 hn]
    exact DominatorTree.isAncestor_iff.2 h

theorem dominates_compute_iff :
    (compute f).dominates a b = true ↔
      a ∈ f.layout ∧ f.Reachable b ∧ ¬ f.ReachableAvoiding a b := by
  rw [dominates_eq_true_iff]
  constructor
  · rintro ⟨m, n, hm, hn, h⟩
    exact ⟨(reachable_of_getElem? hm).inside_end, reachable_of_getElem? hn,
      (ancestor_compute_iff hm hn).mp h⟩
  · rintro ⟨-, reach, always⟩
    have reach_a : f.Reachable a := by
      rcases reach.avoids_or_first a with h | rfl | ⟨c, h, edge, ha⟩
      · exact absurd h always
      · exact .refl reach.inside_start
      · exact .step (h.mono fun _ h => h.1) edge ha
    obtain ⟨m, hm⟩ := exists_getElem? reach_a
    obtain ⟨n, hn⟩ := exists_getElem? reach
    exact ⟨m, n, hm, hn, (ancestor_compute_iff hm hn).mpr always⟩

theorem dominates_antisymm (h : (compute f).dominates a b = true)
    (h' : (compute f).dominates b a = true) : a = b := by
  obtain ⟨m, n, hm, hn, above⟩ := dominates_eq_true_iff.1 h
  obtain ⟨n', m', hn', hm', above'⟩ := dominates_eq_true_iff.1 h'
  obtain rfl := eq_of_getElem? hm hm'
  obtain rfl := eq_of_getElem? hn hn'
  obtain rfl := Nat.le_antisymm above.le above'.le
  exact Option.some.inj (hm.symm.trans hn)

theorem immediate?_compute (reach : f.Reachable b) (ne : b ≠ f.entry) :
    ∃ i, (compute f).immediate? b = some i ∧ i ≠ b ∧ (compute f).dominates i b = true ∧
      ∀ a, a ≠ b → (compute f).dominates a b = true → (compute f).dominates a i = true := by
  have laid : f.layout ≠ [] := List.ne_nil_of_mem reach.inside_end
  obtain ⟨n, hn⟩ := exists_getElem? reach
  cases n with
  | zero => exact absurd (Option.some.inj (hn.symm.trans (getElem?_zero laid))) ne
  | succ n =>
    have up := (compute f).tree.parent_lt n.succ_pos
    have below := (List.getElem?_eq_some_iff.mp hn).1
    have hi := List.getElem?_eq_getElem (up.trans below)
    refine ⟨_, ?_, fun same => up.ne (eq_of_getElem? (same ▸ hi) hn), ?_, fun a ne h => ?_⟩
    · have order : (compute f).order = f.reversePostorder := rfl
      rw [immediate?, order, number?_eq_some_iff.2 hn]
      exact hi
    · exact dominates_eq_true_iff.2 ⟨_, _, hi, hn, .up n.succ_pos .refl⟩
    · obtain ⟨m, n', hm, hn', above⟩ := dominates_eq_true_iff.1 h
      obtain rfl := eq_of_getElem? hn hn'
      refine dominates_eq_true_iff.2 ⟨m, _, hm, hi, above.parent ?_⟩
      rintro rfl
      exact ne (Option.some.inj (hm.symm.trans hn))

theorem immediate?_compute_eq_none (h : ¬ f.Reachable b ∨ b = f.entry) :
    (compute f).immediate? b = none := by
  have order : (compute f).order = f.reversePostorder := rfl
  rw [immediate?, order]
  split
  · rename_i n hn
    have hn := number?_eq_some_iff.1 hn
    have reach := reachable_of_getElem? hn
    rcases h with unreached | rfl
    · exact absurd reach unreached
    · have := eq_of_getElem? hn (getElem?_zero (List.ne_nil_of_mem reach.inside_end))
      omega
  · rfl

end Dominators

end CheckpointRestart
