import CheckpointRestart.Flow.Postorder
import Mathlib.Data.List.Nodup

/-! # What the search finds

The depth-first search of a function leaves exactly the blocks that control can reach within the
layout, each of them once. Turned around, its order starts with the entry and has before every
other block one that branches to it.
-/

namespace CheckpointRestart

/-- Control can go from `a` to `b` along `next` through blocks that are `inside`, the ends
included. -/
inductive Reaches (next : BlockId → List BlockId) (inside : BlockId → Prop) (a : BlockId) :
    BlockId → Prop
  | refl : inside a → Reaches next inside a a
  | step {b c : BlockId} :
    Reaches next inside a b → c ∈ next b → inside c → Reaches next inside a c

namespace Reaches

variable {next : BlockId → List BlockId} {inside inside' : BlockId → Prop} {a b c : BlockId}

theorem inside_end (h : Reaches next inside a b) : inside b := by
  cases h with
  | refl h => exact h
  | step _ _ h => exact h

theorem inside_start (h : Reaches next inside a b) : inside a := by
  induction h with
  | refl h => exact h
  | step _ _ _ ih => exact ih

theorem mono (h : Reaches next inside a b) (sub : ∀ x, inside x → inside' x) :
    Reaches next inside' a b := by
  induction h with
  | refl h => exact .refl (sub _ h)
  | step _ edge h ih => exact .step ih edge (sub _ h)

/-- A way that visits `x` can be cut at its first visit. -/
theorem avoids_or_first (x : BlockId) (h : Reaches next inside a b) :
    Reaches next (fun y => inside y ∧ y ≠ x) a b ∨ a = x ∨
      ∃ y, Reaches next (fun z => inside z ∧ z ≠ x) a y ∧ x ∈ next y ∧ inside x := by
  induction h with
  | refl ha =>
    by_cases hx : a = x
    · exact .inr (.inl hx)
    · exact .inl (.refl ⟨ha, hx⟩)
  | @step b c _ edge hc ih =>
    rcases ih with h | h | h
    · by_cases hx : c = x
      · exact .inr (.inr ⟨b, h, hx ▸ edge, hx ▸ hc⟩)
      · exact .inl (.step h edge ⟨hc, hx⟩)
    · exact .inr (.inl h)
    · exact .inr (.inr h)

end Reaches

section Postorder

variable {next : BlockId → List BlockId} {unvisited : List BlockId}
  {stack : List (BlockId × List BlockId)} {b c : BlockId}

theorem sublist_postorder : (stack.map (·.1)).Sublist (postorder next unvisited stack) := by
  fun_induction postorder next unvisited stack with
  | case1 => exact .slnil
  | case2 _ b _ ih => exact ih.cons_cons b
  | case3 _ _ s _ _ _ ih => exact (List.sublist_cons_self s _).trans ih
  | case4 _ _ _ _ _ _ ih => exact ih

theorem mem_stack_or_unvisited (h : b ∈ postorder next unvisited stack) :
    b ∈ stack.map (·.1) ∨ b ∈ unvisited := by
  fun_induction postorder next unvisited stack with
  | case1 => simp at h
  | case2 => grind
  | case3 => grind
  | case4 => grind

theorem nodup_postorder (distinct : (stack.map (·.1)).Nodup)
    (fresh : ∀ b ∈ stack.map (·.1), b ∉ unvisited) : (postorder next unvisited stack).Nodup := by
  fun_induction postorder next unvisited stack with
  | case1 => exact .nil
  | case2 unvisited b rest ih =>
    rw [List.map_cons, List.nodup_cons] at distinct
    refine List.nodup_cons.mpr ⟨fun again => ?_, ih distinct.2 fun c hc => fresh c (by simp [hc])⟩
    rcases mem_stack_or_unvisited again with h | h
    · exact distinct.1 h
    · exact fresh b (by simp) h
  | case3 unvisited b s others rest hs ih =>
    apply ih
    · exact List.nodup_cons.mpr ⟨fun h => fresh s h hs, distinct⟩
    · intro c hc
      rcases List.mem_cons.mp hc with rfl | hc
      · simp
      · exact fun h => fresh c hc ((mem_without.mp h).1)
  | case4 _ _ _ _ _ _ ih => exact ih distinct fresh

theorem getLast?_postorder :
    (postorder next unvisited stack).getLast? = (stack.map (·.1)).getLast? := by
  fun_induction postorder next unvisited stack with
  | case1 => rfl
  | case2 _ _ _ ih => rw [List.getLast?_cons, ih, List.map_cons, List.getLast?_cons]
  | case3 _ _ _ _ _ _ ih => exact ih
  | case4 _ _ _ _ _ _ ih => exact ih

/-- The search enters a block from one that it leaves later. -/
theorem exists_left_later (proper : ∀ e ∈ stack, e.2 ⊆ next e.1)
    (h : b ∈ postorder next unvisited stack) :
    b ∈ stack.map (·.1) ∨
      ∃ a, b ∈ next a ∧ [b, a].Sublist (postorder next unvisited stack) := by
  fun_induction postorder next unvisited stack with
  | case1 => simp at h
  | case2 unvisited x rest ih =>
    rcases List.mem_cons.mp h with rfl | h
    · simp
    · rcases ih (fun e he => proper e (List.mem_cons_of_mem _ he)) h with h | ⟨a, edge, before⟩
      · exact .inl (List.mem_cons_of_mem _ h)
      · exact .inr ⟨a, edge, before.cons x⟩
  | case3 unvisited x s others rest hs ih =>
    have here := List.cons_subset.mp (proper _ List.mem_cons_self)
    have proper' : ∀ e ∈ (s, next s) :: (x, others) :: rest, e.2 ⊆ next e.1 := by
      simp only [List.forall_mem_cons]
      exact ⟨List.Subset.refl _, here.2, fun e he => proper e (List.mem_cons_of_mem _ he)⟩
    rcases ih proper' h with hb | later
    · rcases List.mem_cons.mp hb with rfl | hb
      · refine .inr ⟨x, here.1, .trans ?_ sublist_postorder⟩
        simp
      · exact .inl hb
    · exact .inr later
  | case4 unvisited x s others rest _ ih =>
    apply ih _ h
    have here := List.cons_subset.mp (proper _ List.mem_cons_self)
    simp only [List.forall_mem_cons]
    exact ⟨here.2, fun e he => proper e (List.mem_cons_of_mem _ he)⟩

/-- What holds on the stack and is handed on along the edges holds of every block that is left. -/
theorem postorder_induction {p : BlockId → Prop} (proper : ∀ e ∈ stack, e.2 ⊆ next e.1)
    (base : ∀ a ∈ stack.map (·.1), p a)
    (step : ∀ a c, p a → c ∈ next a → c ∈ unvisited → p c) :
    ∀ b ∈ postorder next unvisited stack, p b := by
  fun_induction postorder next unvisited stack with
  | case1 => simp
  | case2 unvisited x rest ih =>
    simp only [List.map_cons, List.forall_mem_cons] at base proper ⊢
    exact ⟨base.1, ih proper.2 base.2 step⟩
  | case3 unvisited x s others rest hs ih =>
    simp only [List.map_cons, List.forall_mem_cons, List.cons_subset] at base proper ih
    apply ih ⟨List.Subset.refl _, proper.1.2, proper.2⟩
      ⟨step x s base.1 proper.1.1 hs, base.1, base.2⟩
    exact fun a c ha edge hc => step a c ha edge (mem_without.mp hc).1
  | case4 unvisited x s others rest _ ih =>
    simp only [List.forall_mem_cons, List.cons_subset] at proper ih
    exact ih ⟨proper.1.2, proper.2⟩ base step

theorem closed_postorder :
    (∀ e ∈ stack, ∀ c ∈ e.2, c ∈ unvisited → c ∈ postorder next unvisited stack) ∧
      ∀ b ∈ postorder next unvisited stack, b ∉ stack.map (·.1) → ∀ c ∈ next b, c ∈ unvisited →
        c ∈ postorder next unvisited stack := by
  fun_induction postorder next unvisited stack with
  | case1 => simp
  | case2 unvisited x rest ih =>
    obtain ⟨pending, done⟩ := ih
    constructor
    · rintro e he c hc fresh
      rcases List.mem_cons.mp he with rfl | he
      · cases hc
      · exact List.mem_cons_of_mem _ (pending e he c hc fresh)
    · rintro b hb new c edge fresh
      simp only [List.map_cons, List.mem_cons, not_or] at hb new
      exact List.mem_cons_of_mem _ (done b (hb.resolve_left new.1) new.2 c edge fresh)
  | case3 unvisited x s others rest hs ih =>
    obtain ⟨pending, done⟩ := ih
    generalize out : postorder next (without unvisited s) ((s, next s) :: (x, others) :: rest) = left
      at pending done ⊢
    have hit : s ∈ left := out ▸ sublist_postorder.subset (by simp)
    -- the successor that is entered is on the stack from now on, the others are as before
    have entered : ∀ c, (c ∈ without unvisited s → c ∈ left) → c ∈ unvisited → c ∈ left := by
      intro c other fresh
      by_cases new : c = s
      · exact new ▸ hit
      · exact other (mem_without.mpr ⟨fresh, new⟩)
    simp only [List.forall_mem_cons] at pending ⊢
    refine ⟨⟨⟨fun _ => hit, fun c hc => entered c (pending.2.1 c hc)⟩,
      fun e he c hc => entered c (pending.2.2 e he c hc)⟩, fun b hb new c edge => entered c ?_⟩
    by_cases here : b = s
    · exact pending.1 c (here ▸ edge)
    · exact done b hb (List.not_mem_cons_of_ne_of_not_mem here new) c edge
  | case4 unvisited x s others rest hs ih =>
    obtain ⟨pending, done⟩ := ih
    simp only [List.forall_mem_cons] at pending ⊢
    exact ⟨⟨⟨fun fresh => absurd fresh hs, pending.1⟩, pending.2⟩, done⟩

end Postorder

namespace Function

variable {f : Function} {a b : BlockId}

/-- Control can go from the entry to `b`, within the layout. -/
def Reachable (f : Function) (b : BlockId) : Prop :=
  Reaches f.successors (· ∈ f.layout) f.entry b

/-- Control can go from the entry to `b` without passing through `a`. -/
def ReachableAvoiding (f : Function) (a b : BlockId) : Prop :=
  Reaches f.successors (fun x => x ∈ f.layout ∧ x ≠ a) f.entry b

theorem mem_reversePostorder_iff : b ∈ f.reversePostorder ↔ f.Reachable b := by
  unfold reversePostorder Reachable entry
  split
  · rename_i empty
    simp only [empty, List.not_mem_nil, false_iff]
    exact fun h => h.inside_end
  · rename_i start rest laid
    rw [laid, List.mem_reverse, List.headD_cons]
    constructor
    · apply postorder_induction
      · simp
      · simp only [List.map_cons, List.map_nil, List.mem_singleton, forall_eq]
        exact .refl List.mem_cons_self
      · intro a c ha edge hc
        exact .step ha (List.mem_reverse.mp edge)
          (List.mem_cons_of_mem _ (mem_without.mp hc).1)
    · intro way
      have first : start ∈ postorder (fun b => (f.successors b).reverse)
          (without rest start) [(start, (f.successors start).reverse)] :=
        sublist_postorder.subset (by simp)
      induction way with
      | refl _ => exact first
      | @step x c _ edge hc ih =>
        by_cases start_c : c = start
        · exact start_c ▸ first
        · have fresh : c ∈ without rest start := by
            simp only [List.mem_cons, start_c, false_or] at hc
            simp [hc, start_c]
          obtain ⟨here, others⟩ := @closed_postorder (fun b => (f.successors b).reverse)
            (without rest start) [(start, (f.successors start).reverse)]
          by_cases start_x : x = start
          · exact here _ List.mem_cons_self c (by simpa [← start_x] using edge) fresh
          · exact others x ih (by simpa using start_x) c (List.mem_reverse.mpr edge) fresh

theorem nodup_reversePostorder : f.reversePostorder.Nodup := by
  unfold reversePostorder
  split
  · exact .nil
  · rw [List.nodup_reverse]
    apply nodup_postorder <;> simp

theorem head?_reversePostorder (h : f.layout ≠ []) :
    f.reversePostorder.head? = some f.entry := by
  unfold reversePostorder entry
  split
  · rename_i empty
    exact absurd empty h
  · rename_i laid
    simp [List.head?_reverse, getLast?_postorder, laid]

/-- Every reachable block but the entry comes after one that branches to it. -/
theorem exists_earlier (hb : b ∈ f.reversePostorder) (ne : b ≠ f.entry) :
    ∃ a, b ∈ f.successors a ∧ [a, b].Sublist f.reversePostorder := by
  unfold reversePostorder entry at *
  split at hb
  · simp at hb
  · rename_i start rest laid
    rw [laid, List.headD_cons] at ne
    rcases exists_left_later (by simp) (List.mem_reverse.mp hb) with h | ⟨a, edge, before⟩
    · simp [ne] at h
    · refine ⟨a, List.mem_reverse.mp edge, ?_⟩
      simpa [laid] using before.reverse

end Function

end CheckpointRestart
