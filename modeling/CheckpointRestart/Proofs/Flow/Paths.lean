import CheckpointRestart.Proofs.Program.Strictness
import Mathlib

/-! # Dominance by paths

In a function that passes the structural check control never leaves the layout, so that a block is
reached exactly if a path leads to it. The computed relation is then dominance as it is defined:
every path from the entry to the block passes through the dominator.
-/

namespace CheckpointRestart

namespace Function

/-- A path of control flow from the entry to `b`. -/
structure Path (f : Function) (b : BlockId) (path : List BlockId) : Prop where
  start : path.head? = some f.entry
  last : path.getLast? = some b
  edges : path.IsChain fun x y => y ∈ f.successors x

/-- Some path leads to `b`, and all of them pass through `a`. -/
def Dominates (f : Function) (a b : BlockId) : Prop :=
  (∃ path, f.Path b path) ∧ ∀ path, f.Path b path → a ∈ path

variable {f : Function} {a b c : BlockId} {path : List BlockId}

theorem Path.concat (h : f.Path b path) (edge : c ∈ f.successors b) : f.Path c (path ++ [c]) where
  start := by
    rw [List.head?_append, h.start]
    rfl
  last := by simp
  edges := by
    rw [List.isChain_append]
    refine ⟨h.edges, by simp, ?_⟩
    simp only [h.last, List.head?_cons, Option.mem_def, Option.some.injEq]
    rintro _ rfl _ rfl
    exact edge

/-- Ways through blocks of a kind are paths of such blocks. -/
theorem Shaped.reaches_iff_path (shaped : f.Shaped) {inside : BlockId → Prop} :
    Reaches f.successors (fun x => x ∈ f.layout ∧ inside x) f.entry b ↔
      ∃ path, f.Path b path ∧ ∀ x ∈ path, inside x := by
  constructor
  · intro way
    induction way with
    | refl h => exact ⟨[f.entry], ⟨rfl, rfl, .singleton _⟩, by simpa using h.2⟩
    | @step b c _ edge h ih =>
      obtain ⟨path, path_b, all⟩ := ih
      refine ⟨path ++ [c], path_b.concat edge, fun x hx => ?_⟩
      rcases List.mem_append.mp hx with hx | hx
      · exact all x hx
      · exact List.mem_singleton.mp hx ▸ h.2
  · rintro ⟨path, path_b, all⟩
    induction path using List.reverseRecOn generalizing b with
    | nil => cases path_b.start
    | append_singleton path c ih =>
      obtain ⟨start, last, edges⟩ := path_b
      obtain rfl : c = b := by simpa using last
      rw [List.forall_mem_append, List.forall_mem_singleton] at all
      rcases path.eq_nil_or_concat' with rfl | ⟨before, x, rfl⟩
      · cases start
        exact .refl ⟨shaped.entry_mem, all.2⟩
      · rw [List.isChain_append] at edges
        have edge : c ∈ f.successors x := edges.2.2 x (by simp) c (by simp)
        have path_x : f.Path x (before ++ [x]) := by
          refine ⟨?_, by simp, edges.1⟩
          rwa [List.head?_append_of_ne_nil _ (by simp)] at start
        have way := ih path_x all.1
        exact .step way edge ⟨shaped.successor_mem way.inside_end.1 edge, all.2⟩

theorem Shaped.reachable_iff_path (shaped : f.Shaped) : f.Reachable b ↔ ∃ path, f.Path b path := by
  simpa [Reachable] using @Shaped.reaches_iff_path f b shaped fun _ => True

theorem Shaped.dominates_iff (shaped : f.Shaped) :
    (Dominators.compute f).dominates a b = true ↔ f.Dominates a b := by
  have avoiding : f.ReachableAvoiding a b ↔ ∃ path, f.Path b path ∧ a ∉ path := by
    rw [ReachableAvoiding, shaped.reaches_iff_path]
    exact exists_congr fun path => and_congr_right fun _ => List.forall_mem_ne'
  rw [Dominators.dominates_compute_iff, avoiding, shaped.reachable_iff_path, Dominates]
  simp only [not_exists, not_and, not_not]
  apply and_iff_right_of_imp
  rintro ⟨reach, always⟩
  by_contra outside
  have way : f.ReachableAvoiding a b := (shaped.reachable_iff_path.2 reach).mono fun x hx =>
    ⟨hx, fun same => outside (same ▸ hx)⟩
  obtain ⟨path, path_b, avoids⟩ := avoiding.mp way
  exact avoids (always path path_b)

end Function

/-- The computation of the dominators of a function that passes the structural check comes to
rest, and finds the blocks that paths lead to, those that all of these paths pass through, and the
last of them before the block itself. -/
theorem compute_dominators {f : Function} (valid : f.validate = .ok ()) :
    (Dominators.compute f).tree.sweep (Dominators.graph f) (Dominators.compute f).order.length =
      (Dominators.compute f).tree ∧
    (∀ b, (Dominators.compute f).isReachable b = true ↔ ∃ path, f.Path b path) ∧
    (∀ a b, (Dominators.compute f).dominates a b = true ↔ f.Dominates a b) ∧
    (∀ b, (Dominators.compute f).isReachable b = true → b ≠ f.entry →
      ∃ i, (Dominators.compute f).immediate? b = some i ∧
        ∀ x, x = i ↔ (x ≠ b ∧ f.Dominates x b) ∧
          ∀ a, a ≠ b → f.Dominates a b → a ≠ x → f.Dominates a x) ∧
    ∀ b, (Dominators.compute f).isReachable b = false ∨ b = f.entry →
      (Dominators.compute f).immediate? b = none := by
  have shaped := (Function.validate_eq_ok_iff.1 valid).toShaped
  have dominates : ∀ a b, (Dominators.compute f).dominates a b = true ↔ f.Dominates a b :=
    fun a b => shaped.dominates_iff
  refine ⟨(Dominators.settled_compute shaped.nonempty).1, fun b => ?_, dominates, ?_, ?_⟩
  · rw [Dominators.isReachable_compute_iff, shaped.reachable_iff_path]
  · intro b reach ne
    obtain ⟨i, found, strict, dom, lowest⟩ :=
      Dominators.immediate?_compute (Dominators.isReachable_compute_iff.1 reach) ne
    simp only [← dominates]
    refine ⟨i, found, fun x => ⟨?_, ?_⟩⟩
    · rintro rfl
      exact ⟨⟨strict, dom⟩, fun a ha h _ => lowest a ha h⟩
    · rintro ⟨⟨strict_x, dom_x⟩, lowest_x⟩
      by_contra other
      exact other (Dominators.dominates_antisymm (lowest x strict_x dom_x)
        (lowest_x i strict dom (Ne.symm other)))
  · intro b h
    apply Dominators.immediate?_compute_eq_none
    rw [← Dominators.isReachable_compute_iff, Bool.not_eq_true]
    exact h

/-- A loop that is entered in two places, and a block that is not entered at all. -/
def twoEntryLoop : Function where
  name := "twoEntryLoop"
  params := [⟨0⟩]
  returns := .void
  values := #[⟨"c", .int 1⟩]
  blocks := #[
    ⟨"entry", [.effect (.condBr (.value ⟨0⟩) ⟨1⟩ ⟨2⟩)]⟩,
    ⟨"left", [.effect (.br ⟨2⟩)]⟩,
    ⟨"right", [.effect (.condBr (.value ⟨0⟩) ⟨1⟩ ⟨3⟩)]⟩,
    ⟨"exit", [.effect (.ret none)]⟩,
    ⟨"lost", [.effect (.br ⟨3⟩)]⟩]
  layout := [⟨0⟩, ⟨1⟩, ⟨2⟩, ⟨3⟩, ⟨4⟩]

theorem compute_dominators_twoEntryLoop :
    twoEntryLoop.validate = .ok () ∧ twoEntryLoop.Dominates ⟨2⟩ ⟨3⟩ ∧
    ¬ twoEntryLoop.Dominates ⟨1⟩ ⟨3⟩ ∧ (¬ ∃ path, twoEntryLoop.Path ⟨4⟩ path) ∧
    (Dominators.compute twoEntryLoop).immediate? ⟨2⟩ = some ⟨0⟩ ∧
    ∀ a, a ≠ ⟨2⟩ → twoEntryLoop.Dominates a ⟨2⟩ → a = ⟨0⟩ := by
  have valid : twoEntryLoop.validate = .ok () := eq_ok_of_toOption (by cbv)
  obtain ⟨-, reachable, dominates, immediate, -⟩ := compute_dominators valid
  have at_two : (Dominators.compute twoEntryLoop).immediate? ⟨2⟩ = some ⟨0⟩ := by cbv
  have left : (Dominators.compute twoEntryLoop).dominates ⟨1⟩ ⟨3⟩ = false := by cbv
  have lost : (Dominators.compute twoEntryLoop).isReachable ⟨4⟩ = false := by cbv
  refine ⟨valid, (dominates _ _).mp (by cbv), ?_, ?_, at_two, fun a ne dom => ?_⟩
  · rw [← dominates, left]
    exact Bool.false_ne_true
  · rw [← reachable, lost]
    exact Bool.false_ne_true
  · obtain ⟨i, found, last⟩ := immediate ⟨2⟩ (by cbv) (by decide)
    obtain rfl := Option.some.inj (at_two.symm.trans found)
    by_contra other
    have above := ((last ⟨0⟩).mp rfl).2 a ne dom other
    exact other (List.mem_singleton.mp (above.2 [⟨0⟩] ⟨rfl, rfl, .singleton _⟩))

end CheckpointRestart
