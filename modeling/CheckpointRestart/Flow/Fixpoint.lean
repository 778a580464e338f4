/-! # Iteration to a fixed point

A step is repeated until it changes nothing, at most a given number of times. Callers pass a bound
that the step cannot exceed because each change uses up some finite capacity.
-/

namespace CheckpointRestart

/-- Repeats `step` from `x` until `same` cannot tell the result from what it was made of. -/
def stabilize {α : Type} (step : α → α) (same : α → α → Bool) : Nat → α → α
  | 0, x => x
  | bound + 1, x =>
    let y := step x
    if same y x then y else stabilize step same bound y

/-- An iteration that cannot rise above its bound ends because a step changes nothing. -/
theorem stabilize_eq_step {α : Type} (step : α → α) (same : α → α → Bool) (inv : α → Prop)
    (rank : α → Nat) (top : Nat) (kept : ∀ x, inv x → inv (step x))
    (rises : ∀ x, inv x → same (step x) x = false → rank x < rank (step x))
    (bounded : ∀ x, inv x → rank x ≤ top) {bound : Nat} {x : α} (hx : inv x)
    (room : top - rank x < bound) :
    ∃ y, inv y ∧ same (step y) y = true ∧ stabilize step same bound x = step y := by
  induction bound generalizing x with
  | zero => omega
  | succ bound ih =>
    rw [stabilize]
    cases h : same (step x) x with
    | true => exact ⟨x, hx, h, by simp⟩
    | false =>
      have := rises x hx h
      have := bounded _ (kept x hx)
      simpa using ih (kept x hx) (by omega)

end CheckpointRestart
