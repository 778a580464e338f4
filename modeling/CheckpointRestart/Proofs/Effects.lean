/-! # Successful computations

A computation in sequence succeeds exactly if its parts do, one after the other.
-/

namespace CheckpointRestart

variable {ε σ α β : Type}

theorem bind_eq_ok_iff {x : Except ε α} {k : α → Except ε β} {b : β} :
    (x >>= k) = .ok b ↔ ∃ a, x = .ok a ∧ k a = .ok b := by
  cases x with
  | ok a => simp [bind, Except.bind]
  | error e => simp [bind, Except.bind]

theorem eq_ok_of_toOption {x : Except ε α} {a : α} (h : x.toOption = some a) : x = .ok a := by
  cases x with
  | ok b => exact congrArg _ (Option.some.inj h)
  | error e => cases h

theorem mapError_eq_ok_iff {ε' : Type} {g : ε → ε'} {x : Except ε α} {a : α} :
    x.mapError g = .ok a ↔ x = .ok a := by
  cases x with
  | ok b => constructor <;> rintro ⟨⟩ <;> rfl
  | error e => constructor <;> rintro ⟨⟩

theorem run_bind_eq_ok_iff {x : EStateM ε σ α} {k : α → EStateM ε σ β} {s s' : σ} {b : β} :
    (x >>= k) s = .ok b s' ↔ ∃ a t, x s = .ok a t ∧ k a t = .ok b s' := by
  change EStateM.bind x k s = _ ↔ _
  unfold EStateM.bind
  cases x s with
  | ok a t =>
    refine ⟨fun h => ⟨a, t, rfl, h⟩, ?_⟩
    rintro ⟨_, _, ⟨⟩, h⟩
    exact h
  | error e t => simp

theorem run_pure_eq_ok_iff {a b : α} {s s' : σ} :
    (pure a : EStateM ε σ α) s = .ok b s' ↔ a = b ∧ s = s' := by
  change EStateM.Result.ok a s = .ok b s' ↔ _
  simp

theorem run_throw_ne_ok {e : ε} {s s' : σ} {a : α} :
    (throw e : EStateM ε σ α) s ≠ .ok a s' := by
  change EStateM.Result.error e s ≠ .ok a s'
  simp

theorem run_modify_eq_ok_iff {g : σ → σ} {s s' : σ} {u : PUnit} :
    (modify g : EStateM ε σ PUnit) s = .ok u s' ↔ s' = g s := by
  change EStateM.Result.ok PUnit.unit (g s) = .ok u s' ↔ _
  simp [eq_comm]

theorem run_get_bind {k : σ → EStateM ε σ β} {s : σ} : (get >>= k) s = k s s := rfl

theorem run_modify_bind {g : σ → σ} {k : PUnit → EStateM ε σ β} {s : σ} :
    (modify g >>= k) s = k ⟨⟩ (g s) := rfl

theorem run_modifyGet_bind {g : σ → α × σ} {k : α → EStateM ε σ β} {s : σ} :
    (modifyGet g >>= k) s = k (g s).1 (g s).2 := rfl

/-- What a run over a list keeps, and how it depends on what has been dealt with. -/
theorem foldlM_run_induction {step : β → α → EStateM ε σ β} (inv : List α → β → σ → Prop)
    {xs : List α} (one : ∀ front x back, xs = front ++ x :: back → ∀ b s b' s', inv front b s →
      step b x s = .ok b' s' → inv (front ++ [x]) b' s')
    {b b' : β} {s s' : σ} (start : inv [] b s) (run : xs.foldlM step b s = .ok b' s') :
    inv xs b' s' := by
  suffices ∀ front back b s, xs = front ++ back → inv front b s →
      back.foldlM step b s = .ok b' s' → inv xs b' s' from this [] xs b s rfl start run
  intro front back
  induction back generalizing front with
  | nil =>
    intro b s split h run
    rw [List.foldlM_nil, run_pure_eq_ok_iff] at run
    obtain ⟨rfl, rfl⟩ := run
    rwa [split, List.append_nil]
  | cons x back ih =>
    intro b s split h run
    rw [List.foldlM_cons, run_bind_eq_ok_iff] at run
    obtain ⟨c, t, first, rest⟩ := run
    exact ih (front ++ [x]) c t (by simp [split]) (one front x back split b s c t h first) rest

theorem forM_run_induction {step : α → EStateM ε σ PUnit} (inv : List α → σ → Prop) {xs : List α}
    (one : ∀ front x back, xs = front ++ x :: back → ∀ s s', inv front s →
      step x s = .ok ⟨⟩ s' → inv (front ++ [x]) s')
    {s s' : σ} (start : inv [] s) (run : xs.forM step s = .ok ⟨⟩ s') : inv xs s' := by
  have same : ∀ xs : List α, xs.forM step = xs.foldlM (fun _ x => step x) ⟨⟩ := by
    intro xs
    induction xs with
    | nil => rfl
    | cons x xs ih => exact congrArg (step x >>= ·) (funext fun _ => ih)
  rw [same] at run
  exact foldlM_run_induction (fun front _ s => inv front s)
    (fun front x back split _ s _ s' h run => one front x back split s s' h run) start run

theorem mapM_run_eq_ok {step : α → EStateM ε σ β} (image : α → β) (holds : α → Prop)
    (one : ∀ x s y s', step x s = .ok y s' → s' = s ∧ y = image x ∧ holds x) {xs : List α}
    {ys : List β} {s s' : σ} (run : xs.mapM step s = .ok ys s') :
    s' = s ∧ ys = xs.map image ∧ ∀ x ∈ xs, holds x := by
  induction xs generalizing ys s with
  | nil =>
    rw [List.mapM_nil, run_pure_eq_ok_iff] at run
    simp [run.1, run.2]
  | cons x xs ih =>
    rw [List.mapM_cons, run_bind_eq_ok_iff] at run
    obtain ⟨y, t, first, run⟩ := run
    obtain ⟨zs, u, rest, run⟩ := run_bind_eq_ok_iff.1 run
    obtain ⟨rfl, rfl⟩ := run_pure_eq_ok_iff.1 run
    obtain ⟨rfl, rfl, hx⟩ := one x s y t first
    obtain ⟨rfl, rfl, hxs⟩ := ih rest
    exact ⟨rfl, rfl, by simpa using ⟨hx, hxs⟩⟩

end CheckpointRestart
