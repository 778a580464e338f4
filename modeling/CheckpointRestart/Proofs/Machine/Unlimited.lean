import CheckpointRestart.Proofs.Machine.Steps

/-! # Runs without a limit

A run that may take any number of steps comes to an end if it does so with every limit from some
number on. Where each step of one run is matched by one or more steps of another, both come to the
same end, or neither of them comes to an end: in the second run there are at least as many steps as
in the first.
-/

namespace CheckpointRestart

variable {σ : Type}

/-- What a run comes to if the number of its steps is not limited. -/
def ComesTo (run : (limit : Nat) → Except ExecError Outcome × State σ) (r : Except ExecError Outcome)
    (t : State σ) : Prop :=
  ∃ n, ∀ limit ≥ n, run limit = (r, t)

/-- Two functions that run alike on the same arguments, from the same state: they come to the same
result, and leave the same memory, the same output and the same session behind. -/
structure Function.RunsAlike (f g : Function) : Prop where
  function : ∀ {σ : Type} [Storage σ] (config : RunConfig) (args : List Value) (s : State σ)
    (r : Except ExecError Outcome) (t : State σ),
    (∃ env, ComesTo (fun n => runFunction f { config with stepLimit := n } args s) r { t with env }) ↔
      ∃ env, ComesTo (fun n => runFunction g { config with stepLimit := n } args s) r { t with env }
  main : ∀ {σ : Type} [Storage σ] (config : RunConfig) (args : List String) (s : State σ)
    (r : Except ExecError Outcome) (t : State σ),
    (∃ env, ComesTo (fun n => runMain f { config with stepLimit := n } args s) r { t with env }) ↔
      ∃ env, ComesTo (fun n => runMain g { config with stepLimit := n } args s) r { t with env }

namespace Function.RunsAlike

variable {f g h : Function}

theorem refl (f : Function) : f.RunsAlike f :=
  ⟨fun _ _ _ _ _ => .rfl, fun _ _ _ _ _ => .rfl⟩

theorem trans (first : f.RunsAlike g) (second : g.RunsAlike h) : f.RunsAlike h :=
  ⟨fun config args s r t => (first.function config args s r t).trans (second.function config args s r t),
    fun config args s r t => (first.main config args s r t).trans (second.main config args s r t)⟩

end Function.RunsAlike

variable [Storage σ] {f g : Function} {config : RunConfig} {c c' : Control} {s s' t : State σ}
  {r : Except ExecError Outcome}

/-! ## Steps that are left -/

namespace Progress

/-- The run ends after some number of steps. -/
def Ends (f : Function) (config : RunConfig) (p : Progress σ) (r : Except ExecError Outcome)
    (t : State σ) : Prop :=
  ∃ n, (advance f config)^[n] p = .done r t

theorem iterate_done (n : Nat) : (advance f config)^[n] (.done r t) = .done r t :=
  Function.iterate_fixed rfl n

theorem Ends.of_iterate {p : Progress σ} {n : Nat} (h : ((advance f config)^[n] p).Ends f config r t) :
    p.Ends f config r t := by
  obtain ⟨m, h⟩ := h
  exact ⟨m + n, by rwa [Function.iterate_add_apply]⟩

/-- What a run with a limit answers when the limit is reached. -/
def answer (f : Function) (limit : Nat) : Progress σ → Except ExecError Outcome × State σ
  | .done r t => (r, t)
  | .running c t =>
    if c.todo.isEmpty then (.error (.type (f.blockName c.block) .noTerminator), t)
    else (.error (.stepLimit limit), t)

end Progress

open Progress

theorem continueSteps_eq (limit n : Nat) :
    continueSteps f { config with stepLimit := limit } n c s =
      ((advance f config)^[n] (.running c s)).answer f limit := by
  induction n generalizing c s with
  | zero => rfl
  | succ n ih =>
    have same : advanceRun f { config with stepLimit := limit } c s = advanceRun f config c s := rfl
    have next : advance f config (.running c s) = advanceRun f config c s := rfl
    rw [continueSteps, Function.iterate_succ_apply, same, next]
    cases advanceRun f config c s with
    | running c s => exact ih
    | done r t =>
      rw [iterate_done]
      rfl

theorem comesTo_iff (p : Progress σ) :
    ComesTo (fun n => match p with
      | .running c s => continueSteps f { config with stepLimit := n } n c s
      | .done r s => (r, s)) r t ↔ p.Ends f config r t := by
  cases p with
  | done r' t' =>
    constructor
    · rintro ⟨n, same⟩
      cases same n (Nat.le_refl n)
      exact ⟨0, rfl⟩
    · rintro ⟨n, same⟩
      rw [iterate_done] at same
      cases same
      exact ⟨0, fun _ _ => rfl⟩
  | running c s =>
    simp only [ComesTo, continueSteps_eq]
    constructor
    · rintro ⟨n, same⟩
      have now := same n (Nat.le_refl n)
      have next := same (n + 1) (Nat.le_succ n)
      cases at_n : (advance f config)^[n] (.running c s) with
      | done r' t' =>
        rw [at_n] at now
        cases now
        exact ⟨n, at_n⟩
      | running c' s' =>
        -- a limit that is reached is part of the answer, and the answers are the same
        rw [Function.iterate_succ_apply', at_n] at next
        rw [at_n] at now
        refine .of_iterate (n := n + 1) ?_
        rw [Function.iterate_succ_apply', at_n]
        cases at_next : advance f config (.running c' s') with
        | done r' t' =>
          rw [at_next] at next
          cases next
          exact ⟨0, rfl⟩
        | running c'' s'' =>
          rw [at_next] at next
          have more : c'.todo ≠ [] := by
            intro none
            simp [advance, advanceRun, none] at at_next
          dsimp only [answer] at now next
          rw [if_neg (by simpa using more)] at now
          split at next
          · next none =>
            refine ⟨1, ?_⟩
            rw [Function.iterate_one, ← Prod.mk.inj next |>.1, ← Prod.mk.inj next |>.2]
            simp [advance, advanceRun, List.isEmpty_iff.mp none]
          · have limits := (Prod.mk.inj now).1.trans (Prod.mk.inj next).1.symm
            simp at limits
    · rintro ⟨n, ends⟩
      refine ⟨n, fun limit le => ?_⟩
      obtain ⟨k, rfl⟩ := Nat.exists_eq_add_of_le' le
      rw [Function.iterate_add_apply, ends, iterate_done]
      rfl

/-! ## Matching steps -/

/-- Two runs go on in related states, or have come to the same end. -/
inductive Matched (related : Control → State σ → Control → State σ → Prop) :
    Progress σ → Progress σ → Prop
  | running {c c' : Control} {s s' : State σ} :
    related c s c' s' → Matched related (.running c s) (.running c' s')
  | done {r : Except ExecError Outcome} {t : State σ} {env : Env} :
    Matched related (.done r t) (.done r { t with env })

namespace Matched

variable {related : Control → State σ → Control → State σ → Prop} {p q : Progress σ}
  (step : ∀ c s c' s', related c s c' s' → ∃ k, Matched related (advanceRun f config c s)
    ((advance g config)^[k + 1] (.running c' s')))

include step

theorem ends_of_ends (h : Matched related p q) (ends : p.Ends f config r t) :
    ∃ env, q.Ends g config r { t with env } := by
  obtain ⟨n, ends⟩ := ends
  induction n generalizing p q with
  | zero =>
    obtain rfl : p = .done r t := ends
    cases h with
    | done => exact ⟨_, 0, rfl⟩
  | succ n ih =>
    cases h with
    | done =>
      rw [iterate_done] at ends
      cases ends
      exact ⟨_, 0, rfl⟩
    | running h =>
      obtain ⟨k, later⟩ := step _ _ _ _ h
      obtain ⟨env, ends⟩ := ih later ends
      exact ⟨env, ends.of_iterate⟩

/-- Steps are matched by one or more steps, so the first run is not longer than the second. -/
theorem ends_of_ends' (h : Matched related p q) (ends : q.Ends g config r t) :
    ∃ env, p.Ends f config r { t with env } := by
  obtain ⟨n, ends⟩ := ends
  induction n using Nat.strongRecOn generalizing p q with
  | ind n ih =>
    cases h with
    | done =>
      rw [iterate_done] at ends
      cases ends
      exact ⟨_, 0, rfl⟩
    | @running c c' s s' h =>
      obtain ⟨k, later⟩ := step _ _ _ _ h
      by_cases less : n ≤ k
      · -- the second run has ended on the way
        obtain ⟨m, rfl⟩ := Nat.exists_eq_add_of_le' less
        rw [Nat.add_right_comm, Function.iterate_add_apply, ends, iterate_done] at later
        cases n with
        | zero => cases ends
        | succ n =>
          obtain ⟨env, m, ends⟩ := ih 0 (Nat.succ_pos n) later rfl
          exact ⟨env, m + 1, ends⟩
      · obtain ⟨m, rfl⟩ := Nat.exists_eq_add_of_le' (Nat.lt_of_not_le less)
        rw [Function.iterate_add_apply] at ends
        obtain ⟨env, m, ends⟩ := ih m (by omega) later ends
        exact ⟨env, m + 1, ends⟩

/-- Runs whose steps match come to the same end. -/
theorem ends_iff (h : Matched related p q) :
    (∃ env, p.Ends f config r { t with env }) ↔ ∃ env, q.Ends g config r { t with env } := by
  constructor
  · rintro ⟨env, ends⟩
    exact h.ends_of_ends (t := { t with env }) step ends
  · rintro ⟨env, ends⟩
    exact h.ends_of_ends' (t := { t with env }) step ends

end Matched

omit [Storage σ] in
theorem mainArguments_congr (name : g.name = f.name) (params : g.params = f.params)
    (types : ∀ v ∈ f.params, g.valueType v = f.valueType v) (args : List String) (m : Memory) :
    mainArguments g args m = mainArguments f args m := by
  have takes : g.takesArguments = f.takesArguments := by
    unfold Function.takesArguments
    rw [params]
    split
    · next count vector same =>
      rw [types count (by simp [same]), types vector (by simp [same])]
    · rfl
  have first : f.params.head?.map g.valueType = f.params.head?.map f.valueType := by
    cases same : f.params with
    | nil => rfl
    | cons v vs => exact congrArg some (types v (by simp [same]))
  unfold mainArguments
  rw [takes, name, params, first]

theorem Function.RunsAlike.of_ends (name : g.name = f.name) (params : g.params = f.params)
    (types : ∀ v ∈ f.params, g.valueType v = f.valueType v)
    (ends : ∀ {σ : Type} [Storage σ] (config : RunConfig) (args : List Value) (s : State σ)
      (r : Except ExecError Outcome) (t : State σ),
      (∃ env, (beginRun f args s).Ends f config r { t with env }) ↔
        ∃ env, (beginRun g args s).Ends g config r { t with env }) : f.RunsAlike g where
  function config args s r t := by
    refine Iff.trans ?_ ((ends config args s r t).trans ?_)
    · exact exists_congr fun env => comesTo_iff _
    · exact exists_congr fun env => (comesTo_iff _).symm
  main config args s r t := by
    have same : (∃ env, (beginMain f args s).Ends f config r { t with env }) ↔
        ∃ env, (beginMain g args s).Ends g config r { t with env } := by
      unfold beginMain
      rw [mainArguments_congr name params types]
      cases mainArguments f args s.memory with
      | error fault => simp only [Progress.Ends, iterate_done]
      | ok given => exact ends config given.1 { s with memory := given.2 } r t
    refine Iff.trans ?_ (same.trans ?_)
    · exact exists_congr fun env => comesTo_iff _
    · exact exists_congr fun env => (comesTo_iff _).symm

end CheckpointRestart
