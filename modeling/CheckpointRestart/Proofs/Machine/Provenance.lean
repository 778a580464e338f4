import CheckpointRestart.Proofs.Machine.Steps
import CheckpointRestart.Proofs.Pointer.Roots
import CheckpointRestart.Storage.InMemory

/-! # Pointers with different roots

A pointer with known roots points into an allocation that one of them made. Which root has made an
allocation is settled once and for all when it is made, so it does not matter how often a root is
executed and which of its results a pointer still holds. Pointers whose roots have nothing in common
then point into different allocations.
-/

namespace CheckpointRestart

/-- If the operation is a merge, it takes in pointers only. -/
def Function.mergesPointers (f : Function) : Op → Bool
  | .phi pairs => pairs.all fun x => (f.operandType x.1).isPointer
  | _ => true

/-- If the operation is a cast, it is to a pointer. -/
def Op.castsToPointer : Op → Bool
  | .cast _ t => t.isPointer
  | _ => true

/-- A null pointer, or one into an allocation that one of the roots has made. -/
def Points (owner : Nat → Option ValueId) (rs : ValueSet) (a : Value) : Prop :=
  ∃ p, a = .ptr p ∧ (p.allocation ≠ 0 → ∃ r ∈ rs, owner p.allocation.toNat = some r)

theorem Points.mono {owner owner' : Nat → Option ValueId} {rs rs' : ValueSet} {a : Value}
    (h : Points owner rs a) (sub : ∀ r ∈ rs, r ∈ rs')
    (kept : ∀ n r, owner n = some r → owner' n = some r) : Points owner' rs' a := by
  obtain ⟨p, rfl, made⟩ := h
  refine ⟨p, rfl, fun nonnull => ?_⟩
  obtain ⟨r, hr, own⟩ := made nonnull
  exact ⟨r, sub r hr, kept _ r own⟩

/-- Every pointer with known roots points into what one of them has made; `owner` says which root
has made an allocation. -/
structure Traced (f : Function) (owner : Nat → Option ValueId) (env : Env) (m : Memory) : Prop where
  points : ∀ (v : ValueId) rs, f.roots[v]? = some rs → ∀ a, env[v]? = some a → Points owner rs a
  bounded : ∀ n r, owner n = some r → n < m.allocations.size

namespace Traced

variable {f : Function} {owner : Nat → Option ValueId} {env : Env} {m m' : Memory} {b : BlockId}
  {i : Instruction} {x : Operand} {rs : ValueSet} {a : Value}

theorem blank : Traced f (fun _ => none) ∅ m :=
  ⟨by simp, nofun⟩

theorem operand_ptr (h : Traced f owner env m) (known : f.roots.ofOperand? x = some rs) {p : Pointer}
    (found : env.operand? x = some (.ptr p)) : Points owner rs (.ptr p) := by
  cases x with
  | value v => exact h.points v rs known _ found
  | const c =>
    -- only the null pointer is a constant
    cases c with
    | null t =>
      cases found
      exact ⟨.null, rfl, fun nonnull => absurd rfl nonnull⟩
    | _ => cases found

theorem operand (h : Traced f owner env m) (known : f.roots.ofOperand? x = some rs)
    (pointer : (f.operandType x).isPointer = true) (found : env.operand? x = some a) :
    Points owner rs a := by
  cases x with
  | value v => exact h.points v rs known a found
  | const c =>
    cases c with
    | null t =>
      cases found
      exact h.operand_ptr known rfl
    | _ => cases pointer

theorem grow (h : Traced f owner env m) (later : m.Extends m') : Traced f owner env m' :=
  ⟨h.points, fun n r own => (h.bounded n r own).trans_le later.size_le⟩

theorem define (h : Traced f owner env m) {r : Option ValueId} {result : Option Value}
    (given : ∀ v rs a, r = some v → f.roots[v]? = some rs → result = some a → Points owner rs a) :
    Traced f owner ((Flow.next result).define r env) m := by
  refine ⟨fun v rs known a found => ?_, h.bounded⟩
  by_cases hv : r = some v
  · subst hv
    cases result with
    | none => exact h.points v rs known a found
    | some b =>
      rw [Flow.define_self] at found
      exact given v rs a rfl known found
  · rw [Flow.define_of_ne hv] at found
    exact h.points v rs known a found

/-- A new allocation belongs to the value that gets the pointer to it. -/
theorem allocate (h : Traced f owner env m) {n : Nat} {r : Option ValueId}
    (few : (m.allocate n).2.allocations.size ≤ 2 ^ 32)
    (roots : ∀ v rs, r = some v → f.roots[v]? = some rs → v ∈ rs) :
    ∃ owner', Traced f owner' ((Flow.next (some (.ptr (m.allocate n).1))).define r env)
      (m.allocate n).2 := by
  have older : ∀ k w, owner k = some w → k ≠ m.allocations.size :=
    fun k w own => (h.bounded k w own).ne
  have size : (m.allocate n).2.allocations.size = m.allocations.size + 1 := by
    simp [Memory.allocate]
  cases r with
  | none => exact ⟨owner, h.grow (Memory.extends_allocate n)⟩
  | some v =>
    let owner' := Function.update owner m.allocations.size (some v)
    have kept : ∀ k w, owner k = some w → owner' k = some w := fun k w own =>
      (Function.update_of_ne (older k w own) _ _).trans own
    have before : Traced f owner' env (m.allocate n).2 := by
      refine ⟨fun w rs known a found => (h.points w rs known a found).mono (fun _ hr => hr) kept, ?_⟩
      intro k w own
      by_cases hk : k = m.allocations.size
      · omega
      · have := h.bounded k w ((Function.update_of_ne hk _ _).symm.trans own)
        omega
    refine ⟨owner', before.define ?_⟩
    rintro _ rs _ ⟨⟩ known ⟨⟩
    refine ⟨_, rfl, fun _ => ⟨v, roots v rs rfl known, ?_⟩⟩
    rw [Memory.allocation_allocate few]
    exact Function.update_self _ _ _

/-- What defines a pointer with known roots gives it these roots. -/
theorem roots_of_result {v : ValueId} (shaped : f.Shaped) (hb : b ∈ f.layout) (hi : i ∈ f.body b)
    (hr : i.result = some v) (known : f.roots[v]? = some rs) :
    (b, v, i.op) ∈ f.pointerDefinitions ∧ f.rootsOf? f.roots v i.op = some rs := by
  have def_ : f.Defines b v i.op := ⟨hb, by rw [← hr]; exact hi⟩
  have mem := Seeds.mem_pointerDefinitions_iff.2 ⟨def_, (Function.isPointer_of_roots known).1⟩
  exact ⟨mem, (shaped.pointersOnce.roots_spec.1 _ mem).symm.trans known⟩

section Next

variable {σ : Type} [Storage σ] {s t : State σ} {haltAfter : Option Nat} {result : Option Value}
  (h : Traced f owner s.env s.memory) (shaped : f.Shaped) (hb : b ∈ f.layout) (hi : i ∈ f.body b)
  (casts : ∀ d ∈ f.pointerDefinitions, d.2.2.castsToPointer = true)
  (run : execOp f haltAfter i s = .ok (.next result) t)

include h shaped hb hi casts run

theorem points_result {v : ValueId} (hr : i.result = some v) (known : f.roots[v]? = some rs)
    (noVariable : ∀ t n, i.op ≠ .alloca t n) (noHeap : ∀ x, i.op ≠ .malloc x) (given : result = some a) :
    Points owner rs a := by
  obtain ⟨mem, roots⟩ := roots_of_result shaped hb hi hr known
  have target := casts _ mem
  cases hop : i.op with
  | alloca t n => exact absurd hop (noVariable t n)
  | malloc x => exact absurd hop (noHeap x)
  | phi pairs =>
    simp only [execOp, hop] at run
    exact absurd run run_throw_ne_ok
  | gep x y =>
    rw [hop] at roots
    obtain ⟨p, n, found, e, -⟩ := Exec.execOp_gep hop run
    cases e
    cases given
    obtain ⟨q, same, made⟩ := h.operand_ptr roots found
    cases same
    exact ⟨p.add n, rfl, made⟩
  | cast x t =>
    rw [hop] at roots target
    obtain ⟨c, d, found, converted, e, -⟩ := Exec.execOp_cast hop run
    cases e
    cases given
    simp only [Function.rootsOf?] at roots
    split at roots
    · next pointer =>
      obtain ⟨p, rfl, made⟩ := h.operand roots pointer found
      cases t with
      | ptr u =>
        cases converted
        exact ⟨p, rfl, made⟩
      | _ => cases target
    · cases roots
  | _ =>
    rw [hop] at roots
    cases roots

theorem next (few : t.memory.allocations.size ≤ 2 ^ 32) :
    ∃ owner', Traced f owner' ((Flow.next result).define i.result s.env) t.memory := by
  -- a value that an allocation defines is its own root
  have root : ∀ v rs, i.result = some v → f.roots[v]? = some rs →
      f.rootsOf? f.roots v i.op = some {v} → v ∈ rs := by
    intro v rs hr known own
    have roots := (roots_of_result shaped hb hi hr known).2
    rw [own] at roots
    cases roots
    exact TreeSet.mem_singleton_iff.2 rfl
  cases hop : i.op with
  | alloca element n =>
    obtain ⟨e, memory⟩ := Exec.execOp_alloca hop run
    cases e
    rw [memory] at few ⊢
    exact h.allocate few fun v rs hr known => root v rs hr known (by rw [hop]; rfl)
  | malloc x =>
    obtain ⟨n, -, -, e, memory⟩ := Exec.execOp_malloc hop run
    cases e
    rw [memory] at few ⊢
    exact h.allocate few fun v rs hr known => root v rs hr known (by rw [hop]; rfl)
  | _ =>
    refine ⟨owner, (h.grow (Exec.extends_execOp haltAfter s _ t run)).define ?_⟩
    intro v rs a hr known given
    exact h.points_result shaped hb hi casts run hr known (by simp [hop]) (by simp [hop]) given

end Next

theorem merge (h : Traced f owner env m) (shaped : f.Shaped)
    (merges : ∀ d ∈ f.pointerDefinitions, f.mergesPointers d.2.2 = true) {source : BlockId}
    (hb : b ∈ f.layout) (ready : ∀ i ∈ (f.block b).phis, ∃ a, env.incoming? source i = some a) :
    Traced f owner (env.merge source (f.block b).phis) m := by
  refine ⟨fun v rs known a found => ?_, h.bounded⟩
  by_cases hv : v ∈ results (f.block b).phis
  · obtain ⟨i, hi, hr⟩ := mem_results_iff.1 hv
    have nodup : (results (f.block b).phis).Nodup :=
      ((List.takeWhile_sublist _).filterMap _).nodup ((List.nodup_flatMap.mp shaped.once).1 b hb)
    have mem : i ∈ f.body b := (List.takeWhile_sublist _).subset hi
    obtain ⟨def_, roots⟩ := roots_of_result shaped hb mem hr known
    have pointers := merges _ def_
    rw [Env.merge_of_mem ready nodup hi hr] at found
    obtain ⟨x, arriving, found⟩ := Option.bind_eq_some_iff.mp found
    cases hop : i.op with
    | phi pairs =>
      rw [hop] at roots pointers
      simp only [Instruction.incoming?, hop] at arriving
      obtain ⟨pair, first, rfl⟩ := Option.map_eq_some_iff.mp arriving
      have listed := List.mem_of_find?_eq_some first
      obtain ⟨each, mem⟩ := RootMap.union?_eq_some_iff.1 roots
      have flows : pair.1 ∈ pairs.map (·.1) := List.mem_map_of_mem listed
      obtain ⟨u, hu⟩ := Option.isSome_iff_exists.mp (each _ flows)
      exact (h.operand hu (List.all_eq_true.mp pointers pair listed) found).mono
        (fun r hr => (mem r).mpr ⟨_, flows, u, hu, hr⟩) fun _ _ own => own
    | _ =>
      simp only [Instruction.incoming?, hop] at arriving
      cases arriving
  · rw [Env.merge_of_not_mem ready hv] at found
    exact h.points v rs known a found

end Traced

/-! ## Runs -/

section Runs

variable {f : Function} {σ : Type} {args : List String} {s : State σ}

theorem mainArguments_eq_ok {m m' : Memory} {values : List Value}
    (h : mainArguments f args m = .ok (values, m')) :
    (values = [] ∧ m' = m) ∨ ∃ count vector n size, f.params = [count, vector] ∧
      (f.valueType count).isInt = true ∧ values = [n, .ptr (m.allocate size).1] ∧
        (m.allocate size).2.Extends m' := by
  unfold mainArguments at h
  split at h
  · next takes =>
    obtain ⟨⟨p, stored⟩, store, h⟩ := bind_eq_ok_iff.1 h
    cases h
    obtain ⟨rfl, later⟩ := Memory.storeArguments_eq_ok store
    unfold Function.takesArguments at takes
    split at takes
    · next count vector params =>
      rw [Bool.and_eq_true] at takes
      exact .inr ⟨count, vector, _, _, params, takes.1, rfl, later⟩
    · cases takes
  · cases h
    exact .inl ⟨rfl, rfl⟩

theorem traced_beginMain (shaped : f.Shaped) (blank : s.env = ∅)
    (few : (beginMain f args s).state.memory.allocations.size ≤ 2 ^ 32) :
    ∃ owner, Traced f owner (beginMain f args s).state.env (beginMain f args s).state.memory := by
  unfold beginMain at few ⊢
  cases h : mainArguments f args s.memory with
  | error fault => exact ⟨_, blank ▸ Traced.blank⟩
  | ok given =>
    obtain ⟨values, m⟩ := given
    rw [h] at few
    dsimp only at few ⊢
    rcases state_beginRun f values { s with memory := m } with ⟨e, ended⟩ | bound
    · rw [ended]
      exact ⟨_, blank ▸ Traced.blank⟩
    · rw [bound] at few ⊢
      rcases mainArguments_eq_ok h with ⟨rfl, rfl⟩ | ⟨count, vector, n, size, params, int, rfl, later⟩
      · rw [List.zip_nil_right]
        exact ⟨_, Traced.blank⟩
      · rw [params]
        have counted : Traced f (fun _ => none) ((Flow.next (some n)).define (some count) ∅) s.memory := by
          refine Traced.blank.define ?_
          rintro _ rs _ ⟨⟩ known -
          have pointer := (Function.isPointer_of_roots known).1
          cases hc : f.valueType count <;> simp_all [Ty.isInt, Ty.isPointer]
        obtain ⟨owner, traced⟩ := counted.allocate (r := vector) (later.size_le.trans few) fun v rs hv known => by
          cases hv
          rw [shaped.pointersOnce.roots_spec.2 vector (by simp [params]) (Function.isPointer_of_roots known).1] at known
          cases known
          exact TreeSet.mem_singleton_iff.2 rfl
        exact ⟨owner, traced.grow later⟩

variable [Storage σ] {config : RunConfig} {n : Nat}

/-- All along a run, pointers with known roots point into what the roots have made. -/
theorem traced_run (shaped : f.Shaped) (blank : s.env = ∅)
    (merges : ∀ d ∈ f.pointerDefinitions, f.mergesPointers d.2.2 = true)
    (casts : ∀ d ∈ f.pointerDefinitions, d.2.2.castsToPointer = true)
    (few : ∀ k ≤ n, ((Progress.advance f config)^[k] (beginMain f args s)).state.memory.allocations.size ≤ 2 ^ 32)
    {c : Control} {t : State σ} (run : (Progress.advance f config)^[n] (beginMain f args s) = .running c t) :
    (∃ done, f.Place c.block done c.todo) ∧ ∃ owner, Traced f owner t.env t.memory := by
  induction n generalizing c t with
  | zero =>
    have run : beginMain f args s = .running c t := run
    obtain ⟨owner, traced⟩ := traced_beginMain shaped blank (few 0 (Nat.le_refl 0))
    rw [run] at traced
    refine ⟨?_, owner, traced⟩
    unfold beginMain at run
    cases h : mainArguments f args s.memory with
    | error fault =>
      rw [h] at run
      cases run
    | ok given =>
      rw [h] at run
      exact place_beginRun shaped run
  | succ n ih =>
    have few_last := few (n + 1) (Nat.le_refl _)
    rw [run] at few_last
    obtain ⟨c₀, u, before, step⟩ := exists_advanced run
    obtain ⟨⟨done, place⟩, owner, traced⟩ := ih (fun k hk => few k (Nat.le_succ_of_le hk)) before
    refine ⟨place_advanced shaped place step, ?_⟩
    cases step with
    | @next i rest result t todo exec =>
      rw [todo] at place
      obtain ⟨owner', after⟩ := traced.next shaped place.mem_layout place.mem_body casts exec few_last
      exact ⟨owner', after⟩
    | @jump i rest d t todo exec ready =>
      have inside : d ∈ f.layout := by
        obtain ⟨done, place⟩ := place_advanced shaped place (.jump todo exec ready)
        exact place.mem_layout
      exact ⟨owner, (traced.merge shaped merges inside ready).grow
        (Exec.extends_execOp config.haltAfter u _ t exec)⟩

theorem points_run (shaped : f.Shaped) (blank : s.env = ∅)
    (merges : ∀ d ∈ f.pointerDefinitions, f.mergesPointers d.2.2 = true)
    (casts : ∀ d ∈ f.pointerDefinitions, d.2.2.castsToPointer = true)
    (few : ∀ k ≤ n,
      ((Progress.advance f config)^[k] (beginMain f args s)).state.memory.allocations.size ≤ 2 ^ 32) :
    ∃ owner, ∀ (v : ValueId) rs, f.roots[v]? = some rs → ∀ a,
      ((Progress.advance f config)^[n] (beginMain f args s)).state.env[v]? = some a → Points owner rs a := by
  induction n with
  | zero =>
    obtain ⟨owner, traced⟩ := traced_beginMain shaped blank (few 0 (Nat.le_refl 0))
    exact ⟨owner, traced.points⟩
  | succ n ih =>
    cases after : (Progress.advance f config)^[n + 1] (beginMain f args s) with
    | running c t =>
      obtain ⟨-, owner, traced⟩ := traced_run shaped blank merges casts few after
      exact ⟨owner, traced.points⟩
    | done r t =>
      -- the last step has defined nothing
      have same : t.env = ((Progress.advance f config)^[n] (beginMain f args s)).state.env := by
        rw [Function.iterate_succ_apply'] at after
        cases before : (Progress.advance f config)^[n] (beginMain f args s) with
        | running c u =>
          rw [before] at after
          exact env_of_done after
        | done r u =>
          rw [before] at after
          cases after
          rfl
      change ∃ owner, ∀ (v : ValueId) rs, f.roots[v]? = some rs → ∀ a, t.env[v]? = some a → Points owner rs a
      rw [same]
      exact ih fun k hk => few k (Nat.le_succ_of_le hk)

/-- Pointers with known and disjoint roots point into different allocations, at any point of a run
that does not use up the numbers of allocations. -/
theorem allocation_ne_of_ofRoots (valid : f.validate = .ok ())
    (merges : ∀ d ∈ f.pointerDefinitions, f.mergesPointers d.2.2 = true)
    (casts : ∀ d ∈ f.pointerDefinitions, d.2.2.castsToPointer = true) (blank : s.env = ∅)
    (few : ∀ k ≤ n,
      ((Progress.advance f config)^[k] (beginMain f args s)).state.memory.allocations.size ≤ 2 ^ 32)
    {v w : ValueId} (apart : AliasOracle.ofRoots f.roots v w = false) {p q : Pointer}
    (hp : ((Progress.advance f config)^[n] (beginMain f args s)).state.env[v]? = some (.ptr p))
    (hq : ((Progress.advance f config)^[n] (beginMain f args s)).state.env[w]? = some (.ptr q))
    (nonnull : p.isNull = false ∧ q.isNull = false) : p.allocation ≠ q.allocation := by
  have shaped : f.Shaped := (Function.validate_eq_ok_iff.1 valid).toShaped
  obtain ⟨owner, points⟩ := points_run shaped blank merges casts few
  obtain ⟨-, rs, rs', hv, hw, disjoint⟩ := AliasOracle.ofRoots_eq_false_iff.1 apart
  obtain ⟨_, ⟨⟩, made⟩ := points v rs hv _ hp
  obtain ⟨_, ⟨⟩, made'⟩ := points w rs' hw _ hq
  obtain ⟨r, hr, own⟩ := made (by simpa [Pointer.isNull] using nonnull.1)
  obtain ⟨r', hr', own'⟩ := made' (by simpa [Pointer.isNull] using nonnull.2)
  intro same
  -- an allocation has one owner, which would be a common root
  rw [same, own'] at own
  cases own
  exact disjoint _ hr hr'

end Runs

/-- Walks through a variable, next to a buffer on the heap. -/
def walking : Function where
  name := "walking"
  params := []
  returns := .void
  values := #[⟨"cells", .bytePtr⟩, ⟨"other", .bytePtr⟩, ⟨"at", .bytePtr⟩, ⟨"next", .bytePtr⟩,
    ⟨"done", .int 1⟩]
  blocks := #[
    ⟨"entry", [
      .define ⟨0⟩ (.alloca (.int 8) 4),
      .define ⟨1⟩ (.malloc (.const (.int 64 4))),
      .effect (.br ⟨1⟩)]⟩,
    ⟨"loop", [
      .define ⟨2⟩ (.phi [(.value ⟨0⟩, ⟨0⟩), (.value ⟨3⟩, ⟨1⟩)]),
      .define ⟨3⟩ (.gep (.value ⟨2⟩) (.const (.int 64 1))),
      .define ⟨4⟩ (.compare .eq (.value ⟨3⟩) (.value ⟨1⟩)),
      .effect (.condBr (.value ⟨4⟩) ⟨2⟩ ⟨1⟩)]⟩,
    ⟨"exit", [.effect (.ret none)]⟩]
  layout := [⟨0⟩, ⟨1⟩, ⟨2⟩]

/-- The first state of a program without a checkpoint to restart from. -/
def blankState : State InMemory :=
  .initial (.new .default ∅ (.still 5))

def walked (n : Nat) : Progress InMemory :=
  (Progress.advance walking {})^[n] (beginMain walking [] blankState)

theorem allocation_ne_of_walking :
    ∃ p q, (walked 7).state.env[(⟨3⟩ : ValueId)]? = some (.ptr p) ∧
      (walked 7).state.env[(⟨1⟩ : ValueId)]? = some (.ptr q) ∧ p.offset = 2 ∧
        p.allocation ≠ q.allocation := by
  have next : (walked 7).state.env[(⟨3⟩ : ValueId)]? = some (.ptr ⟨1, 2⟩) := by decide +kernel
  have other : (walked 7).state.env[(⟨1⟩ : ValueId)]? = some (.ptr ⟨2, 0⟩) := by decide +kernel
  refine ⟨_, _, next, other, rfl, ?_⟩
  exact allocation_ne_of_ofRoots (eq_ok_of_toOption (by cbv)) (by decide) (by decide) rfl
    (by decide +kernel) (by decide +kernel) next other ⟨rfl, rfl⟩

/-- Declares the integers that it makes of two pointers to be pointers. -/
def forging : Function where
  name := "forging"
  params := []
  returns := .void
  values := #[⟨"p", .bytePtr⟩, ⟨"q", .bytePtr⟩, ⟨"before_p", .bytePtr⟩, ⟨"before_q", .bytePtr⟩,
    ⟨"x", .bytePtr⟩, ⟨"y", .bytePtr⟩, ⟨"a", .bytePtr⟩, ⟨"b", .bytePtr⟩]
  blocks := #[⟨"entry", [
    .define ⟨0⟩ (.alloca (.int 8) 1),
    .define ⟨1⟩ (.alloca (.int 8) 1),
    .define ⟨2⟩ (.gep (.value ⟨0⟩) (.const (.int 64 (-1)))),
    .define ⟨3⟩ (.gep (.value ⟨1⟩) (.const (.int 64 (-1)))),
    .define ⟨4⟩ (.cast (.value ⟨2⟩) (.int 32)),
    .define ⟨5⟩ (.cast (.value ⟨3⟩) (.int 32)),
    .define ⟨6⟩ (.cast (.value ⟨4⟩) .bytePtr),
    .define ⟨7⟩ (.cast (.value ⟨5⟩) .bytePtr),
    .effect (.ret none)]⟩]
  layout := [⟨0⟩]

/-- Of two pointers, the integers keep only the offsets. -/
theorem allocation_eq_of_forging :
    forging.validate = .ok () ∧ forging.checkScoping = .ok () ∧
      (∀ d ∈ forging.pointerDefinitions, forging.mergesPointers d.2.2 = true) ∧
      (∀ k ≤ 8, ((Progress.advance forging {})^[k]
        (beginMain forging [] blankState)).state.memory.allocations.size ≤ 2 ^ 32) ∧
      AliasOracle.ofRoots forging.roots ⟨6⟩ ⟨7⟩ = false ∧
      ∃ p : Pointer, p.isNull = false ∧
        ((Progress.advance forging {})^[8] (beginMain forging [] blankState)).state.env[(⟨6⟩ : ValueId)]? =
          some (.ptr p) ∧
        ((Progress.advance forging {})^[8] (beginMain forging [] blankState)).state.env[(⟨7⟩ : ValueId)]? =
          some (.ptr p) :=
  ⟨eq_ok_of_toOption (by cbv), eq_ok_of_toOption (by cbv), by decide, by decide +kernel, by decide +kernel,
    ⟨0xFFFFFFFF, -1⟩, rfl, by decide +kernel, by decide +kernel⟩

end CheckpointRestart
