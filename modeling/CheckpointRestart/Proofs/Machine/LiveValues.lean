import CheckpointRestart.Proofs.Flow.Liveness
import CheckpointRestart.Proofs.Flow.Uses
import CheckpointRestart.Proofs.Machine.Steps
import CheckpointRestart.Storage.InMemory

/-! # What is not live makes no difference

Two runs that come to a block by the same edge, in states that differ in nothing but the values that
are not live there, take the same way from there on and leave the same behind. Liveness counts the
result of every operation as defined, also where the operation produces none. This does no harm in
runs, as such a result has no value in any of them.
-/

namespace CheckpointRestart

theorem Op.producesValue_of_isTerminator {op : Op} (h : op.isTerminator = true) :
    op.producesValue = false := by
  cases op <;> simp_all [Op.isTerminator, Op.producesValue]

namespace Function

variable {f : Function} {b d : BlockId} {v : ValueId} {i : Instruction} {env env' : Env}
  {merges : BlockSet}

/-- A result of an operation that produces none. -/
def Barren (f : Function) (v : ValueId) : Prop :=
  ∃ b ∈ f.layout, ∃ i ∈ f.body b, i.result = some v ∧ i.op.producesValue = false

/-- The use `u` is live into `b`. -/
def LiveInto (f : Function) (b : BlockId) (u : Use) : Prop :=
  (f.summarize ∅ .none).Live b u

/-- The value is live out of `b`, by some edge. -/
def LiveOutOf (f : Function) (b : BlockId) (v : ValueId) : Prop :=
  ∃ d ∈ f.successors b, ∃ u, f.LiveInto d u ∧ u.passes b = true ∧ u.value = v

theorem node_uses_eq (hb : b ∈ f.layout) :
    ((f.summarize merges .none).node b).uses = ((f.summarize ∅ .none).node b).uses ∧
      ((f.summarize merges .none).node b).defs = ((f.summarize ∅ .none).node b).defs ∧
      ((f.summarize merges .none).node b).successors = f.successors b := by
  rw [node_summarize hb, node_summarize hb]
  exact ⟨rfl, rfl, rfl⟩

/-- The live sets computed hold the uses that are live, whichever blocks count as merges. -/
theorem Shaped.mem_liveIn_iff (shaped : f.Shaped) (hb : b ∈ f.layout) {u : Use} :
    u ∈ (Liveness.compute (f.summarize merges .none)).liveIn b ↔ f.LiveInto b u := by
  have same : ∀ {merges merges' : BlockSet} {b : BlockId} {u : Use}, b ∈ f.layout →
      (f.summarize merges .none).Live b u → (f.summarize merges' .none).Live b u := by
    intro merges merges' b u hb live
    induction live with
    | here use =>
      refine .here ?_
      rw [(node_uses_eq hb).1] at use ⊢
      exact use
    | later edge _ passes free ih =>
      rw [(node_uses_eq hb).2.2] at edge
      refine .later (by rw [(node_uses_eq hb).2.2]; exact edge) (ih (shaped.successor_mem hb edge))
        passes ?_
      rw [(node_uses_eq hb).2.1] at free ⊢
      exact free
  rw [Liveness.mem_liveIn_compute_iff (f.coherent_summarize merges .none)]
  exact ⟨same hb, same hb⟩

theorem liveInto_of_incoming (hb : b ∈ f.layout) (hi : i ∈ f.body b)
    {pairs : List (Operand × BlockId)} (hop : i.op = .phi pairs) (hv : (.value v, d) ∈ pairs)
    (other : i.result ≠ some v) : f.LiveInto b ⟨v, some d⟩ := by
  refine .here ?_
  rw [node_summarize hb, mem_uses_node_iff]
  obtain ⟨n, hn⟩ := List.getElem?_of_mem hi
  exact ⟨n, i, hn, .inr ⟨pairs, v, d, hop, hv, other, rfl, .inl rfl⟩, fun none => by cases none⟩

theorem liveInto_of_exposed (hb : b ∈ f.layout) (exposed : Exposed v (f.body b)) :
    f.LiveInto b (.ordinary v) := by
  obtain ⟨n, i, hi, plain, use, fresh⟩ := exposed_iff_getElem?.1 exposed
  refine .here ?_
  rw [node_summarize hb, mem_uses_node_iff]
  exact ⟨n, i, hi, .inl ⟨plain, rfl, v, use, .inl rfl⟩, fun _ => fresh⟩

theorem liveInto_of_liveOutOf (hb : b ∈ f.layout) (ne : b ≠ f.entry)
    (fresh : v ∉ results (f.body b)) (live : f.LiveOutOf b v) : f.LiveInto b (.ordinary v) := by
  obtain ⟨d, edge, u, live, passes, rfl⟩ := live
  refine .later (by rwa [(node_uses_eq hb).2.2]) live passes ?_
  rw [node_summarize hb, mem_defs_node_iff]
  rintro (defined | ⟨entry, -⟩)
  · exact fresh defined
  · exact ne entry

/-- The value is used by the instructions still to come in `b`, or behind its end, before it is
defined anew. -/
def LiveFrom (f : Function) (b : BlockId) (todo : List Instruction) (v : ValueId) : Prop :=
  Exposed v todo ∨ (v ∉ results todo ∧ f.LiveOutOf b v)

/-- Control comes to `b` from `d`, and the environments agree on what is live then. -/
def AgreeInto (f : Function) (d b : BlockId) (env env' : Env) : Prop :=
  ∀ v, f.LiveInto b (.ordinary v) ∨ f.LiveInto b ⟨v, some d⟩ ∨ f.Barren v → env'[v]? = env[v]?

/-- Control is in `b` and comes to `todo`, and the environments agree on what is live there. -/
structure AgreeAt (f : Function) (b : BlockId) (todo : List Instruction) (env env' : Env) : Prop where
  mem : b ∈ f.layout
  body : ∃ done, f.body b = done ++ todo
  plain : ∀ i ∈ todo, i.op.isPhi = false
  same : ∀ v, f.LiveFrom b todo v ∨ f.Barren v → env'[v]? = env[v]?

namespace AgreeAt

variable {todo : List Instruction}

theorem mem_body (h : f.AgreeAt b (i :: todo) env env') : i ∈ f.body b := by
  obtain ⟨done, body⟩ := h.body
  simp [body]

theorem renamed (h : f.AgreeAt b (i :: todo) env env') : Renamed Eq env env' id f f i i where
  result := rfl
  op := (Op.mapOperands_eq_self fun _ _ => rfl).symm
  values x hx := by
    cases x with
    | const c => rfl
    | value v =>
      refine h.same v (.inl (.inl (.inl ⟨h.plain i List.mem_cons_self, ?_⟩)))
      exact Op.mem_usedValues_iff.2 hx
  names v w _ _ same := by
    cases same
    rfl
  types _ _ := rfl
  type _ _ := rfl
  faults _ _ := rfl
  division := rfl
  same _ _ := rfl

theorem next (h : f.AgreeAt b (i :: todo) env env') {result : Option Value}
    (fits : (Flow.next result).Fits i.op) :
    f.AgreeAt b todo ((Flow.next result).define i.result env)
      ((Flow.next result).define i.result env') := by
  refine ⟨h.mem, ?_, fun j hj => h.plain j (List.mem_cons_of_mem _ hj), fun v live => ?_⟩
  · obtain ⟨done, body⟩ := h.body
    exact ⟨done ++ [i], by simp [body]⟩
  · by_cases hr : i.result = some v
    · by_cases produces : i.op.producesValue = true
      · obtain ⟨a, rfl⟩ := Option.isSome_iff_exists.mp (fits.2 produces)
        rw [hr]
        exact TreeMap.getElem?_insert_iff.trans (TreeMap.getElem?_insert_iff.trans (by simp)).symm
      · have barren : f.Barren v := ⟨b, h.mem, i, h.mem_body, hr, by simpa using produces⟩
        exact Flow.define_congr (h.same v (.inr barren)) _
    · rw [Flow.define_of_ne hr, Flow.define_of_ne hr]
      refine h.same v (live.imp_left (Or.imp (fun exposed => .inr ⟨hr, exposed⟩) fun rest => ?_))
      exact ⟨by simp [rest.1, hr], rest.2⟩

/-- What is live into the next block is live at the end of this one. -/
theorem agreeInto (h : f.AgreeAt b [i] env env') (edge : d ∈ f.successors b)
    (last : i.op.producesValue = false) : f.AgreeInto b d env env' := by
  intro v live
  by_cases hr : i.result = some v
  · exact h.same v (.inr ⟨b, h.mem, i, h.mem_body, hr, last⟩)
  · have fresh : v ∉ results [i] := by simp [hr]
    rcases live with live | live | barren
    · exact h.same v (.inl (.inr ⟨fresh, d, edge, _, live, rfl, rfl⟩))
    · exact h.same v (.inl (.inr ⟨fresh, d, edge, _, live, by simp [Use.passes], rfl⟩))
    · exact h.same v (.inr barren)

end AgreeAt

/-- No merge takes its own result. -/
def NoSelfMerge (f : Function) : Prop :=
  ∀ b ∈ f.layout, ∀ i ∈ f.body b, i.op.isPhi = true → ∀ v ∈ i.result, v ∉ i.op.usedValues

namespace AgreeInto

variable (once : f.NoSelfMerge)

include once

theorem incoming? (h : f.AgreeInto d b env env') (hb : b ∈ f.layout) (hi : i ∈ f.body b) :
    env'.incoming? d i = env.incoming? d i := by
  obtain ⟨r, op⟩ := i
  cases op with
  | phi pairs =>
    cases found : pairs.find? (·.2 == d) with
    | none => simp [Env.incoming?, Instruction.incoming?, found]
    | some pair =>
      obtain ⟨x, p⟩ := pair
      obtain rfl : p = d := by simpa using List.find?_some found
      have mem := List.mem_of_find?_eq_some found
      simp only [Env.incoming?, Instruction.incoming?, found, Option.map_some, Option.bind_some]
      cases x with
      | const c => rfl
      | value v =>
        refine h v (.inr (.inl (liveInto_of_incoming hb hi rfl mem fun hr => ?_)))
        refine once b hb _ hi rfl v hr (Op.mem_usedValues_iff.2 ?_)
        exact List.mem_map_of_mem mem
  | _ => rfl

theorem agreeAt (wf : f.WellFormed) (h : f.AgreeInto d b env env') (hb : b ∈ f.layout) (ne : b ≠ f.entry)
    (ready : ∀ i ∈ (f.block b).phis, ∃ a, env.incoming? d i = some a) :
    f.AgreeAt b (f.block b).afterPhis (env.merge d (f.block b).phis)
      (env'.merge d (f.block b).phis) := by
  have split : (f.block b).phis ++ (f.block b).afterPhis = f.body b :=
    List.takeWhile_append_dropWhile
  have mem : ∀ i ∈ (f.block b).phis, i ∈ f.body b := by
    intro i hi
    rw [← split]
    exact List.mem_append_left _ hi
  have ready' : ∀ i ∈ (f.block b).phis, ∃ a, env'.incoming? d i = some a := by
    intro i hi
    rw [h.incoming? once hb (mem i hi)]
    exact ready i hi
  have nodup : (results (f.block b).phis).Nodup := by
    have whole : (results (f.body b)).Nodup := (List.nodup_flatMap.mp wf.once).1 b hb
    rw [← split, results_append] at whole
    exact (List.nodup_append.mp whole).1
  refine ⟨hb, ⟨_, split.symm⟩, wf.phisLead b hb, fun v live => ?_⟩
  by_cases hv : v ∈ results (f.block b).phis
  · obtain ⟨i, hi, hr⟩ := mem_results_iff.1 hv
    rw [Env.merge_of_mem ready nodup hi hr, Env.merge_of_mem ready' nodup hi hr,
      h.incoming? once hb (mem i hi)]
  · rw [Env.merge_of_not_mem ready hv, Env.merge_of_not_mem ready' hv]
    refine h v ?_
    rcases live with (exposed | ⟨fresh, out⟩) | barren
    · refine .inl (liveInto_of_exposed hb ?_)
      rw [← split, exposed_append_iff]
      exact .inr ⟨hv, exposed⟩
    · refine .inl (liveInto_of_liveOutOf hb ne ?_ out)
      rw [← split, results_append, List.mem_append]
      exact fun mem => mem.elim hv fresh
    · exact .inr (.inr barren)

end AgreeInto

end Function

/-! ## The environments of runs -/

/-- Only parameters and results of operations that produce one have a value. -/
def Env.BelongsTo (env : Env) (f : Function) : Prop :=
  ∀ (v : ValueId) (a : Value), env[v]? = some a → v ∈ f.params ∨
    ∃ b ∈ f.layout, ∃ i ∈ f.body b, i.result = some v ∧ i.op.producesValue = true

theorem mem_params_of_beginRun {σ : Type} {f : Function} {args : List Value} {s t : State σ} {c : Control}
    (begun : beginRun f args s = .running c t) {v : ValueId} {a : Value} (found : t.env[v]? = some a) :
    v ∈ f.params := by
  rcases state_beginRun f args s with ⟨e, ended⟩ | bound
  · rw [ended] at begun
    cases begun
  · rw [begun] at bound
    by_contra given
    have unbound : v ∉ (f.params.zip args).map (·.1) := fun mem => by
      obtain ⟨x, hx, rfl⟩ := List.mem_map.mp mem
      exact given (List.of_mem_zip hx).1
    have env : t.env = _ := congrArg State.env bound
    rw [env, Env.getElem?_foldl_insert_of_not_mem unbound] at found
    simp at found

namespace Env.BelongsTo

variable {f : Function} {env : Env}

theorem eq_none (h : env.BelongsTo f) (shaped : f.Shaped) {v : ValueId} (barren : f.Barren v) :
    env[v]? = none := by
  obtain ⟨b, hb, i, hi, hr, nothing⟩ := barren
  have mem : v ∈ f.defined := List.mem_flatMap.mpr ⟨b, hb, mem_results_iff.2 ⟨i, hi, hr⟩⟩
  rw [Option.eq_none_iff_forall_ne_some]
  intro a found
  rcases h v a found with given | ⟨d, hd, j, hj, hr', produces⟩
  · exact shaped.params v mem given
  · obtain ⟨n, hn⟩ := List.getElem?_of_mem hi
    obtain ⟨k, hk⟩ := List.getElem?_of_mem hj
    have here : f.DefinedAt v ⟨b, n⟩ := ⟨hb, i, hn, hr⟩
    cases here.unique shaped (⟨hd, j, hk, hr'⟩ : f.DefinedAt v ⟨d, k⟩)
    rw [hn] at hk
    cases hk
    rw [nothing] at produces
    cases produces

variable {σ : Type} [Storage σ] {config : RunConfig} {c c' : Control} {s s' : State σ}

theorem advanced (h : s.env.BelongsTo f) (shaped : f.Shaped) {done : List Instruction}
    (place : f.Place c.block done c.todo) (run : Advanced f config c s c' s') :
    s'.env.BelongsTo f := by
  obtain ⟨b, todo⟩ := c
  intro v a found
  cases run with
  | @next i rest result t todo_eq exec =>
    obtain rfl : todo = i :: rest := todo_eq
    by_cases hr : i.result = some v
    · cases result with
      | none => exact h v a found
      | some b =>
        exact .inr ⟨_, place.mem_layout, i, place.mem_body, hr, Exec.gives_execOp _ _ _ exec _ rfl⟩
    · rw [Flow.define_of_ne hr] at found
      exact h v a found
  | @jump i rest d t todo_eq exec ready =>
    by_cases hv : v ∈ results (f.block d).phis
    · obtain ⟨j, hj, hr⟩ := mem_results_iff.1 hv
      obtain ⟨_, later⟩ := place_advanced shaped place (.jump todo_eq exec ready)
      have mem : j ∈ f.body d := (List.takeWhile_sublist _).subset hj
      obtain ⟨pairs, hop⟩ := Op.isPhi_iff.1 (isPhi_of_mem_takeWhile hj)
      exact .inr ⟨d, later.mem_layout, j, mem, hr, by rw [hop]; rfl⟩
    · exact h v a ((Env.merge_of_not_mem ready hv).symm.trans found)

theorem of_run (shaped : f.Shaped) {args : List Value} {n : Nat}
    (run : (Progress.advance f config)^[n] (beginRun f args s) = .running c s') :
    s'.env.BelongsTo f := by
  refine (running_induction (fun c s => (∃ done, f.Place c.block done c.todo) ∧ s.env.BelongsTo f)
    ?_ ?_ run).2
  · intro c t begun
    exact ⟨place_beginRun shaped begun, fun v a found => .inl (mem_params_of_beginRun begun found)⟩
  · rintro c t c' t' ⟨⟨done, place⟩, belongs⟩ step
    exact ⟨place_advanced shaped place step, belongs.advanced shaped place step⟩

end Env.BelongsTo

/-! ## Runs side by side -/

section Runs

variable {σ : Type} {f : Function} {b p : BlockId} {config : RunConfig}

/-- Control comes to `b` from `p`. -/
def arrive (f : Function) (p b : BlockId) (s : State σ) : Progress σ :=
  .ofEnter (Exec.enter f (some p) b s)

/-- Two runs at the same place that agree on what is live there, or that have come to the same end.
They differ in their environments only. -/
inductive SideBySide (f : Function) : Progress σ → Progress σ → Prop
  | running {c : Control} {s : State σ} {env' : Env} : f.AgreeAt c.block c.todo s.env env' →
    SideBySide f (.running c s) (.running c { s with env := env' })
  | done {r : Except ExecError Outcome} {s : State σ} {env' : Env} :
    SideBySide f (.done r s) (.done r { s with env := env' })

section Steps

variable (wf : f.WellFormed) (once : f.NoSelfMerge) {s : State σ} {env' : Env}

include wf once

theorem sideBySide_arrive (edge : b ∈ f.successors p) (hp : p ∈ f.layout)
    (agree : f.AgreeInto p b s.env env') :
    SideBySide f (arrive f p b s) (arrive f p b { s with env := env' }) := by
  have hb := wf.successor_mem hp edge
  have ne : b ≠ f.entry := by
    rintro rfl
    have pred := Function.mem_predecessors_iff.2 ⟨hp, edge⟩
    rw [wf.entry_free] at pred
    cases pred
  have same : ∀ i ∈ (f.block b).phis, env'.incoming? p i = s.env.incoming? p i :=
    fun i hi => agree.incoming? once hb ((List.takeWhile_sublist _).subset hi)
  unfold arrive
  rcases Exec.enter_cases f p b s with ready | ⟨e, failed⟩
  · have ready' : ∀ i ∈ (f.block b).phis, ∃ a, env'.incoming? p i = some a := by
      intro i hi
      rw [same i hi]
      exact ready i hi
    rw [Exec.enter_run ready, Exec.enter_run (s := { s with env := env' }) ready']
    exact .running (s := { s with env := _ }) (agree.agreeAt once wf hb ne ready)
  · rw [failed s fun _ _ => rfl, failed { s with env := env' } same]
    exact .done

variable [Storage σ]

/-- Runs side by side stay side by side. -/
theorem sideBySide_advance {c : Control} (agree : f.AgreeAt c.block c.todo s.env env') :
    SideBySide f (advanceRun f config c s) (advanceRun f config c { s with env := env' }) := by
  obtain ⟨b, todo⟩ := c
  cases todo with
  | nil => exact .done
  | cons i rest =>
    have stepped := agree.renamed.stepped config.haltAfter (s := s) rfl
    simp only [advanceRun]
    generalize execInstruction f config.haltAfter i s = r at stepped
    generalize execInstruction f config.haltAfter i { s with env := env' } = r' at stepped
    cases stepped with
    | @error e _ t same =>
      subst same
      exact .done (s := { t with env := s.env })
    | @ok flow t fits =>
      cases flow with
      | next result => exact .running (s := { t with env := _ }) (agree.next fits)
      | jump d =>
        obtain ⟨done, body⟩ := agree.body
        obtain rfl := wf.rest_eq_nil agree.mem body fits.1
        have edge := Function.mem_successors_of_target body fits.2
        have last : i.op.producesValue = false := Op.producesValue_of_isTerminator fits.1
        exact sideBySide_arrive wf once (s := { t with env := s.env }) edge agree.mem
          (agree.agreeInto edge last)
      | leave value => exact .done (s := { t with env := s.env })
      | halt => exact .done (s := { t with env := s.env })

end Steps

variable [Storage σ]

/-- The places that control comes to in the next steps. -/
def Progress.path (f : Function) (config : RunConfig) : Nat → Progress σ → List Control
  | _, .done _ _ => []
  | 0, .running c _ => [c]
  | steps + 1, .running c s => c :: path f config steps (advanceRun f config c s)

/-- How a run ends that goes on for up to that many steps. -/
def Progress.finish (f : Function) (config : RunConfig) (steps : Nat) :
    Progress σ → Except ExecError Outcome × State σ
  | .running c s => continueSteps f config steps c s
  | .done r s => (r, s)

theorem SideBySide.path_eq (wf : f.WellFormed) (once : f.NoSelfMerge) {x x' : Progress σ}
    (h : SideBySide f x x') (steps : Nat) : x'.path f config steps = x.path f config steps := by
  induction steps generalizing x x' with
  | zero => cases h <;> rfl
  | succ steps ih =>
    cases h with
    | @running c s env' agree => exact congrArg (c :: ·) (ih (sideBySide_advance wf once agree))
    | done => rfl

theorem SideBySide.finish_eq (wf : f.WellFormed) (once : f.NoSelfMerge) {x x' : Progress σ}
    (h : SideBySide f x x') (steps : Nat) : ∃ env', x'.finish f config steps =
      ((x.finish f config steps).1, { (x.finish f config steps).2 with env := env' }) := by
  induction steps generalizing x x' with
  | zero =>
    cases h with
    | @running c s env' agree =>
      refine ⟨env', ?_⟩
      simp only [Progress.finish, continueSteps]
      split <;> rfl
    | @done r s env' => exact ⟨env', rfl⟩
  | succ steps ih =>
    cases h with
    | @running c s env' agree =>
      have beside : SideBySide f (advanceRun f config c s) _ := sideBySide_advance wf once agree
      have next := ih beside
      simp only [Progress.finish, continueSteps]
      generalize advanceRun f config c s = y at next
      generalize advanceRun f config c { s with env := env' } = y' at next
      cases y <;> cases y' <;> exact next
    | @done r s env' => exact ⟨env', rfl⟩

/-- Whatever a run does once it has come to a block by some edge depends on the values that are
live then and on nothing else in its environment: the way it takes and what it leaves behind. The
environments have to agree on results of operations that produce none as well, as those of any two
runs do, for such a result never has a value. -/
theorem finish_arrive_of_live (valid : f.validate = .ok ()) (once : f.NoSelfMerge)
    (merges : BlockSet) (config : RunConfig) :
    (∀ (s : State σ) (env' : Env) (steps : Nat), ∀ p ∈ f.predecessors b,
      (∀ v, .ordinary v ∈ (Liveness.compute (f.summarize merges .none)).liveIn b ∨
        ⟨v, some p⟩ ∈ (Liveness.compute (f.summarize merges .none)).liveIn b ∨ f.Barren v →
        env'[v]? = s.env[v]?) →
      (arrive f p b { s with env := env' }).path f config steps =
          (arrive f p b s).path f config steps ∧
        ∃ env'', (arrive f p b { s with env := env' }).finish f config steps =
          (((arrive f p b s).finish f config steps).1,
            { ((arrive f p b s).finish f config steps).2 with env := env'' })) ∧
    ∀ (args : List Value) (s t : State σ) (n : Nat) (c : Control),
      (Progress.advance f config)^[n] (beginRun f args s) = .running c t →
        ∀ v, f.Barren v → t.env[v]? = none := by
  have wf := Function.validate_eq_ok_iff.1 valid
  constructor
  · intro s env' steps p edge agree
    obtain ⟨hp, succ⟩ := Function.mem_predecessors_iff.1 edge
    have hb := wf.successor_mem hp succ
    have into : f.AgreeInto p b s.env env' := by
      rintro v (live | live | barren)
      · exact agree v (.inl ((wf.mem_liveIn_iff hb).mpr live))
      · exact agree v (.inr (.inl ((wf.mem_liveIn_iff hb).mpr live)))
      · exact agree v (.inr (.inr barren))
    have beside := sideBySide_arrive wf once succ hp into
    exact ⟨beside.path_eq wf once steps, beside.finish_eq wf once steps⟩
  · intro args s t n c run v barren
    exact (Env.BelongsTo.of_run wf.toShaped run).eq_none wf.toShaped barren

end Runs

/-- A loop whose merges take each other's results. The sum is never used. -/
def swapping : Function where
  name := "swapping"
  params := []
  returns := .int 32
  values := #[⟨"a", .int 32⟩, ⟨"b", .int 32⟩, ⟨"sum", .int 32⟩, ⟨"less", .int 1⟩]
  blocks := #[
    ⟨"entry", [.effect (.br ⟨1⟩)]⟩,
    ⟨"loop", [
      .define ⟨0⟩ (.phi [(.const (.int 32 1), ⟨0⟩), (.value ⟨1⟩, ⟨1⟩)]),
      .define ⟨1⟩ (.phi [(.const (.int 32 2), ⟨0⟩), (.value ⟨0⟩, ⟨1⟩)]),
      .define ⟨2⟩ (.binary .add (.value ⟨0⟩) (.value ⟨1⟩)),
      .define ⟨3⟩ (.compare .lt (.value ⟨0⟩) (.value ⟨1⟩)),
      .effect (.condBr (.value ⟨3⟩) ⟨1⟩ ⟨2⟩)]⟩,
    ⟨"exit", [.effect (.ret (some (.value ⟨0⟩)))]⟩]
  layout := [⟨0⟩, ⟨1⟩, ⟨2⟩]

def swappingState (a b sum : Int64) : State InMemory :=
  { State.initial (.new .default ∅ (.still 5)) with
    env := ((∅ : Env).insert ⟨0⟩ (.int 32 a)).insert ⟨1⟩ (.int 32 b) |>.insert ⟨2⟩ (.int 32 sum) }

theorem finish_arrive_of_live_swapping :
    ((arrive swapping ⟨1⟩ ⟨1⟩ (swappingState 5 3 77)).path swapping {} 20 =
      (arrive swapping ⟨1⟩ ⟨1⟩ (swappingState 5 3 8)).path swapping {} 20) ∧
    ∃ env, (arrive swapping ⟨1⟩ ⟨1⟩ (swappingState 5 3 77)).finish swapping {} 20 =
      (((arrive swapping ⟨1⟩ ⟨1⟩ (swappingState 5 3 8)).finish swapping {} 20).1,
        { ((arrive swapping ⟨1⟩ ⟨1⟩ (swappingState 5 3 8)).finish swapping {} 20).2 with env }) := by
  have once : swapping.NoSelfMerge := by
    unfold Function.NoSelfMerge
    decide
  have dead : ¬ (.ordinary ⟨2⟩ ∈ (Liveness.compute (swapping.summarize ∅ .none)).liveIn ⟨1⟩ ∨
      ⟨⟨2⟩, some ⟨1⟩⟩ ∈ (Liveness.compute (swapping.summarize ∅ .none)).liveIn ⟨1⟩) := by
    decide +kernel
  have produced : ∀ b ∈ swapping.layout, ∀ i ∈ swapping.body b, i.result.isSome = true →
      i.op.producesValue = true := by
    decide
  refine (finish_arrive_of_live (eq_ok_of_toOption (by cbv)) once ∅ {}).1 (swappingState 5 3 8) _ 20
    ⟨1⟩ (by decide) fun v live => ?_
  by_cases sum : v = ⟨2⟩
  · rcases live with live | live | ⟨b, hb, i, hi, hr, nothing⟩
    · exact absurd (.inl (sum ▸ live)) dead
    · exact absurd (.inr (sum ▸ live)) dead
    · rw [produced b hb i hi (by rw [hr]; rfl)] at nothing
      cases nothing
  · simp [swappingState, TreeMap.getElem?_insert_iff, sum]

/-- Returns the result of an operation that produces none. -/
def echoing : Function where
  name := "echoing"
  params := []
  returns := .int 32
  values := #[⟨"u", .int 32⟩]
  blocks := #[
    ⟨"entry", [.effect (.br ⟨1⟩)]⟩,
    ⟨"next", [
      .define ⟨0⟩ (.call "print" [.const (.int 32 1)]),
      .effect (.ret (some (.value ⟨0⟩)))]⟩]
  layout := [⟨0⟩, ⟨1⟩]

def echoingState (u : Int64) : State InMemory :=
  { State.initial (.new .default ∅ (.still 5)) with env := (∅ : Env).insert ⟨0⟩ (.int 32 u) }

/-- Nothing is live, and yet two environments lead to two results. -/
theorem finish_arrive_ne_of_echoing :
    echoing.validate = .ok () ∧ echoing.NoSelfMerge ∧ ⟨0⟩ ∈ echoing.predecessors ⟨1⟩ ∧
      (Liveness.compute (echoing.summarize ∅ .none)).liveIn ⟨1⟩ = ∅ ∧
      ((arrive echoing ⟨0⟩ ⟨1⟩ (echoingState 5)).finish echoing {} 20).1 =
        .ok (.returned (some (.int 32 5))) ∧
      ((arrive echoing ⟨0⟩ ⟨1⟩ (echoingState 6)).finish echoing {} 20).1 =
        .ok (.returned (some (.int 32 6))) := by
  have once : echoing.NoSelfMerge := by
    unfold Function.NoSelfMerge
    decide
  exact ⟨eq_ok_of_toOption (by cbv), once, by decide, by decide +kernel, by decide +kernel,
    by decide +kernel⟩

end CheckpointRestart
