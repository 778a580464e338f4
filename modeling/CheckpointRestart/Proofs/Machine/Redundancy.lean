import CheckpointRestart.Proofs.Machine.Soundness

/-! # Running without a redundant merge

A merge that takes one operand, and otherwise only itself, equals that operand wherever it is
defined: it becomes the operand when control first comes to it, and keeps its value until the
operand is defined anew, after which the merge may be lacking. So a function in which the merge has
been dropped runs in step with the function it was dropped from.
-/

namespace CheckpointRestart

/-- The error without the texts it carries. -/
def ExecError.kind : ExecError → ExecError
  | .undefinedValue _ => .undefinedValue ""
  | .type _ fault => .type "" fault
  | .divisionByZero _ => .divisionByZero ""
  | .missingIncoming _ _ => .missingIncoming "" ""
  | e => e

/-- Two runs that end in the same way, up to the texts of errors, and leave the same behind. -/
structure Alike {σ : Type} (r r' : Except ExecError Outcome × State σ) : Prop where
  outcome : r.1.mapError ExecError.kind = r'.1.mapError ExecError.kind
  memory : r.2.memory = r'.2.memory
  output : r.2.output = r'.2.output
  session : r.2.session = r'.2.session

namespace Alike

variable {σ : Type} {r r' r'' : Except ExecError Outcome × State σ}

theorem refl (r : Except ExecError Outcome × State σ) : Alike r r :=
  ⟨rfl, rfl, rfl, rfl⟩

theorem symm (h : Alike r r') : Alike r' r :=
  ⟨h.outcome.symm, h.memory.symm, h.output.symm, h.session.symm⟩

theorem trans (h : Alike r r') (h' : Alike r' r'') : Alike r r'' :=
  ⟨h.outcome.trans h'.outcome, h.memory.trans h'.memory, h.output.trans h'.output,
    h.session.trans h'.session⟩

end Alike

theorem Instruction.incoming?_mapOperands {rename : Operand → Operand} {c : BlockId} {i : Instruction} :
    (i.mapOp (Op.mapOperands rename)).incoming? c = (i.incoming? c).map rename := by
  obtain ⟨r, op⟩ := i
  cases op with
  | phi pairs =>
    simp only [incoming?, mapOp, Op.mapOperands, List.find?_map, Option.map_map]
    rfl
  | _ => rfl

theorem Instruction.takesFrom_of_incoming? {is : List Instruction} {i : Instruction} {c : BlockId}
    {v : ValueId} (hi : i ∈ is) (h : i.incoming? c = some (.value v)) : TakesFrom is v c := by
  obtain ⟨r, op⟩ := i
  cases op with
  | phi pairs =>
    obtain ⟨⟨_, p⟩, found, rfl⟩ := Option.map_eq_some_iff.mp h
    have from_c : p = c := by simpa using List.find?_some found
    exact ⟨_, hi, pairs, rfl, from_c ▸ List.mem_of_find?_eq_some found⟩
  | _ => cases h

namespace Function

variable {f f' : Function} {m b c : BlockId} {x : ValueId} {y : Operand} {env env' : Env}
  {done rest : List Instruction} {i : Instruction}

namespace Collapsed

theorem phis (h : Collapsed f f' x y) (shaped : f.Shaped) (hb : b ∈ f.layout) :
    (f'.block b).phis = collapseBody x y (f.block b).phis ∧
      (f'.block b).afterPhis = collapseBody x y (f.block b).afterPhis := by
  have split : (f.block b).phis ++ (f.block b).afterPhis = f.body b :=
    List.takeWhile_append_dropWhile
  have whole := h.body b
  rw [← split, collapseBody_append] at whole
  have lead : ∀ j ∈ collapseBody x y (f.block b).phis, j.op.isPhi = true := by
    intro j hj
    obtain ⟨i, hi, _, rfl⟩ := mem_collapseBody_iff.1 hj
    simpa [Instruction.mapOp] using isPhi_of_mem_takeWhile hi
  have others : ∀ j ∈ collapseBody x y (f.block b).afterPhis, j.op.isPhi = false := by
    intro j hj
    obtain ⟨i, hi, _, rfl⟩ := mem_collapseBody_iff.1 hj
    simpa [Instruction.mapOp] using shaped.phisLead b hb i hi
  constructor
  · change (f'.body b).takeWhile _ = _
    rw [whole, List.takeWhile_append_of_pos (by simpa using lead), takeWhile_of_plain others,
      List.append_nil]
  · change (f'.body b).dropWhile _ = _
    rw [whole, List.dropWhile_append_of_pos (by simpa using lead), dropWhile_of_plain others]

theorem productive (h : Collapsed f f' x y) (productive : f.Productive) : f'.Productive := by
  intro b i hi some
  rw [h.body] at hi
  obtain ⟨j, hj, -, rfl⟩ := mem_collapseBody_iff.1 hi
  simpa [Instruction.mapOp] using productive b j hj some

theorem checked (h : Collapsed f f' x y) (only : f.MergesOnly m x y) (ok : f.Checked) : f'.Checked :=
  ⟨h.coherent, h.wellFormed only ok.coherent ok.wellFormed, h.strict only ok.wellFormed ok.strict,
    h.productive ok.productive⟩

end Collapsed

/-- The environments with the merge `x` of `y` and without it. -/
structure Redundant (f : Function) (x : ValueId) (y : Operand) (b : BlockId) (done : List Instruction)
    (env env' : Env) : Prop where
  same : ∀ v, v ≠ x → env'[v]? = env[v]?
  merged : ¬ f.LacksAfter x b done → env[x]? = env.operand? y

namespace MergesOnly

variable (only : f.MergesOnly m x y)

include only

theorem not_param (wf : f.WellFormed) : x ∉ f.params :=
  wf.params x (mem_defined_iff.2 ⟨m, only.mem, only.mem_results⟩)

theorem lacks_of_mem_results {w : ValueId} (ok : f.Checked) (hy : y = .value w)
    (reach : f.Reachable b) (hw : w ∈ results (f.body b)) : f.Lacks x b ∧ b ≠ m := by
  subst hy
  have given : w ∉ f.params :=
    ok.wellFormed.params w (mem_defined_iff.2 ⟨b, reach.inside_end, hw⟩)
  refine only.lacks ok.wellFormed ok.strict given (lacks_of_reachable reach fun c hc hv => ?_)
  exact ok.wellFormed.defining_block hc hv reach.inside_end hw

theorem entry_ne (wf : f.WellFormed) : f.entry ≠ m := by
  obtain ⟨i, hi, -, pairs, hop, ⟨p, hp⟩, -⟩ := only.phi
  have pred := wf.mem_predecessors_of_incoming only.mem hi hop hp
  intro e
  rw [← e, wf.entry_free] at pred
  cases pred

theorem not_mem_results (ok : f.Checked) (hb : b ∈ f.layout) (ne : b ≠ m) :
    x ∉ results (f.body b) := fun hx =>
  ne (ok.wellFormed.defining_block hb hx only.mem only.mem_results)

theorem result_ne (ok : f.Checked) (hb : b ∈ f.layout) (hi : i ∈ f.body b)
    (plain : i.op.isPhi = false) : i.result ≠ some x := by
  intro hr
  obtain ⟨j, hj, hjr, pairs, hop, -⟩ := only.phi
  obtain ⟨n, hn⟩ := List.getElem?_of_mem hi
  obtain ⟨k, hk⟩ := List.getElem?_of_mem hj
  have at_i : f.DefinedAt x ⟨b, n⟩ := ⟨hb, i, hn, hr⟩
  have at_j : f.DefinedAt x ⟨m, k⟩ := ⟨only.mem, j, hk, hjr⟩
  cases at_i.unique ok.wellFormed.toShaped at_j
  rw [hn] at hk
  cases hk
  rw [hop] at plain
  cases plain

end MergesOnly

namespace Redundant

variable (ok : f.Checked) (col : Collapsed f f' x y) (only : f.MergesOnly m x y)
  (typed : f.operandType y = f.valueType x)

theorem operand?_of_ne (h : f.Redundant x y b done env env') {z : Operand} (hz : z ≠ .value x) :
    env'.operand? z = env.operand? z := by
  cases z with
  | const c => rfl
  | value v => exact h.same v fun e => hz (congrArg _ e)

include only in
/-- An operand has the same value with and without the merge, wherever the merge is not lacking. -/
theorem operand? (h : f.Redundant x y b done env env') {z : Operand}
    (there : z = .value x → ¬ f.LacksAfter x b done) :
    env'.operand? (Operand.replace x y z) = env.operand? z := by
  unfold Operand.replace
  split
  · next hz =>
    rw [h.operand?_of_ne only.other, hz]
    exact (h.merged (there hz)).symm
  · next hz => exact h.operand?_of_ne hz

include ok col only typed in
theorem renamed (h : f.Redundant x y b done env env') (sound : f.Sound b done (i :: rest) env) :
    Renamed (fun e e' => e.kind = e'.kind) env env' (Operand.replace x y) f f' i
      (i.mapOp (Op.mapOperands (Operand.replace x y))) where
  result := rfl
  op := rfl
  values z hz := by
    refine h.operand? only ?_
    rintro rfl ⟨lacks, undefined⟩
    refine only.not_param ok.wellFormed (ok.strict.operands b x ?_ lacks)
    rw [sound.body, exposed_append_iff]
    exact .inr ⟨undefined, .inl ⟨sound.plain i List.mem_cons_self, Op.mem_usedValues_iff.2 hz⟩⟩
  names _ _ _ _ _ := rfl
  types z hz := by
    have same : ∀ z, f'.operandType z = f.operandType z := by
      intro z
      cases z with
      | const c => rfl
      | value v => exact col.valueType
    rw [same]
    unfold Operand.replace
    split
    · next e =>
      rw [e, typed]
      rfl
    · rfl
  type r _ := col.valueType
  faults _ _ := rfl
  division := rfl
  same _ _ := rfl

include ok only in
theorem next (h : f.Redundant x y b done env env') (sound : f.Sound b done (i :: rest) env)
    (result : Option Value) :
    f.Redundant x y b (done ++ [i]) ((Flow.next result).define i.result env)
      ((Flow.next result).define i.result env') := by
  have other := only.result_ne ok sound.mem_layout sound.mem_body (sound.plain i List.mem_cons_self)
  -- the merge is defined before as after, since this is no merge
  have before : ¬ f.LacksAfter x b (done ++ [i]) → ¬ f.LacksAfter x b done := by
    rintro there ⟨lacks, undefined⟩
    refine there ⟨lacks, ?_⟩
    simpa [undefined] using other
  refine ⟨fun v hv => Flow.define_congr (h.same v hv) _, fun there => ?_⟩
  rw [Flow.define_of_ne other, h.merged (before there)]
  cases y with
  | const c => rfl
  | value w =>
    refine (Flow.define_of_ne (fun hr => there ?_) _).symm
    obtain ⟨lacks, ne⟩ := only.lacks_of_mem_results ok rfl sound.reachable
      (mem_results_iff.2 ⟨i, sound.mem_body, hr⟩)
    refine ⟨lacks, fun hx => only.not_mem_results ok sound.mem_layout ne ?_⟩
    rw [sound.body, ← List.singleton_append, ← List.append_assoc, results_append]
    exact List.mem_append_left _ hx

include ok only in
theorem incoming? (h : f.Redundant x y c done env env') (sound : f.Sound c done [i] env)
    (hb : b ∈ i.op.targets) {j : Instruction} (hj : j ∈ f.body b) :
    env'.incoming? c (j.mapOp (Op.mapOperands (Operand.replace x y))) = env.incoming? c j := by
  rw [Env.incoming?, Instruction.incoming?_mapOperands, Env.incoming?]
  cases taken : j.incoming? c with
  | none => rfl
  | some z =>
    refine h.operand? only ?_
    rintro rfl ⟨lacks, undefined⟩
    have mem_b := ok.wellFormed.successor_mem sound.mem_layout (sound.successor hb)
    rw [← sound.results_eq ok hb] at undefined
    refine only.not_param ok.wellFormed (ok.strict.incoming b mem_b x c ?_ lacks undefined)
    exact Instruction.takesFrom_of_incoming? hj taken

include ok col only in
theorem jump (h : f.Redundant x y c done env env') (sound : f.Sound c done [i] env)
    (hb : b ∈ i.op.targets) :
    (∀ j ∈ (f'.block b).phis, ∃ a, env'.incoming? c j = some a) ∧
      f.Redundant x y b (f.block b).phis (env.merge c (f.block b).phis)
        (env'.merge c (f'.block b).phis) := by
  have mem_b := ok.wellFormed.successor_mem sound.mem_layout (sound.successor hb)
  have ready := sound.ready ok hb
  have in_body : ∀ j ∈ (f.block b).phis, j ∈ f.body b := fun j => ((List.takeWhile_sublist _).subset ·)
  have phis := (col.phis ok.wellFormed.toShaped mem_b).1
  have ready' : ∀ j ∈ (f'.block b).phis, ∃ a, env'.incoming? c j = some a := by
    intro j hj
    rw [phis] at hj
    obtain ⟨k, hk, -, rfl⟩ := mem_collapseBody_iff.1 hj
    rw [h.incoming? ok only sound hb (in_body k hk)]
    exact ready k hk
  have nodup := Sound.nodup_phis ok mem_b
  have nodup' : (results (f'.block b).phis).Nodup := by
    rw [phis, results_collapseBody]
    exact nodup.filter _
  refine ⟨ready', fun v hv => ?_, fun there => ?_⟩
  · by_cases mem : v ∈ results (f.block b).phis
    · obtain ⟨j, hj, hr⟩ := mem_results_iff.1 mem
      have other : j.result ≠ some x := fun e => hv (Option.some.inj (hr.symm.trans e))
      have hj' : j.mapOp (Op.mapOperands (Operand.replace x y)) ∈ (f'.block b).phis := by
        rw [phis]
        exact mem_collapseBody_iff.2 ⟨j, hj, other, rfl⟩
      rw [Env.merge_of_mem ready nodup hj hr, Env.merge_of_mem ready' nodup' hj' hr,
        h.incoming? ok only sound hb (in_body j hj)]
    · have mem' : v ∉ results (f'.block b).phis := by
        rw [phis, mem_results_collapseBody_iff hv]
        exact mem
      rw [Env.merge_of_not_mem ready mem, Env.merge_of_not_mem ready' mem', h.same v hv]
  · have reach : f.Reachable b := .step sound.reachable (sound.successor hb) mem_b
    have kept : (f.Lacks x b → b = m) → (env.merge c (f.block b).phis).operand? y = env.operand? y := by
      intro defined
      cases y with
      | const c => rfl
      | value w =>
        refine Env.merge_of_not_mem ready fun hw => ?_
        have hw : w ∈ results (f.body b) := ((List.takeWhile_sublist _).filterMap _).subset hw
        obtain ⟨lacks, ne⟩ := only.lacks_of_mem_results ok rfl reach hw
        exact ne (defined lacks)
    by_cases hm : b = m
    · subst hm
      rw [kept fun _ => rfl]
      obtain ⟨j, hj, hr, pairs, hop, -, all⟩ := only.phi
      have phi : j ∈ (f.block b).phis :=
        mem_phis_of_isPhi (ok.wellFormed.phisLead b mem_b) hj (Op.isPhi_iff.2 ⟨pairs, hop⟩)
      have pred : c ∈ f.predecessors b :=
        mem_predecessors_iff.2 ⟨sound.mem_layout, sound.successor hb⟩
      obtain ⟨z, taken, mem⟩ := ok.wellFormed.exists_incoming mem_b hj hop pred
      have value := h.incoming? ok only sound hb hj
      rw [Env.merge_of_mem ready nodup phi hr, ← value, Env.incoming?,
        Instruction.incoming?_mapOperands, taken]
      have replaced : Operand.replace x y z = y := by
        rcases all z c mem with rfl | rfl
        · exact if_pos rfl
        · exact if_neg only.other
      change env'.operand? (Operand.replace x y z) = _
      rw [replaced, h.operand?_of_ne only.other]
    · have fresh : x ∉ results (f.block b).phis := fun hx =>
        only.not_mem_results ok mem_b hm (((List.takeWhile_sublist _).filterMap _).subset hx)
      have there : ¬ f.Lacks x b := fun lacks => there ⟨lacks, fresh⟩
      rw [kept fun lacks => absurd lacks there, Env.merge_of_not_mem ready fresh]
      refine h.merged fun passed => there (.step passed.1 ?_ (sound.successor hb))
      rw [sound.results_eq ok hb]
      exact passed.2

end Redundant

end Function

/-! ## Runs in step -/

section Runs

variable {σ : Type}

/-- Two runs go on in related states, or both have come to the same end. -/
inductive Together (related : Control → State σ → Control → State σ → Prop) :
    Progress σ → Progress σ → Prop
  | running {c c' : Control} {s s' : State σ} :
    related c s c' s' → Together related (.running c s) (.running c' s')
  | done {r r' : Except ExecError Outcome} {s s' : State σ} :
    Alike (r, s) (r', s') → Together related (.done r s) (.done r' s')

variable [Storage σ] {related : Control → State σ → Control → State σ → Prop} {f f' : Function}
  {config : RunConfig}

theorem continueSteps_alike
    (step : ∀ c s c' s', related c s c' s' →
      Together related (advanceRun f config c s) (advanceRun f' config c' s'))
    (limit : ∀ c s c' s', related c s c' s' → c.todo ≠ [] ∧ c'.todo ≠ [] ∧
      ∀ r, Alike (r, s) (r, s'))
    (n : Nat) {c c' : Control} {s s' : State σ} (h : related c s c' s') :
    Alike (continueSteps f config n c s) (continueSteps f' config n c' s') := by
  induction n generalizing c c' s s' with
  | zero =>
    obtain ⟨more, more', alike⟩ := limit c s c' s' h
    unfold continueSteps
    rw [if_neg (by simpa using more), if_neg (by simpa using more')]
    exact alike _
  | succ n ih =>
    unfold continueSteps
    generalize hp : advanceRun f config c s = p
    generalize hp' : advanceRun f' config c' s' = p'
    have together := step c s c' s' h
    rw [hp, hp'] at together
    cases together with
    | running h => exact ih h
    | done alike => exact alike

end Runs

namespace Function

variable {σ : Type} {f f' : Function} {m : BlockId} {x : ValueId} {y : Operand}

/-- Control is at the same place in both functions. -/
inductive InStep (f : Function) (x : ValueId) (y : Operand) :
    Control → State σ → Control → State σ → Prop
  | mk {b : BlockId} {done todo : List Instruction} {s : State σ} {env' : Env} :
    f.Sound b done todo s.env → f.Redundant x y b done s.env env' →
    InStep f x y ⟨b, todo⟩ s ⟨b, collapseBody x y todo⟩ { s with env := env' }

section Lockstep

variable (ok : f.Checked) (col : Collapsed f f' x y) (only : f.MergesOnly m x y)
  (typed : f.operandType y = f.valueType x)

include ok col only typed

theorem InStep.advance [Storage σ] {config : RunConfig} {c c' : Control} {s s' : State σ}
    (h : f.InStep x y c s c' s') :
    Together (f.InStep x y) (advanceRun f config c s) (advanceRun f' config c' s') := by
  obtain @⟨b, done, todo, s, env', sound, redundant⟩ := h
  cases todo with
  | nil => exact absurd rfl sound.more
  | cons i rest =>
    have other := only.result_ne ok sound.mem_layout sound.mem_body (sound.plain i List.mem_cons_self)
    rw [collapseBody_cons_of_ne other]
    unfold advanceRun
    dsimp only
    have stepped := (redundant.renamed ok col only typed sound).stepped config.haltAfter rfl
    generalize execInstruction f config.haltAfter i s = r at stepped
    generalize execInstruction f' config.haltAfter
      (i.mapOp (Op.mapOperands (Operand.replace x y))) { s with env := env' } = r' at stepped
    cases stepped with
    | error kind => exact .done ⟨congrArg Except.error kind, rfl, rfl, rfl⟩
    | @ok flow t fits =>
      dsimp only
      cases flow with
      | next result =>
        have sound' := sound.next ok fits
        exact .running (InStep.mk (s := { t with env := _ }) sound'
          (redundant.next ok only sound result))
      | jump d =>
        obtain rfl := sound.rest_eq_nil ok.wellFormed.toShaped fits.1
        obtain ⟨ready', redundant'⟩ := redundant.jump ok col only sound fits.2
        have mem_d := ok.wellFormed.successor_mem sound.mem_layout (sound.successor fits.2)
        have enter := Exec.enter_run (s := { t with env := s.env }) (sound.ready ok fits.2)
        have enter' := Exec.enter_run (s := { t with env := env' }) ready'
        unfold continueRun
        change Together _ (.ofEnter (Exec.enter f (some b) d { t with env := s.env }))
          (.ofEnter (Exec.enter f' (some b) d { t with env := env' }))
        rw [enter, enter', (col.phis ok.wellFormed.toShaped mem_d).2]
        exact .running (InStep.mk (s := { t with env := _ }) (sound.jump ok fits.2) redundant')
      | leave value => exact .done ⟨rfl, rfl, rfl, rfl⟩
      | halt => exact .done ⟨rfl, rfl, rfl, rfl⟩

omit typed in
theorem Collapsed.beginRun_together (args : List Value) (s : State σ) :
    Together (f.InStep x y) (beginRun f args s) (beginRun f' args s) := by
  by_cases count : args.length = f.params.length
  · obtain ⟨env, given, begin⟩ := beginRun_eq f s count
    rw [begin f rfl, begin f' col.params, col.entry]
    have phis := col.phis ok.wellFormed.toShaped ok.wellFormed.entry_mem
    rw [Exec.enter_none_run, Exec.enter_none_run, phis.1, phis.2]
    cases none : (f.block f.entry).phis with
    | nil =>
      refine .running (InStep.mk (s := { s with env }) (ok.sound_entry none given)
        ⟨fun _ _ => rfl, fun there => ?_⟩)
      exact absurd ⟨.entry, by simp⟩ there
    | cons i is =>
      have mem : i ∈ f.body f.entry := (List.takeWhile_sublist _).subset (none ▸ List.mem_cons_self)
      have other : i.result ≠ some x := fun hr =>
        only.not_mem_results ok ok.wellFormed.entry_mem (only.entry_ne ok.wellFormed)
          (CheckpointRestart.mem_results_iff.2 ⟨i, mem, hr⟩)
      rw [collapseBody_cons_of_ne other]
      exact .done ⟨rfl, rfl, rfl, rfl⟩
  · unfold beginRun
    rw [col.params, if_pos count, if_pos count]
    exact .done (.refl _)

variable [Storage σ]

theorem Collapsed.continueSteps_alike {config : RunConfig} {c c' : Control} {s s' : State σ} (n : Nat)
    (h : f.InStep x y c s c' s') :
    Alike (continueSteps f config n c s) (continueSteps f' config n c' s') := by
  refine CheckpointRestart.continueSteps_alike (fun _ _ _ _ h => h.advance ok col only typed) ?_ n h
  rintro _ _ _ _ @⟨b, done, todo, s, env', sound, -⟩
  refine ⟨sound.more, ?_, fun r => ⟨rfl, rfl, rfl, rfl⟩⟩
  cases todo with
  | nil => exact absurd rfl sound.more
  | cons i rest =>
    have other := only.result_ne ok sound.mem_layout sound.mem_body (sound.plain i List.mem_cons_self)
    rw [collapseBody_cons_of_ne other]
    exact List.cons_ne_nil _ _

/-- Dropping a redundant merge makes no difference to a run. -/
theorem Collapsed.runFunction_alike (config : RunConfig) (args : List Value) (s : State σ) :
    Alike (runFunction f config args s) (runFunction f' config args s) := by
  unfold runFunction
  generalize hp : beginRun f args s = p
  generalize hp' : beginRun f' args s = p'
  have together := col.beginRun_together ok only args s
  rw [hp, hp'] at together
  cases together with
  | running h => exact col.continueSteps_alike ok only typed _ h
  | done alike => exact alike

theorem Collapsed.runMain_alike (name : f'.name = f.name) (config : RunConfig) (args : List String)
    (s : State σ) : Alike (runMain f config args s) (runMain f' config args s) := by
  have arguments : mainArguments f' args s.memory = mainArguments f args s.memory := by
    have types : f'.valueType = f.valueType := funext fun v => col.valueType
    unfold mainArguments takesArguments
    rw [name, col.params, types]
  unfold runMain beginMain
  rw [arguments]
  cases mainArguments f args s.memory with
  | error fault => exact .refl _
  | ok values => exact col.runFunction_alike ok only typed config _ _

end Lockstep

end Function

end CheckpointRestart
