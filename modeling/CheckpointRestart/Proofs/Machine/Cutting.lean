import CheckpointRestart.Proofs.Instrument.Split
import CheckpointRestart.Proofs.Machine.Unlimited
import Mathlib.Data.List.Find

/-! # Running with blocks cut in two

A function in which a block is cut behind its merges runs like the function before the cut: it
takes one step more, from the front part to the rest, whenever control comes to the block. Errors
are the same to the letter, since they name values and blocks that are called what they were called.
-/

namespace CheckpointRestart

/-! ## Texts of instructions -/

namespace Function

variable {f g : Function} {i : Instruction} {op : Op}

theorem renderOp_congr (plain : op.isPhi = false)
    (operands : ∀ x ∈ op.operands, g.renderOperand x = f.renderOperand x)
    (blocks : ∀ b ∈ op.targets, g.blockName b = f.blockName b) (t : Ty) :
    g.renderOp t op = f.renderOp t op := by
  have all : ∀ xs : List Operand, (∀ x ∈ xs, g.renderOperand x = f.renderOperand x) →
      xs.map g.renderOperand = xs.map f.renderOperand := fun _ => List.map_congr_left
  cases op with
  | phi pairs => cases plain
  | alloca t n => rfl
  | malloc x | free x | load x | cast x t =>
    simp only [renderOp, operands x (by simp [Op.operands])]
  | gep x y | store x y | binary o x y | compare rel x y =>
    simp only [renderOp, operands x (by simp [Op.operands]), operands y (by simp [Op.operands])]
  | call callee args => simp only [renderOp, all args operands]
  | br b => simp only [renderOp, blocks b (by simp [Op.targets])]
  | condBr x t e =>
    simp only [renderOp, operands x (by simp [Op.operands]), blocks t (by simp [Op.targets]),
      blocks e (by simp [Op.targets])]
  | switch x d cases =>
    have arms : cases.map (fun k => toString k.1.toInt ++ ": " ++ g.blockName k.2) =
        cases.map fun k => toString k.1.toInt ++ ": " ++ f.blockName k.2 := by
      refine List.map_congr_left fun k hk => ?_
      rw [blocks k.2 (List.mem_cons_of_mem _ (List.mem_map_of_mem hk))]
    simp only [renderOp, operands x (by simp [Op.operands]), blocks d (by simp [Op.targets]), arms]
  | ret value =>
    cases value with
    | none => rfl
    | some x => simp only [renderOp, operands x (by simp [Op.operands])]
  | session call =>
    cases call with
    | setup | finish | restartLabel | restartFinish | start => rfl
    | savePointer w n a | readPointer w n a =>
      simp only [renderOp, renderSessionCall, all [w, n, a] operands, SessionCall.mnemonic]
    | readAlias w n =>
      simp only [renderOp, renderSessionCall, all [w, n] operands, SessionCall.mnemonic]
    | saveAlias w n a cs =>
      have candidates : cs.map g.renderCandidate = cs.map f.renderCandidate := by
        refine List.map_congr_left fun k hk => ?_
        have known : ∀ x ∈ [k.width, k.count, k.address], g.renderOperand x = f.renderOperand x :=
          fun x hx => operands x (List.mem_append_right _ (List.mem_flatMap.mpr ⟨k, hk, hx⟩))
        simp only [List.forall_mem_cons] at known
        simp only [renderCandidate, known]
      have first := all [w, n, a] fun x hx => operands x (List.mem_append_left _ hx)
      simp only [renderOp, renderSessionCall, candidates, first, SessionCall.mnemonic]

/-- The values of `f` have the names and the types in `g` that they have in `f`, and its blocks
have their names. -/
structure Spells (f g : Function) : Prop where
  names : ∀ v, v.index < f.values.size → g.valueName v = f.valueName v
  types : ∀ v, v.index < f.values.size → g.valueType v = f.valueType v
  blocks : ∀ b ∈ f.layout, g.blockName b = f.blockName b

namespace Spells

theorem renderInstruction (h : f.Spells g) (fits : f.Fits i) (plain : i.op.isPhi = false) :
    g.renderInstruction i = f.renderInstruction i := by
  have op : ∀ t, g.renderOp t i.op = f.renderOp t i.op := by
    refine fun t => renderOp_congr plain (fun x hx => ?_) (fun b hb => h.blocks b (fits.targets b hb)) t
    cases x with
    | const c => rfl
    | value v =>
      rw [renderOperand, renderOperand, h.names v (fits.operands v (Op.mem_usedValues_iff.2 hx))]
  unfold Function.renderInstruction
  cases hr : i.result with
  | none => exact op _
  | some v =>
    have lt := index_lt_of_typed (fits.typed v hr)
    dsimp only
    rw [h.names v lt, h.types v lt, op]

/-- Where values have the same values, an instruction does the same in both functions, and fails
with the same text. -/
theorem renamed (h : f.Spells g) (fits : f.Fits i) (plain : i.op.isPhi = false) {env env' : Env}
    (same : ∀ v ∈ i.op.usedValues, env'[v]? = env[v]?) : Renamed Eq env env' id f g i i where
  result := rfl
  op := (Op.mapOperands_eq_self fun _ _ => rfl).symm
  values x hx := by
    cases x with
    | const c => rfl
    | value v => exact same v (Op.mem_usedValues_iff.2 hx)
  names v w hv _ e := by
    cases e
    rw [h.names v (fits.operands v (Op.mem_usedValues_iff.2 hv))]
  types x hx := by
    cases x with
    | const c => rfl
    | value v => exact h.types v (fits.operands v (Op.mem_usedValues_iff.2 hx))
  type r hr := h.types r (index_lt_of_typed (fits.typed r hr))
  faults _ _ := by rw [h.renderInstruction fits plain]
  division := by rw [h.renderInstruction fits plain]
  same _ _ := rfl

end Spells

end Function

/-! ## Merges that fail -/

theorem findSome?_congr {α β : Type} {g h : α → Option β} {xs : List α} (same : ∀ x ∈ xs, g x = h x) :
    xs.findSome? g = xs.findSome? h := by
  induction xs with
  | nil => rfl
  | cons x xs ih =>
    rw [List.findSome?_cons, List.findSome?_cons, same x List.mem_cons_self,
      ih fun y hy => same y (List.mem_cons_of_mem _ hy)]

/-- Why a merge cannot take effect if control comes from `source`. -/
def Env.fault? (f : Function) (env : Env) (source : BlockId) (i : Instruction) : Option ExecError :=
  match i.incoming? source with
  | none => some (.missingIncoming (f.renderInstruction i) (f.blockName source))
  | some (.const _) => none
  | some (.value v) =>
    match env[v]? with
    | none => some (.undefinedValue (f.valueName v))
    | some _ => none

theorem Env.fault?_eq_none_iff {f : Function} {env : Env} {source : BlockId} {i : Instruction} :
    env.fault? f source i = none ↔ ∃ a, env.incoming? source i = some a := by
  unfold fault? incoming?
  cases i.incoming? source with
  | none => simp
  | some x =>
    cases x with
    | const c => simp [operand?]
    | value v => cases h : env[v]? <;> simp [operand?, h]

namespace Exec

variable {σ : Type} {f : Function} {s : State σ} {b p : BlockId} {i : Instruction}
  {is : List Instruction}

theorem incoming_eq (phi : i.op.isPhi = true) :
    incoming f (some p) i s = match s.env.fault? f p i with
      | none => .ok (s.env.merged? p i) s
      | some e => .error e s := by
  cases fault : s.env.fault? f p i with
  | none =>
    obtain ⟨a, ha⟩ := Env.fault?_eq_none_iff.1 fault
    exact incoming_run ha
  | some e =>
    obtain ⟨r, op⟩ := i
    obtain ⟨pairs, rfl⟩ := Op.isPhi_iff.1 phi
    simp only [Env.fault?, Instruction.incoming?] at fault
    cases found : pairs.find? (·.2 == p) with
    | none =>
      rw [found] at fault
      cases fault
      simp only [incoming, Option.bind_some, found]
      rfl
    | some pair =>
      obtain ⟨x, q⟩ := pair
      simp only [found, Option.map_some] at fault
      cases x with
      | const c => cases fault
      | value v =>
        cases none : s.env[v]? with
        | some a =>
          simp only [none] at fault
          cases fault
        | none =>
          simp only [none, Option.some.injEq] at fault
          subst fault
          simp only [incoming, Option.bind_some, found]
          change EStateM.bind (operand f (.value v)) _ s = _
          unfold EStateM.bind
          rw [operand_of_none none]

theorem mapM_incoming_eq (phis : ∀ i ∈ is, i.op.isPhi = true) :
    is.mapM (incoming f (some p)) s = match is.findSome? (s.env.fault? f p) with
      | none => .ok (is.map (s.env.merged? p)) s
      | some e => .error e s := by
  induction is with
  | nil => rfl
  | cons i is ih =>
    rw [List.mapM_cons, List.findSome?_cons]
    change EStateM.bind (incoming f (some p) i) _ s = _
    unfold EStateM.bind
    rw [incoming_eq (phis i List.mem_cons_self)]
    cases s.env.fault? f p i with
    | some e => rfl
    | none =>
      dsimp only
      change EStateM.bind (is.mapM (incoming f (some p))) _ s = _
      unfold EStateM.bind
      rw [ih fun j hj => phis j (List.mem_cons_of_mem _ hj)]
      cases is.findSome? (s.env.fault? f p) with
      | some e => rfl
      | none => rfl

theorem enter_eq (f : Function) (p b : BlockId) (s : State σ) :
    enter f (some p) b s = match (f.block b).phis.findSome? (s.env.fault? f p) with
      | none => .ok ⟨b, (f.block b).afterPhis⟩ { s with env := s.env.merge p (f.block b).phis }
      | some e => .error e s := by
  cases fault : (f.block b).phis.findSome? (s.env.fault? f p) with
  | none =>
    exact enter_run fun i hi => Env.fault?_eq_none_iff.1 (List.findSome?_eq_none_iff.mp fault i hi)
  | some e =>
    change EStateM.bind ((f.block b).phis.mapM (incoming f (some p))) _ s = _
    unfold EStateM.bind
    have phis : ∀ i ∈ (f.block b).phis, i.op.isPhi = true := fun i => isPhi_of_mem_takeWhile
    rw [mapM_incoming_eq phis, fault]

end Exec

/-! ## One cut -/

namespace Function

namespace Cut

variable {f f' : Function} {b rest c d : BlockId} {is js : List Instruction} {i : Instruction}

/-- Where control is after the cut, if it was behind the merges of `c`. -/
def place (b rest c : BlockId) : BlockId :=
  if c = b then rest else c

variable (h : Cut f f' b rest is js) (wf : f.WellFormed)

include h

theorem spells : f.Spells f' := by
  have infos : f'.valueInfo = f.valueInfo := by
    funext v
    rw [valueInfo, h.values, valueInfo]
  refine ⟨fun v _ => ?_, fun v _ => h.valueType, h.names⟩
  rw [valueName, infos, valueName]

theorem phis_front : (f.block b).phis = is ∧ (f.block b).afterPhis = js := by
  have body : (f.block b).body = is ++ js := h.before
  constructor
  · rw [Block.phis, body, List.takeWhile_append_of_pos (by simpa using h.merges), takeWhile_of_plain h.plain,
      List.append_nil]
  · rw [Block.afterPhis, body, List.dropWhile_append_of_pos (by simpa using h.merges),
      dropWhile_of_plain h.plain]

theorem phis_eq (hd : d ∈ f.layout) :
    (f'.block d).phis = (f.block d).phis.map (renameIncoming b rest) := by
  by_cases e : d = b
  · subst e
    have body : (f'.block d).body = _ := h.body_front
    have merges : ∀ i ∈ is.map (renameIncoming d rest), i.op.isPhi = true := by
      intro i hi
      obtain ⟨j, hj, rfl⟩ := List.mem_map.mp hi
      exact sameKind_renameIncoming.isPhi.trans (h.merges j hj)
    rw [Block.phis, body, List.takeWhile_append_of_pos (by simpa using merges), h.phis_front.1]
    exact List.append_nil _
  · have body : (f'.block d).body = _ := h.body_other d e fun e => h.fresh (e ▸ hd)
    have same : (fun i : Instruction => i.op.isPhi) ∘ renameIncoming b rest = fun i => i.op.isPhi :=
      funext fun i => sameKind_renameIncoming.isPhi
    rw [Block.phis, body, List.takeWhile_map, same]
    rfl

theorem afterPhis_front : (f'.block b).afterPhis = [.effect (.br rest)] := by
  have body : (f'.block b).body = _ := h.body_front
  have merges : ∀ i ∈ is.map (renameIncoming b rest), i.op.isPhi = true := by
    intro i hi
    obtain ⟨j, hj, rfl⟩ := List.mem_map.mp hi
    exact sameKind_renameIncoming.isPhi.trans (h.merges j hj)
  rw [Block.afterPhis, body, List.dropWhile_append_of_pos (by simpa using merges)]
  rfl

theorem afterPhis_rest : (f'.block rest).phis = [] ∧ (f'.block rest).afterPhis = js := by
  have body : (f'.block rest).body = js := h.body_rest
  rw [Block.phis, Block.afterPhis, body]
  exact ⟨takeWhile_of_plain h.plain, dropWhile_of_plain h.plain⟩

include wf

theorem afterPhis_other (hd : d ∈ f.layout) (ne : d ≠ b) :
    (f'.block d).afterPhis = (f.block d).afterPhis := by
  have body : (f'.block d).body = _ := h.body_other d ne fun e => h.fresh (e ▸ hd)
  rw [Block.afterPhis, body]
  exact dropWhile_map_renameIncoming (wf.phisLead d hd)

theorem incoming?_eq (hd : d ∈ f.layout) (hi : i ∈ f.body d) (pred : c ∈ f.predecessors d) :
    (renameIncoming b rest i).incoming? (place b rest c) = i.incoming? c := by
  obtain ⟨r, op⟩ := i
  cases op with
  | phi pairs =>
    have hc : c ≠ rest := fun e => h.fresh (e ▸ (Function.mem_predecessors_iff.1 pred).1)
    have same : ∀ pair ∈ pairs, ((if pair.2 = b then rest else pair.2) == place b rest c) = (pair.2 == c) := by
      intro pair hp
      have inside := (Function.mem_predecessors_iff.1 (wf.mem_predecessors_of_incoming hd hi rfl hp)).1
      have hp : pair.2 ≠ rest := fun e => h.fresh (e ▸ inside)
      unfold place
      grind
    rw [renameIncoming_phi]
    simp only [Instruction.incoming?, List.find?_map, Option.map_map]
    refine congrArg₂ _ rfl ?_
    exact List.find?_congr same
  | _ => rfl

theorem fault?_eq (hd : d ∈ f.layout) (hi : i ∈ f.body d) (phi : i.op.isPhi = true)
    (pred : c ∈ f.predecessors d) (env : Env) :
    env.fault? f' (place b rest c) (renameIncoming b rest i) = env.fault? f c i := by
  obtain ⟨pairs, hop⟩ := Op.isPhi_iff.1 phi
  obtain ⟨x, taken, mem⟩ := wf.exists_incoming hd hi hop pred
  unfold Env.fault?
  rw [h.incoming?_eq wf hd hi pred, taken]
  cases x with
  | const c => rfl
  | value v =>
    have lt : v.index < f.values.size := (wf.fits d hd i hi).operands v (by
      rw [hop]
      exact Op.mem_usedValues_iff.2 (List.mem_map.mpr ⟨_, mem, rfl⟩))
    dsimp only
    rw [h.spells.names v lt]

theorem merge_eq (hd : d ∈ f.layout) (pred : c ∈ f.predecessors d) (env : Env) :
    env.merge (place b rest c) (f'.block d).phis = env.merge c (f.block d).phis := by
  have same : (f'.block d).phis.filterMap (env.merged? (place b rest c)) =
      (f.block d).phis.filterMap (env.merged? c) := by
    rw [h.phis_eq hd, List.filterMap_map]
    refine List.filterMap_congr fun i hi => ?_
    have mem : i ∈ f.body d := (List.takeWhile_sublist _).subset hi
    simp only [Function.comp, Env.merged?, Env.incoming?, h.incoming?_eq wf hd mem pred,
      sameKind_renameIncoming.result]
  rw [Env.merge, same, Env.merge]

end Cut

/-! ## Runs -/

variable {σ : Type}

/-- Where control is before and after a cut. In the front part there is nothing left to do but to
branch to the rest. -/
inductive Cut.Follows (f : Function) (b rest : BlockId) (is js : List Instruction) :
    Control → State σ → Control → State σ → Prop
  | inside {c : BlockId} {done todo : List Instruction} {s : State σ} : f.Place c done todo → todo ≠ [] →
    Follows f b rest is js ⟨c, todo⟩ s ⟨Cut.place b rest c, todo⟩ s
  | front {s : State σ} : f.Place b is js →
    Follows f b rest is js ⟨b, js⟩ s ⟨b, [.effect (.br rest)]⟩ s

namespace Cut

variable {f f' : Function} {b rest c d : BlockId} {is js done todo : List Instruction} {s : State σ}
  {config : RunConfig}

section

variable (h : Cut f f' b rest is js) (wf : f.WellFormed)

include h wf

theorem matched_enter (reach : f.Reachable d) (pred : c ∈ f.predecessors d) (s : State σ) :
    Matched (Follows f b rest is js) (.ofEnter (Exec.enter f (some c) d s))
      (.ofEnter (Exec.enter f' (some (place b rest c)) d s)) := by
  have hd := reach.inside_end
  have faults : (f'.block d).phis.findSome? (s.env.fault? f' (place b rest c)) =
      (f.block d).phis.findSome? (s.env.fault? f c) := by
    rw [h.phis_eq hd, List.findSome?_map]
    refine findSome?_congr fun i hi => ?_
    exact h.fault?_eq wf hd ((List.takeWhile_sublist _).subset hi) (isPhi_of_mem_takeWhile hi) pred s.env
  rw [Exec.enter_eq, Exec.enter_eq, faults, h.merge_eq wf hd pred]
  cases (f.block d).phis.findSome? (s.env.fault? f c) with
  | some e => exact .done
  | none =>
    have place : f.Place d (f.block d).phis (f.block d).afterPhis :=
      ⟨reach, List.takeWhile_append_dropWhile.symm, wf.phisLead d hd⟩
    by_cases e : d = b
    · subst e
      rw [h.afterPhis_front, h.phis_front.2] at *
      rw [h.phis_front.1] at *
      exact .running (.front place)
    · rw [h.afterPhis_other wf hd e]
      have same : Cut.place b rest d = d := if_neg e
      have related : ∀ t : State σ, Follows f b rest is js ⟨d, _⟩ t ⟨Cut.place b rest d, _⟩ t := fun t =>
        .inside place (wf.afterPhis_ne_nil hd)
      rw [same] at related
      exact .running (related _)

theorem matched_advance [Storage σ] (config : RunConfig) (at_ : f.Place c done todo) (more : todo ≠ []) (s : State σ) :
    Matched (Follows f b rest is js) (advanceRun f config ⟨c, todo⟩ s)
      (advanceRun f' config ⟨place b rest c, todo⟩ s) := by
  have hc := at_.mem_layout
  cases todo with
  | nil => exact absurd rfl more
  | cons i todo =>
    unfold advanceRun
    dsimp only
    have plain := at_.plain i List.mem_cons_self
    have stepped := (h.spells.renamed (wf.fits c hc i at_.mem_body) plain fun _ _ => rfl).stepped
      config.haltAfter (s := s) rfl
    change Stepped _ _ _ _ _ _ (execInstruction f' config.haltAfter i s) at stepped
    generalize execInstruction f config.haltAfter i s = r at stepped
    generalize execInstruction f' config.haltAfter i s = r' at stepped
    cases stepped with
    | error same =>
      rw [same]
      exact .done
    | @ok flow t fits =>
      dsimp only
      cases flow with
      | next result =>
        have behind : f.Place c (done ++ [i]) todo := by
          refine ⟨at_.reachable, ?_, fun j hj => at_.plain j (List.mem_cons_of_mem _ hj)⟩
          rw [List.append_assoc]
          exact at_.body
        exact .running (.inside behind (wf.ne_nil_of_not_isTerminator hc at_.body fits.1))
      | jump d =>
        obtain rfl := wf.rest_eq_nil hc at_.body fits.1
        have edge : d ∈ f.successors c := mem_successors_of_target at_.body fits.2
        have reach : f.Reachable d := .step at_.reachable edge (wf.successor_mem hc edge)
        exact h.matched_enter wf reach (Function.mem_predecessors_iff.2 ⟨hc, edge⟩) _
      | leave v => exact .done
      | halt => exact .done

theorem matched_step [Storage σ] {c c' : Control} {s s' : State σ}
    (related : Follows f b rest is js c s c' s') :
    ∃ k, Matched (Follows f b rest is js) (advanceRun f config c s)
      ((Progress.advance f' config)^[k + 1] (.running c' s')) := by
  cases related with
  | inside at_ more => exact ⟨0, h.matched_advance wf config at_ more s⟩
  | front at_ =>
    refine ⟨1, ?_⟩
    have branch : Progress.advance f' config (.running ⟨b, [.effect (.br rest)]⟩ s) =
        .running ⟨rest, js⟩ s := by
      change Progress.ofEnter (Exec.enter f' (some b) rest s) = _
      rw [Exec.enter_eq, h.afterPhis_rest.1, h.afterPhis_rest.2]
      rfl
    rw [Function.iterate_succ_apply, branch, Function.iterate_one]
    have matched := h.matched_advance wf config at_ h.ne_nil s
    rwa [place, if_pos rfl] at matched

theorem matched_beginRun (plain : ∀ i ∈ f.body f.entry, i.op.isPhi = false) (args : List Value)
    (s : State σ) : Matched (Follows f b rest is js) (beginRun f args s) (beginRun f' args s) := by
  by_cases count : args.length = f.params.length
  · obtain ⟨env, -, begin⟩ := beginRun_eq f s count
    have entry := wf.entry_mem
    have none : (f.block f.entry).phis = [] := takeWhile_of_plain plain
    have at_ : f.Place f.entry (f.block f.entry).phis (f.block f.entry).afterPhis :=
      ⟨.refl entry, List.takeWhile_append_dropWhile.symm, wf.phisLead _ entry⟩
    rw [begin f rfl, begin f' h.params, h.entry, Exec.enter_none_run, Exec.enter_none_run,
      h.phis_eq entry, none]
    by_cases e : f.entry = b
    · rw [e] at at_ ⊢
      rw [h.phis_front.1, h.phis_front.2] at at_
      rw [h.phis_front.2, h.afterPhis_front]
      exact .running (.front at_)
    · have related : ∀ t : State σ, Follows f b rest is js ⟨f.entry, _⟩ t ⟨place b rest f.entry, _⟩ t :=
        fun t => .inside at_ (wf.afterPhis_ne_nil entry)
      rw [place, if_neg e] at related
      rw [h.afterPhis_other wf entry e]
      exact .running (related _)
  · unfold beginRun
    rw [h.params, if_pos count, if_pos count]
    exact .done

theorem runsAlike (plain : ∀ i ∈ f.body f.entry, i.op.isPhi = false) : f.RunsAlike f' := by
  refine .of_ends h.name h.params (fun _ _ => h.valueType) fun config args s r t => ?_
  exact (h.matched_beginRun wf plain args s).ends_iff fun _ _ _ _ related => h.matched_step wf related

end

end Cut

/-- Any number of cuts makes no difference to a run. -/
theorem Cuts.runsAlike {n : Nat} {f g : Function} (h : Cuts n f g) (co : f.Coherent) (wf : f.WellFormed)
    (plain : ∀ i ∈ f.body f.entry, i.op.isPhi = false) : f.RunsAlike g := by
  induction h with
  | refl => exact .refl f
  | step cuts cut _ ih =>
    refine ih.trans (cut.runsAlike (cuts.wellFormed co wf).2 ?_)
    rw [cuts.frame.1]
    exact cuts.plain plain

end Function

end CheckpointRestart
