import CheckpointRestart.Proofs.Collections
import CheckpointRestart.Proofs.Machine.Agreement
import CheckpointRestart.Proofs.Pointer.Cover

/-! # Strict functions find their values

Wherever a run of a strict function has come to, a value that is not defined may be lacking there.
So the operands of the next instruction are defined, and so are the incoming values of the merges
of the next block: a run never fails for want of a value.
-/

namespace CheckpointRestart

/-- The operand that a merge takes if control comes from `source`. -/
def Instruction.incoming? (source : BlockId) (i : Instruction) : Option Operand :=
  match i.op with
  | .phi pairs => (pairs.find? (·.2 == source)).map (·.1)
  | _ => none

namespace Env

/-- What a merge is if control comes from `source`. -/
def incoming? (env : Env) (source : BlockId) (i : Instruction) : Option Value :=
  (i.incoming? source).bind env.operand?

/-- The result of a merge with its value. -/
def merged? (env : Env) (source : BlockId) (i : Instruction) : Option (ValueId × Value) :=
  i.result.bind fun r => (env.incoming? source i).map (r, ·)

/-- The environment in which some merges have taken effect together. -/
def merge (env : Env) (source : BlockId) (is : List Instruction) : Env :=
  (is.filterMap (env.merged? source)).foldl (fun acc m => acc.insert m.1 m.2) env

variable {env acc : Env} {source : BlockId} {is : List Instruction} {i : Instruction} {v : ValueId}
  {a : Value} {ms : List (ValueId × Value)}

theorem getElem?_foldl_insert_of_not_mem (h : v ∉ ms.map (·.1)) :
    (ms.foldl (fun acc m => acc.insert m.1 m.2) acc)[v]? = acc[v]? := by
  induction ms generalizing acc with
  | nil => rfl
  | cons m ms ih =>
    rw [List.map_cons, List.mem_cons, not_or] at h
    rw [List.foldl_cons, ih h.2]
    exact TreeMap.getElem?_insert_iff.trans (if_neg h.1)

theorem getElem?_foldl_insert_of_mem (nodup : (ms.map (·.1)).Nodup) (h : (v, a) ∈ ms) :
    (ms.foldl (fun acc m => acc.insert m.1 m.2) acc)[v]? = some a := by
  induction ms generalizing acc with
  | nil => cases h
  | cons m ms ih =>
    rw [List.map_cons, List.nodup_cons] at nodup
    rcases List.mem_cons.mp h with rfl | h
    · rw [List.foldl_cons, getElem?_foldl_insert_of_not_mem nodup.1]
      exact TreeMap.getElem?_insert_iff.trans (if_pos rfl)
    · exact ih nodup.2 h

theorem getElem?_foldl_insert_ne_none (h : v ∈ ms.map (·.1) ∨ acc[v]? ≠ none) :
    (ms.foldl (fun acc m => acc.insert m.1 m.2) acc)[v]? ≠ none := by
  induction ms generalizing acc with
  | nil => exact h.resolve_left (by simp)
  | cons m ms ih =>
    refine ih ?_
    by_cases hv : v = m.1
    · exact .inr fun missing => by simp [hv] at missing
    · refine h.imp (fun mem => (List.mem_cons.mp mem).resolve_left hv) fun there missing => there ?_
      exact (if_neg hv).symm.trans (TreeMap.getElem?_insert_iff.symm.trans missing)

theorem map_fst_filterMap_merged? (ready : ∀ i ∈ is, ∃ a, env.incoming? source i = some a) :
    (is.filterMap (env.merged? source)).map (·.1) = results is := by
  rw [results, List.map_filterMap]
  refine List.filterMap_congr fun i hi => ?_
  obtain ⟨a, ha⟩ := ready i hi
  cases hr : i.result <;> simp [merged?, ha, hr]

theorem merge_of_not_mem (ready : ∀ i ∈ is, ∃ a, env.incoming? source i = some a)
    (h : v ∉ results is) : (env.merge source is)[v]? = env[v]? :=
  getElem?_foldl_insert_of_not_mem (by rwa [map_fst_filterMap_merged? ready])

theorem merge_of_mem (ready : ∀ i ∈ is, ∃ a, env.incoming? source i = some a)
    (nodup : (results is).Nodup) (hi : i ∈ is) (hr : i.result = some v) :
    (env.merge source is)[v]? = env.incoming? source i := by
  obtain ⟨a, ha⟩ := ready i hi
  rw [ha]
  refine getElem?_foldl_insert_of_mem (by rwa [map_fst_filterMap_merged? ready]) ?_
  exact List.mem_filterMap.mpr ⟨i, hi, by simp [merged?, hr, ha]⟩

end Env

namespace Flow

variable {env env' : Env} {r : Option ValueId} {v : ValueId}

theorem define_of_ne (h : r ≠ some v) (flow : Flow) : (flow.define r env)[v]? = env[v]? := by
  cases flow with
  | next result =>
    cases result with
    | none => rfl
    | some a =>
      cases r with
      | none => rfl
      | some w => exact TreeMap.getElem?_insert_iff.trans (if_neg fun e => h (congrArg _ e.symm))
  | _ => rfl

theorem define_congr (h : env'[v]? = env[v]?) (flow : Flow) :
    (flow.define r env')[v]? = (flow.define r env)[v]? := by
  cases flow with
  | next result =>
    cases result with
    | none => exact h
    | some a =>
      cases r with
      | none => exact h
      | some w =>
        change (env'.insert w a)[v]? = (env.insert w a)[v]?
        rw [TreeMap.getElem?_insert_iff, TreeMap.getElem?_insert_iff, h]
  | _ => exact h

end Flow

namespace Exec

variable {σ : Type} {f : Function} {s : State σ} {b p : BlockId} {i : Instruction} {is : List Instruction}

theorem incoming_run {a : Value} (h : s.env.incoming? p i = some a) :
    incoming f (some p) i s = .ok (s.env.merged? p i) s := by
  obtain ⟨x, hx, ha⟩ := Option.bind_eq_some_iff.mp h
  obtain ⟨r, op⟩ := i
  cases op with
  | phi pairs =>
    obtain ⟨⟨y, q⟩, found, rfl⟩ := Option.map_eq_some_iff.mp hx
    simp only [incoming, Option.bind_some, found]
    change EStateM.bind (operand f y) _ s = _
    unfold EStateM.bind
    rw [operand_of_some ha]
    cases r <;> simp [Env.merged?, h] <;> rfl
  | _ => cases hx

theorem mapM_incoming_run (ready : ∀ i ∈ is, ∃ a, s.env.incoming? p i = some a) :
    is.mapM (incoming f (some p)) s = .ok (is.map (s.env.merged? p)) s := by
  induction is with
  | nil => rfl
  | cons i is ih =>
    obtain ⟨a, ha⟩ := ready i List.mem_cons_self
    rw [List.mapM_cons]
    change EStateM.bind (incoming f (some p) i) _ s = _
    unfold EStateM.bind
    rw [incoming_run ha]
    change EStateM.bind (is.mapM (incoming f (some p))) _ s = _
    unfold EStateM.bind
    rw [ih fun j hj => ready j (List.mem_cons_of_mem _ hj)]
    rfl

theorem enter_run (ready : ∀ i ∈ (f.block b).phis, ∃ a, s.env.incoming? p i = some a) :
    enter f (some p) b s =
      .ok ⟨b, (f.block b).afterPhis⟩ { s with env := s.env.merge p (f.block b).phis } := by
  change EStateM.bind ((f.block b).phis.mapM (incoming f (some p))) _ s = _
  unfold EStateM.bind
  rw [mapM_incoming_run ready]
  refine congrArg (fun env => EStateM.Result.ok _ { s with env }) ?_
  rw [Env.merge, List.foldl_filterMap, List.foldl_map]
  congr
  funext acc i
  cases s.env.merged? p i <;> rfl

theorem incoming_of_none (phi : i.op.isPhi = true) (none : s.env.incoming? p i = none) :
    ∃ e, ∀ t : State σ, t.env.incoming? p i = .none → incoming f (some p) i t = .error e t := by
  obtain ⟨r, op⟩ := i
  cases op with
  | phi pairs =>
    cases found : pairs.find? (·.2 == p) with
    | none =>
      refine ⟨.missingIncoming (f.renderInstruction ⟨r, .phi pairs⟩) (f.blockName p), fun t _ => ?_⟩
      simp only [incoming, Option.bind_some, found]
      rfl
    | some pair =>
      obtain ⟨x, q⟩ := pair
      simp only [Env.incoming?, Instruction.incoming?, found, Option.map_some, Option.bind_some] at none ⊢
      obtain ⟨v, rfl⟩ := Env.exists_of_operand?_eq_none none
      refine ⟨.undefinedValue (f.valueName v), fun t none => ?_⟩
      simp only [incoming, Option.bind_some, found]
      change EStateM.bind (operand f (.value v)) _ t = _
      unfold EStateM.bind
      rw [operand_of_none none]
  | _ => cases phi

/-- Merges of which not all incoming values are there fail in the same way wherever they take the
same. -/
theorem mapM_incoming_of_not_ready (phis : ∀ i ∈ is, i.op.isPhi = true)
    (missing : ¬ ∀ i ∈ is, ∃ a, s.env.incoming? p i = some a) :
    ∃ e, ∀ t : State σ, (∀ i ∈ is, t.env.incoming? p i = s.env.incoming? p i) →
      is.mapM (incoming f (some p)) t = .error e t := by
  induction is with
  | nil => exact absurd (by simp) missing
  | cons i is ih =>
    cases here : s.env.incoming? p i with
    | none =>
      obtain ⟨e, failed⟩ := incoming_of_none (f := f) (phis i List.mem_cons_self) here
      refine ⟨e, fun t same => ?_⟩
      rw [List.mapM_cons]
      change EStateM.bind (incoming f (some p) i) _ t = _
      unfold EStateM.bind
      rw [failed t ((same i List.mem_cons_self).trans here)]
    | some a =>
      have later : ¬ ∀ i ∈ is, ∃ a, s.env.incoming? p i = some a := by
        intro all
        exact missing (List.forall_mem_cons.mpr ⟨⟨a, here⟩, all⟩)
      obtain ⟨e, failed⟩ := ih (fun j hj => phis j (List.mem_cons_of_mem _ hj)) later
      refine ⟨e, fun t same => ?_⟩
      rw [List.mapM_cons]
      change EStateM.bind (incoming f (some p) i) _ t = _
      unfold EStateM.bind
      rw [incoming_run ((same i List.mem_cons_self).trans here)]
      change EStateM.bind (is.mapM (incoming f (some p))) _ t = _
      unfold EStateM.bind
      rw [failed t fun j hj => same j (List.mem_cons_of_mem _ hj)]

/-- Where merges take the same, they take effect together or fail in the same way. -/
theorem enter_cases (f : Function) (p b : BlockId) (s : State σ) :
    (∀ i ∈ (f.block b).phis, ∃ a, s.env.incoming? p i = some a) ∨
      ∃ e, ∀ t : State σ, (∀ i ∈ (f.block b).phis, t.env.incoming? p i = s.env.incoming? p i) →
        enter f (some p) b t = .error e t := by
  by_cases ready : ∀ i ∈ (f.block b).phis, ∃ a, s.env.incoming? p i = some a
  · exact .inl ready
  · have phis : ∀ i ∈ (f.block b).phis, i.op.isPhi = true := fun i => isPhi_of_mem_takeWhile
    obtain ⟨e, failed⟩ := mapM_incoming_of_not_ready (f := f) phis ready
    refine .inr ⟨e, fun t same => ?_⟩
    change EStateM.bind ((f.block b).phis.mapM (incoming f (some p))) _ t = _
    unfold EStateM.bind
    rw [failed t same]

theorem enter_eq_ok {c : Control} {t : State σ} (run : enter f (some p) b s = .ok c t) :
    (∀ i ∈ (f.block b).phis, ∃ a, s.env.incoming? p i = some a) ∧
      c = ⟨b, (f.block b).afterPhis⟩ ∧ t = { s with env := s.env.merge p (f.block b).phis } := by
  rcases enter_cases f p b s with ready | ⟨e, failed⟩
  · rw [enter_run ready] at run
    cases run
    exact ⟨ready, rfl, rfl⟩
  · rw [failed s fun _ _ => rfl] at run
    cases run

theorem enter_none_run : enter f none b s = match (f.block b).phis with
    | [] => .ok ⟨b, (f.block b).afterPhis⟩ s
    | i :: _ => .error (.missingIncoming (f.renderInstruction i) "") s := by
  change EStateM.bind ((f.block b).phis.mapM (incoming f none)) _ s = _
  unfold EStateM.bind
  have all : ∀ i ∈ (f.block b).phis, i.op.isPhi = true := fun i => isPhi_of_mem_takeWhile
  cases phis : (f.block b).phis with
  | nil => rfl
  | cons i is =>
    rw [phis] at all
    have phi := all i List.mem_cons_self
    obtain ⟨r, op⟩ := i
    cases op with
    | phi pairs => rfl
    | _ => cases phi

end Exec

theorem takeWhile_of_plain {is : List Instruction} (h : ∀ i ∈ is, i.op.isPhi = false) :
    is.takeWhile (·.op.isPhi) = [] := by
  cases is with
  | nil => rfl
  | cons i is => simp [h i List.mem_cons_self]

theorem mem_phis_of_isPhi {is : List Instruction} {i : Instruction} (lead : PhisLead is) (hi : i ∈ is)
    (phi : i.op.isPhi = true) : i ∈ is.takeWhile (·.op.isPhi) := by
  have split : is.takeWhile (·.op.isPhi) ++ is.dropWhile (·.op.isPhi) = is :=
    List.takeWhile_append_dropWhile
  rw [← split, List.mem_append] at hi
  refine hi.resolve_right fun behind => ?_
  rw [lead i behind] at phi
  cases phi

theorem Op.isPhi_iff {op : Op} : op.isPhi = true ↔ ∃ pairs, op = .phi pairs := by
  cases op <;> simp [Op.isPhi]

namespace Function

variable {f : Function} {b c : BlockId} {done rest : List Instruction} {i : Instruction} {env : Env}
  {v : ValueId}

theorem WellFormed.exists_incoming (wf : f.WellFormed) (hb : b ∈ f.layout) (hi : i ∈ f.body b)
    {pairs : List (Operand × BlockId)} (hop : i.op = .phi pairs) (pred : c ∈ f.predecessors b) :
    ∃ x, i.incoming? c = some x ∧ (x, c) ∈ pairs := by
  obtain ⟨⟨x, p⟩, mem, from_c⟩ := List.mem_map.mp ((wf.merges b hb i hi pairs hop).mem_iff.mpr pred)
  have some : (pairs.find? (·.2 == c)).isSome = true :=
    List.find?_isSome.mpr ⟨_, mem, by simpa using from_c⟩
  obtain ⟨⟨y, q⟩, found⟩ := Option.isSome_iff_exists.mp some
  obtain rfl : q = c := by simpa using List.find?_some found
  exact ⟨y, by simp only [Instruction.incoming?, hop, found, Option.map_some],
    List.mem_of_find?_eq_some found⟩

theorem Shaped.afterPhis_ne_nil (shaped : f.Shaped) (hb : b ∈ f.layout) :
    (f.block b).afterPhis ≠ [] := by
  obtain ⟨t, last, ht⟩ := (shaped.terminated b hb).last
  intro none
  have all := List.dropWhile_eq_nil_iff.mp none t (List.mem_of_getLast? last)
  rw [Op.isTerminator_of_isPhi all] at ht
  cases ht

theorem Shaped.rest_eq_nil (shaped : f.Shaped) (hb : b ∈ f.layout) (body : f.body b = done ++ i :: rest)
    (last : i.op.isTerminator = true) : rest = [] := by
  by_contra more
  have inner := (shaped.terminated b hb).inner i
  rw [body, List.dropLast_append_of_ne_nil (List.cons_ne_nil _ _), List.dropLast_cons_of_ne_nil more,
    List.mem_append, List.mem_cons] at inner
  rw [inner (.inr (.inl rfl))] at last
  cases last

theorem mem_successors_of_target (body : f.body c = done ++ [i]) (hb : b ∈ i.op.targets) :
    b ∈ f.successors c := by
  have last : i.op.isTerminator = true := by
    by_contra other
    rw [Op.targets_of_not_isTerminator (by simpa using other)] at hb
    cases hb
  rw [successors_eq, body, targetsOf_concat last]
  exact List.mem_eraseDups.mpr hb

/-- Instructions with a result are of a kind that produces one. -/
def Productive (f : Function) : Prop :=
  ∀ b, ∀ i ∈ f.body b, i.result.isSome = true → i.op.producesValue = true

theorem Coherent.productive (h : f.Coherent) (all : ∀ b ∈ f.layout, ∀ i ∈ f.body b,
    i.result.isSome = true → i.op.producesValue = true) : f.Productive :=
  fun b i hi => all b (h.mem_layout_of_mem_body hi) i hi

/-- A function that passes the checks. -/
structure Checked (f : Function) : Prop where
  coherent : f.Coherent
  wellFormed : f.WellFormed
  strict : f.Strict
  productive : f.Productive

/-- Control is in `b`, has passed `done` and comes to `rest`. Only what may be lacking there is not
defined. -/
structure Sound (f : Function) (b : BlockId) (done rest : List Instruction) (env : Env) : Prop where
  reachable : f.Reachable b
  body : f.body b = done ++ rest
  plain : ∀ i ∈ rest, i.op.isPhi = false
  more : rest ≠ []
  lacks : ∀ v, env[v]? = none → f.LacksAfter v b done
  given : ∀ v ∈ f.params, env[v]? ≠ none

namespace Sound

theorem mem_layout (h : f.Sound b done rest env) : b ∈ f.layout :=
  h.reachable.inside_end

theorem mem_body (h : f.Sound b done (i :: rest) env) : i ∈ f.body b := by
  rw [h.body]
  simp

variable (ok : f.Checked)

include ok

theorem operand (h : f.Sound b done (i :: rest) env) {x : Operand} (hx : x ∈ i.op.operands) :
    ∃ a, env.operand? x = some a := by
  rw [← Option.ne_none_iff_exists']
  intro none
  obtain ⟨v, rfl⟩ := Env.exists_of_operand?_eq_none none
  obtain ⟨lacks, undefined⟩ := h.lacks v none
  refine h.given v (ok.strict.operands b v ?_ lacks) none
  rw [h.body, exposed_append_iff]
  exact .inr ⟨undefined, .inl ⟨h.plain i List.mem_cons_self, Op.mem_usedValues_iff.2 hx⟩⟩

theorem next {result : Option Value} (h : f.Sound b done (i :: rest) env)
    (fits : (Flow.next result).Fits i.op) :
    f.Sound b (done ++ [i]) rest ((Flow.next result).define i.result env) where
  reachable := h.reachable
  body := by rw [h.body, List.append_assoc, List.singleton_append]
  plain j hj := h.plain j (List.mem_cons_of_mem _ hj)
  more := by
    rintro rfl
    obtain ⟨t, last, ht⟩ := (ok.wellFormed.terminated b h.mem_layout).last
    rw [h.body, List.getLast?_concat] at last
    cases last
    exact absurd ht (by simp [fits.1])
  lacks v missing := by
    cases hr : i.result with
    | none =>
      have missing : env[v]? = none := by
        rw [hr] at missing
        cases result <;> exact missing
      obtain ⟨lacks, undefined⟩ := h.lacks v missing
      exact ⟨lacks, by simpa [hr] using undefined⟩
    | some r =>
      have produces := fits.2 (ok.productive b i h.mem_body (by rw [hr]; rfl))
      obtain ⟨a, rfl⟩ := Option.isSome_iff_exists.mp produces
      rw [hr] at missing
      have missing := TreeMap.getElem?_insert_iff.symm.trans missing
      split at missing
      · cases missing
      · next ne =>
        obtain ⟨lacks, undefined⟩ := h.lacks v missing
        exact ⟨lacks, by simp [hr, undefined, ne]⟩
  given v hv := by
    have there := h.given v hv
    cases result with
    | none => exact there
    | some a =>
      cases i.result with
      | none => exact there
      | some r =>
        intro missing
        have missing := TreeMap.getElem?_insert_iff.symm.trans missing
        split at missing
        · cases missing
        · exact there missing

omit ok in
theorem rest_eq_nil (h : f.Sound b done (i :: rest) env) (shaped : f.Shaped)
    (last : i.op.isTerminator = true) : rest = [] :=
  shaped.rest_eq_nil h.mem_layout h.body last

theorem results_eq (h : f.Sound c done [i] env) (hb : b ∈ i.op.targets) :
    results (f.body c) = results done := by
  have none : i.result = none := by
    by_contra some
    have produces := ok.productive c i h.mem_body (Option.isSome_iff_ne_none.mpr some)
    revert hb produces
    cases i.op <;> simp [Op.targets, Op.producesValue]
  rw [h.body]
  simp [none]

omit ok in
theorem successor (h : f.Sound c done [i] env) (hb : b ∈ i.op.targets) : b ∈ f.successors c :=
  mem_successors_of_target h.body hb

/-- The incoming values of the next block are defined. -/
theorem ready (h : f.Sound c done [i] env) (hb : b ∈ i.op.targets) :
    ∀ j ∈ (f.block b).phis, ∃ a, env.incoming? c j = some a := by
  intro j hj
  have edge := h.successor hb
  have mem_b := ok.wellFormed.successor_mem h.mem_layout edge
  have mem_j : j ∈ f.body b := (List.takeWhile_sublist _).subset hj
  obtain ⟨pairs, hop⟩ : ∃ pairs, j.op = .phi pairs := Op.isPhi_iff.1 (isPhi_of_mem_takeWhile hj)
  have pred : c ∈ f.predecessors b := mem_predecessors_iff.2 ⟨h.mem_layout, edge⟩
  obtain ⟨x, taken, mem⟩ := ok.wellFormed.exists_incoming mem_b mem_j hop pred
  rw [Env.incoming?, taken, Option.bind_some, ← Option.ne_none_iff_exists']
  intro missing
  obtain ⟨v, rfl⟩ := Env.exists_of_operand?_eq_none missing
  obtain ⟨lacks, undefined⟩ := h.lacks v missing
  rw [← h.results_eq ok hb] at undefined
  exact h.given v (ok.strict.incoming b mem_b v c ⟨j, mem_j, pairs, hop, mem⟩ lacks undefined) missing

theorem nodup_phis (hb : b ∈ f.layout) : (results (f.block b).phis).Nodup :=
  ((((nodup_defined_iff ok.coherent.nodup).mp ok.wellFormed.once).1 b hb).sublist
    ((List.takeWhile_sublist _).filterMap _))

theorem jump (h : f.Sound c done [i] env) (hb : b ∈ i.op.targets) :
    f.Sound b (f.block b).phis (f.block b).afterPhis (env.merge c (f.block b).phis) := by
  have edge := h.successor hb
  have mem_b := ok.wellFormed.successor_mem h.mem_layout edge
  have ready := h.ready ok hb
  have undefined : ∀ v, (env.merge c (f.block b).phis)[v]? = none →
      env[v]? = none ∧ v ∉ results (f.block b).phis := by
    intro v none
    have fresh : v ∉ results (f.block b).phis := by
      intro hv
      obtain ⟨j, hj, hr⟩ := mem_results_iff.1 hv
      obtain ⟨a, ha⟩ := ready j hj
      rw [Env.merge_of_mem ready (nodup_phis ok mem_b) hj hr, ha] at none
      cases none
    exact ⟨by rwa [Env.merge_of_not_mem ready fresh] at none, fresh⟩
  refine ⟨.step h.reachable edge mem_b, List.takeWhile_append_dropWhile.symm,
    ok.wellFormed.phisLead b mem_b, ok.wellFormed.afterPhis_ne_nil mem_b, fun v none => ?_,
    fun v hv none => ?_⟩
  · obtain ⟨none, fresh⟩ := undefined v none
    obtain ⟨lacks, passed⟩ := h.lacks v none
    exact ⟨.step lacks (by rwa [h.results_eq ok hb]) edge, fresh⟩
  · exact h.given v hv (undefined v none).1

end Sound

theorem Checked.sound_entry (ok : f.Checked) (none : (f.block f.entry).phis = [])
    (given : ∀ v ∈ f.params, env[v]? ≠ .none) :
    f.Sound f.entry [] (f.block f.entry).afterPhis env := by
  have entry := ok.wellFormed.entry_mem
  refine ⟨.refl entry, ?_, ok.wellFormed.phisLead _ entry, ok.wellFormed.afterPhis_ne_nil entry,
    fun v _ => ⟨.entry, by simp⟩, given⟩
  have split : (f.block f.entry).phis ++ (f.block f.entry).afterPhis = f.body f.entry :=
    List.takeWhile_append_dropWhile
  rw [← split, none]

end Function

theorem beginRun_eq {σ : Type} (f : Function) {args : List Value} (s : State σ)
    (count : args.length = f.params.length) :
    ∃ env : Env, (∀ v ∈ f.params, env[v]? ≠ none) ∧ ∀ g : Function, g.params = f.params →
      beginRun g args s = .ofEnter (Exec.enter g none g.entry { s with env }) := by
  refine ⟨(f.params.zip args).foldl (fun env m => env.insert m.1 m.2) ∅, fun v hv => ?_, fun g hg => ?_⟩
  · refine Env.getElem?_foldl_insert_ne_none (.inl ?_)
    rwa [List.map_fst_zip count.ge]
  · unfold beginRun
    rw [hg, if_neg (not_not_intro count)]

end CheckpointRestart
