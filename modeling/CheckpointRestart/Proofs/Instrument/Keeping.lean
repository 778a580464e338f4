import CheckpointRestart.Instrument.Basic
import CheckpointRestart.Proofs.Instrument.Repair
import CheckpointRestart.Proofs.Machine.Provenance

/-! # With and without redundant merges

Whether the repair keeps its redundant merges makes no difference to what the instrumented function
does. If it does not keep them, none is left.
-/

namespace CheckpointRestart

open CheckpointRestart.Function

variable {f f' : Function}

/-- What instrumentation takes pointers to be equal by. -/
def InstrumentConfig.oracle (config : InstrumentConfig) (f : Function) : AliasOracle :=
  if config.conservative then .conservative else .ofRoots f.roots

/-- The sites of a function with known extents, once its merges are split. -/
def Extents.sites (e : Extents) (f : Function) : List Site :=
  (Liveness.compute (f.splitMerges.2.summarize f.splitMerges.1
    (e.companions (Scope.ofFunction f.splitMerges.2)))).sites

theorem liftStructure_eq_ok {r : Except StructureFault Unit} {u : Unit}
    (run : liftStructure r f = .ok u f') : r = .ok () ∧ f' = f := by
  cases r with
  | ok _ =>
    cases run
    exact ⟨rfl, rfl⟩
  | error fault => exact absurd run run_throw_ne_ok

theorem liftScoping_eq_ok {r : Except ScopeFault Unit} {u : Unit}
    (run : liftScoping r f = .ok u f') : r = .ok () ∧ f' = f := by
  cases r with
  | ok _ =>
    cases run
    exact ⟨rfl, rfl⟩
  | error fault => exact absurd run run_throw_ne_ok

/-- The steps of a successful instrumentation. -/
structure Instruments (config : InstrumentConfig) (f : Function) (e : Extents) (g : Function)
    (reports : List SiteReport) (f' : Function) : Prop where
  before : f.WellFormed
  new : f.isInstrumented = false
  extents : findExtents (config.oracle f) f = .ok e g
  sites : insertSites e (e.sites g) config.keepRedundant g.splitMerges.2 = .ok reports f'
  wellFormed : f'.WellFormed
  strict : f'.Strict

theorem instrument_run {config : InstrumentConfig} {reports : List SiteReport}
    (run : instrument config f = .ok reports f') : ∃ e g, Instruments config f e g reports f' := by
  unfold instrument at run
  rw [run_get_bind] at run
  obtain ⟨_, f₁, first, run⟩ := run_bind_eq_ok_iff.1 run
  obtain ⟨valid, e₁⟩ := liftStructure_eq_ok first
  subst e₁
  split at run
  · obtain ⟨_, _, run, _⟩ := run_bind_eq_ok_iff.1 run
    exact absurd run run_throw_ne_ok
  next new =>
  obtain ⟨e, g, extents, run⟩ := run_bind_eq_ok_iff.1 run
  rw [run_modifyGet_bind, run_get_bind] at run
  obtain ⟨reports', f₂, sites, run₂⟩ := run_bind_eq_ok_iff.1 run
  rw [run_get_bind] at run₂
  obtain ⟨_, f₃, second, run₃⟩ := run_bind_eq_ok_iff.1 run₂
  obtain ⟨valid', rfl⟩ := liftStructure_eq_ok second
  rw [run_get_bind] at run₃
  obtain ⟨_, f₄, third, run₄⟩ := run_bind_eq_ok_iff.1 run₃
  obtain ⟨checked, rfl⟩ := liftScoping_eq_ok third
  obtain ⟨rfl, rfl⟩ := run_pure_eq_ok_iff.1 run₄
  have wellFormed := validate_eq_ok_iff.1 valid'
  exact ⟨e, g, validate_eq_ok_iff.1 valid, by simpa using new, extents, sites, wellFormed,
    (checkScoping_eq_ok_iff wellFormed).mp checked⟩

theorem insertSites_run {e : Extents} {sites : List Site} {keep : Bool} {reports : List SiteReport}
    (run : insertSites e sites keep f = .ok reports f') :
    (sites = [] ∧ reports = [] ∧ f' = f) ∨ sites ≠ [] ∧ ∃ s k,
      sites.foldlM (insertSite e (f.pointerOps e)) .empty f = .ok s k ∧ reports = s.reports ∧
      f' = (k.dispatch s).repairDominance s.redefined keep := by
  unfold insertSites at run
  split at run
  · next none =>
    obtain ⟨rfl, rfl⟩ := run_pure_eq_ok_iff.1 run
    exact .inl ⟨by simpa using none, rfl, rfl⟩
  · next some =>
    rw [run_get_bind] at run
    obtain ⟨s, k, sites, run⟩ := run_bind_eq_ok_iff.1 run
    rw [run_modify_bind] at run
    obtain ⟨rfl, rfl⟩ := run_pure_eq_ok_iff.1 run
    exact .inr ⟨by simpa using some, s, k, sites, rfl, rfl⟩

/-- A value that is merged in `f`. -/
def Function.IsMerged (f : Function) (v : ValueId) : Prop :=
  ∃ b, ∃ i ∈ f.body b, i.op.isPhi = true ∧ i.result = some v

theorem Function.MergesOnly.isMerged {d : BlockId} {m : ValueId} {y : Operand}
    (h : f.MergesOnly d m y) : f.IsMerged m := by
  obtain ⟨i, hi, hr, pairs, hop, -⟩ := h.phi
  exact ⟨d, i, hi, by rw [hop]; rfl, hr⟩

namespace Instruments

variable {config : InstrumentConfig} {e : Extents} {g : Function} {reports : List SiteReport}

theorem regular (h : Instruments config f e g reports f') (co : f.Coherent)
    (productive : f.Productive) : g.Regular g.IsMerged := by
  have start : f.Regular fun _ => True :=
    (co.regular h.before productive).mono fun _ _ _ => trivial
  have regular := (within_findExtents h.extents).2.regular start
  refine ⟨regular.coherent, fun b i hi r hr => ?_⟩
  obtain ⟨lt, produces, -⟩ := regular.proper b i hi r hr
  exact ⟨lt, produces, fun phi => ⟨b, i, hi, phi, hr⟩⟩

theorem index_of_isMerged (h : Instruments config f e g reports f') (co : f.Coherent)
    (productive : f.Productive) {v : ValueId} (hv : g.IsMerged v) : v.index < g.values.size := by
  obtain ⟨b, i, hi, -, hr⟩ := hv
  exact ((h.regular co productive).proper b i hi v hr).1

/-- All that is added before the repair is regular, and nothing more is merged. -/
theorem dispatched (h : Instruments config f e g reports f') {merged : ValueId → Prop} {s : Insertion}
    {k : Function} (run : (e.sites g).foldlM (insertSite e (g.splitMerges.2.pointerOps e)) .empty
      g.splitMerges.2 = .ok s k) :
    Advances merged g (k.dispatch s) ∧
      ∀ (b : BlockId) m, s.redefined[b]? = some m → Restoring (k.dispatch s) m := by
  have split : Advances merged g g.splitMerges.2 := .splitMerges g
  obtain ⟨inserted, sites⟩ := within_foldlM_insertSite
    ((within_findExtents h.extents).1.advances split) run
  have dispatched : Advances merged k (k.dispatch s) := .dispatch inserted
  exact ⟨(split.trans sites).trans dispatched, fun b m hm => (inserted.redefined b m hm).advances dispatched⟩

/-- What the repair comes to. -/
theorem repaired (h : Instruments config f e g reports f') (co : f.Coherent)
    (productive : f.Productive) {s : Insertion} {k : Function}
    (run : (e.sites g).foldlM (insertSite e (g.splitMerges.2.pointerOps e)) .empty
      g.splitMerges.2 = .ok s k) :
    ∃ added, Repair.Connected g.IsMerged (k.dispatch s).values.size added
        ((k.dispatch s).repairDominance s.redefined true) ∧
      (k.dispatch s).repairDominance s.redefined false =
        ((k.dispatch s).repairDominance s.redefined true).dropAllRedundant (added.length + 1)
          added := by
  obtain ⟨step, restoring⟩ : Advances g.IsMerged g (k.dispatch s) ∧ _ := h.dispatched run
  exact repairDominance_cases (step.regular (h.regular co productive))
    (fun v hv => (h.index_of_isMerged co productive hv).trans_le step.size) restoring

end Instruments

/-- Whether or not redundant merges of the repair are kept, the instrumented function does the same.
If they are not kept, a redundant merge was one before the repair. -/
theorem instrument_keepRedundant {conservative : Bool} {f f₁ f₂ : Function}
    {reports₁ reports₂ : List SiteReport} (co : f.Coherent) (productive : f.Productive)
    (dropping : instrument ⟨conservative, false⟩ f = .ok reports₁ f₁)
    (keeping : instrument ⟨conservative, true⟩ f = .ok reports₂ f₂) :
    (∀ {σ : Type} [Storage σ] (config : RunConfig) (args : List Value) (s : State σ),
      Alike (runFunction f₁ config args s) (runFunction f₂ config args s)) ∧
    (∀ {σ : Type} [Storage σ] (config : RunConfig) (args : List String) (s : State σ),
      Alike (runMain f₁ config args s) (runMain f₂ config args s)) ∧
    ∃ e g, findExtents (InstrumentConfig.oracle ⟨conservative, false⟩ f) f = .ok e g ∧
      ∀ d m y, f₁.MergesOnly d m y → g.IsMerged m := by
  obtain ⟨e, g, h₁⟩ := instrument_run dropping
  obtain ⟨e', g', h₂⟩ := instrument_run keeping
  obtain ⟨rfl, rfl⟩ : e = e' ∧ g = g' := by
    simpa using h₁.extents.symm.trans h₂.extents
  rcases insertSites_run h₁.sites with ⟨none, -, rfl⟩ | ⟨some, s, k, run, -, rfl⟩
  · rcases insertSites_run h₂.sites with ⟨-, -, rfl⟩ | ⟨some, -⟩
    · refine ⟨fun config args s => .refl _, fun config args s => .refl _, e, g, h₁.extents,
        fun d m y only => ?_⟩
      have split : Advances g.IsMerged g g.splitMerges.2 := .splitMerges g
      obtain ⟨b, i, hi, phi, hr⟩ := only.isMerged
      exact ((split.regular (h₁.regular co productive)).proper b i hi m hr).2.2 phi
    · exact absurd none some
  · rcases insertSites_run h₂.sites with ⟨none, -⟩ | ⟨-, s', k', run', -, rfl⟩
    · exact absurd none some
    obtain ⟨rfl, rfl⟩ : s = s' ∧ k = k' := by simpa using run.symm.trans run'
    obtain ⟨added, connected, drops⟩ := h₁.repaired co productive run
    have checked : Function.Checked ((k.dispatch s).repairDominance s.redefined true) :=
      ⟨connected.regular.coherent, h₂.wellFormed, h₂.strict, fun b i hi => connected.regular.productive hi⟩
    obtain ⟨-, same, left, none⟩ := dropAllRedundant_spec (added.length + 1) (Nat.lt_succ_self _)
      checked fun m hm => connected.droppable h₂.wellFormed hm
    rw [← drops] at same left none
    refine ⟨fun config args s => (same.function config args s).symm,
      fun config args s => (same.main config args s).symm, e, g, h₁.extents, fun d m y only => ?_⟩
    -- whatever is merged in the end was merged before the repair, or is one of its merges
    obtain ⟨b, i, hi, phi, hr⟩ := only.isMerged
    obtain ⟨j, hj, kin⟩ := left b i hi
    have proper := connected.regular.proper b j hj m (kin.result ▸ hr)
    rcases proper.2.2 (kin.isPhi ▸ phi) with old | new
    · exact old
    · obtain ⟨z, hz, rfl⟩ := List.mem_map.mp new
      exact absurd only (none z hz d y)

/-- Comes to a loop that depends on the result of an operation. -/
def waiting (op : Op) : Function where
  name := "waiting"
  params := []
  returns := .void
  values := #[⟨"u", .int 1⟩, ⟨"i", .int 1⟩]
  blocks := #[
    ⟨"entry", [.define ⟨0⟩ op, .effect (.br ⟨1⟩)]⟩,
    ⟨"first", [.effect (.call "print" [.const (.int 32 2)]), .effect (.br ⟨2⟩)]⟩,
    ⟨"loop", [
      .define ⟨1⟩ (.phi [(.const (.int 1 0), ⟨1⟩), (.const (.int 1 0), ⟨2⟩)]),
      .effect (.condBr (.value ⟨0⟩) ⟨2⟩ ⟨3⟩)]⟩,
    ⟨"exit", [.effect (.ret none)]⟩]
  layout := [⟨0⟩, ⟨1⟩, ⟨2⟩, ⟨3⟩]

theorem instrument_keepRedundant_waiting :
    let f := waiting (.compare .lt (.const (.int 32 2)) (.const (.int 32 1)))
    ∃ reports₁ f₁ reports₂ f₂, instrument ⟨false, false⟩ f = .ok reports₁ f₁ ∧
      instrument ⟨false, true⟩ f = .ok reports₂ f₂ ∧
      Alike (runMain f₁ {} [] blankState) (runMain f₂ {} [] blankState) := by
  intro f
  have coherent : f.Coherent := by decide
  have productive : f.Productive := coherent.productive (by decide)
  have done : ∀ keep, ((instrument ⟨false, keep⟩).perform f).1.toOption.isSome = true := by
    decide +kernel
  obtain ⟨reports₁, dropping⟩ := Option.isSome_iff_exists.mp (done false)
  obtain ⟨reports₂, keeping⟩ := Option.isSome_iff_exists.mp (done true)
  have dropping := Edit.run_of_perform dropping
  have keeping := Edit.run_of_perform keeping
  exact ⟨_, _, _, _, dropping, keeping,
    (instrument_keepRedundant coherent productive dropping keeping).2.1 {} [] blankState⟩

/-- A merge of a value that its instruction does not produce fails where the value is not needed. -/
theorem output_ne_of_waiting :
    let f := waiting (.call "print" [.const (.int 32 1)])
    ∃ reports₁ f₁ reports₂ f₂, instrument ⟨false, false⟩ f = .ok reports₁ f₁ ∧
      instrument ⟨false, true⟩ f = .ok reports₂ f₂ ∧
      (runMain f₁ {} [] blankState).2.output = #["1", "2"] ∧
      (runMain f₂ {} [] blankState).2.output = #["1"] := by
  intro f
  have done : ∀ keep, ((instrument ⟨false, keep⟩).perform f).1.toOption.isSome = true ∧
      (runMain ((instrument ⟨false, keep⟩).perform f).2 {} [] blankState).2.output =
        if keep then #["1"] else #["1", "2"] := by
    decide +kernel
  obtain ⟨reports₁, dropping⟩ := Option.isSome_iff_exists.mp (done false).1
  obtain ⟨reports₂, keeping⟩ := Option.isSome_iff_exists.mp (done true).1
  exact ⟨_, _, _, _, Edit.run_of_perform dropping, Edit.run_of_perform keeping, (done false).2,
    (done true).2⟩

end CheckpointRestart
