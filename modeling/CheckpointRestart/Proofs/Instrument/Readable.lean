import CheckpointRestart.Proofs.Instrument.Keeping
import CheckpointRestart.Proofs.Instrument.WritableRepair
import CheckpointRestart.Proofs.Program.Reader.Programs

/-! # Instrumented programs are read again

A function that was read can be written, and stays so through every step of instrumentation: the
sizes of extents, the splitting of merges, the code of sites, the dispatch and the repair. Since the
result is well-formed, its text is read again.
-/

namespace CheckpointRestart

open CheckpointRestart.Function

variable {f f' : Function}

/-! ## What was read -/

namespace Reader.Typed

variable {g : Function} {untyped : List (Nat × ValueId)} (h : Typed g f untyped)

include h

theorem writable (scalar : ∀ b v o x y, ⟨some v, .binary o x y⟩ ∈ f.body b → (f.valueType v).isPointer = false) :
    ∃ rank, (∀ v, 0 < rank v) ∧ f.Writable (fun _ => True) [] rank := by
  obtain ⟨rank, -, -, follows⟩ := h.exists_rank
  have co : f.Coherent := h.numbered.coherent
  refine ⟨fun v => rank v + 1, fun v => Nat.succ_pos _, co, h.wellFormed.nonempty,
    h.frame.1.named h.transcript.named, h.legal, fun v _ _ => Nat.succ_pos _, fun b i hi => ?_, fun v lt _ => ?_⟩
  · have hb := co.mem_layout_of_mem_body hi
    have recorded := h.recorded hi
    refine ⟨fun x hx => ?_, recorded.callee, fun v hv => ?_, fun v hv => ?_, fun v hv o x y e => ?_⟩
    · have holds := recorded.operands x hx
      cases x with
      | value v => trivial
      | const c => exact holds
    · rw [← mem_valueIds_iff, ← h.numbered.named]
      exact mem_named_of_result hb hi hv
    · exact (follows b hb i hi v hv).mono rfl (fun _ _ => rfl) fun _ _ lt => Nat.succ_lt_succ lt
    · obtain ⟨result, op⟩ := i
      subst hv e
      exact scalar b v o x y hi
  · have hv : v ∈ f.named := by rwa [h.numbered.named, mem_valueIds_iff]
    exact ((Writable.mem_named_iff co).mp hv).imp_right .inr

theorem usesOld : f.UsesOld f.values.size := fun _ _ hi _ _ hv =>
  (h.recorded hi).operands _ (Op.mem_usedValues_iff.1 hv)

theorem productive : f.Productive := fun _ _ hi some => (h.recorded hi).productive ▸ some

end Reader.Typed

/-! ## Instrumentation -/

/-- A heading that can be written. -/
structure Function.Headed (f : Function) : Prop where
  name : Text.isIdentifier f.name.toList = true
  nodup : f.params.Nodup
  params : ∀ p ∈ f.params, p.index < f.values.size ∧ (f.valueType p).isVoid = false
  returns : f.returns.Legal

theorem Function.Headed.advances {merged : ValueId → Prop} (h : f.Headed) (step : Advances merged f f') :
    f'.Headed := by
  refine ⟨step.name ▸ h.name, step.params ▸ h.nodup, fun p hp => ?_, step.returns ▸ h.returns⟩
  obtain ⟨lt, typed⟩ := h.params p (step.params ▸ hp)
  exact ⟨lt.trans_le step.size, (step.types p lt).symm ▸ typed⟩

theorem Function.Legible.headed (h : f.Legible) (co : f.Coherent) : f.Headed :=
  ⟨h.name, (List.nodup_append.mp h.nodup_named).1, fun p hp => ⟨co.params p hp, (h.params p hp).2⟩, h.returns⟩

namespace Instruments

variable {config : InstrumentConfig} {e : Extents} {g : Function} {reports : List SiteReport} {n : Nat}
  {known : ValueId → Prop} {rank : ValueId → Nat}

theorem beforeSites (h : Instruments config f e g reports f') (co : f.Coherent)
    (writable : e.Writable f.values.size known rank g) :
    ∃ known, Insertion.Writable f.values.size known rank e (g.splitMerges.2.pointerOps e) g.splitMerges.2 .empty ∧
      ∀ site ∈ e.sites g, ∀ v ∈ site.live, known v := by
  obtain ⟨within, found⟩ := within_findExtents h.extents
  have split : Advances (fun _ => True) g g.splitMerges.2 := .splitMerges g
  have function := writable.function.splitMerges.recognize
  have extents := writable.map.mono fun v (hv : known v) =>
    (.inl hv : known v ∨ ∃ b, v ∈ results (g.splitMerges.2.body b))
  have given : ∀ v ∈ g.splitMerges.2.params, known v := by
    intro v hv
    rw [split.params, found.params] at hv
    exact writable.old v (co.params v hv)
  refine ⟨_, ⟨function, fun v hv => .inl (writable.new v (split.size.trans hv)),
    fun v hv => .inl (writable.old v hv), fun v hv => .inl (given v hv), within.advances split, extents,
    fun v op found => ?_, ⟨by simp [Insertion.empty, Slots.empty], by simp [Insertion.empty, Slots.empty]⟩,
    by simp [Insertion.empty]⟩, fun site chosen v hv => ?_⟩
  · obtain ⟨b, hi⟩ := mem_body_of_pointerOps found
    exact function.code b _ hi
  · refine function.known_of_mem_live (fun v hv => ?_) extents (fun v hv => .inl (writable.old v hv)) chosen hv
    exact hv.imp_left (given v)

theorem legible (h : Instruments config f e g reports f') {first : Function} {untyped : List (Nat × ValueId)}
    (typed : Reader.Typed first f untyped) : ∃ rank, f'.Legible ∧ f'.Typable rank := by
  have co : f.Coherent := typed.numbered.coherent
  obtain ⟨-, found⟩ := within_findExtents h.extents
  have headed := (typed.legible.headed co).advances found
  obtain ⟨seeds, _, collected, -⟩ := run_bind_eq_ok_iff.1 h.extents
  obtain ⟨rank, pos, start⟩ := typed.writable fun b v o x y hi => Seeds.scalar_of_collect collected co hi
  obtain ⟨known, extents⟩ := Extents.Writable.findExtents pos start typed.usesOld h.extents
  have finish {known : ValueId → Prop} {rank : ValueId → Nat} (headed : f'.Headed)
      (writable : f'.Writable known [] rank) : ∃ rank, f'.Legible ∧ f'.Typable rank :=
    ⟨rank, writable.legible h.wellFormed headed.name headed.nodup (fun p hp => (headed.params p hp).2)
      headed.returns, writable.typable⟩
  rcases insertSites_run h.sites with ⟨-, -, rfl⟩ | ⟨-, s, k, run, -, e⟩
  · have split : Advances g.IsMerged g g.splitMerges.2 := .splitMerges g
    exact finish (headed.advances split) extents.function.splitMerges
  · obtain ⟨known, before, live⟩ := h.beforeSites co extents
    obtain ⟨rank, sites⟩ := before.foldlM_insertSite live run
    obtain ⟨rank', embeds, dispatched⟩ := sites.dispatch
    obtain ⟨step, restoring⟩ : Advances g.IsMerged g (k.dispatch s) ∧ _ := h.dispatched run
    obtain ⟨known', rank'', repaired⟩ := dispatched.repairDominance
      (fun v hv => sites.new v (embeds.size.trans hv)) (step.regular (h.regular co typed.productive))
      (fun v hv => (h.index_of_isMerged co typed.productive hv).trans_le step.size) restoring
      (fun b m hm => (sites.redefined b m hm).mono embeds) config.keepRedundant
    rw [← e] at repaired
    exact finish ((headed.advances step).advances repaired.advances) repaired.function

end Instruments

/-! ## Programs -/

namespace Program

open Reader

variable {p q : Program} {text name : String} {config : InstrumentConfig} {reports : List SiteReport}

theorem instrument_run (run : p.instrument name config = .ok (reports, q)) :
    ∃ f ∈ p.functions, ∃ f', CheckpointRestart.instrument config f = .ok reports f' ∧ q = p.replaceFunction f' := by
  unfold Program.instrument at run
  split at run
  · cases run
  · next f found =>
    refine ⟨f, List.mem_of_find?_eq_some found, ?_⟩
    cases e : CheckpointRestart.instrument config f with
    | ok reports' f' =>
      have done : (CheckpointRestart.instrument config).perform f = (.ok reports', f') := by
        rw [Edit.perform, EStateM.run, e]
      rw [done] at run
      cases run
      exact ⟨f', rfl, rfl⟩
    | error fault f' =>
      have done : (CheckpointRestart.instrument config).perform f = (.error fault, f') := by
        rw [Edit.perform, EStateM.run, e]
      rw [done] at run
      cases run

theorem names_replaceFunction (p : Program) (f : Function) :
    (p.replaceFunction f).functions.map (·.name) = p.functions.map (·.name) := by
  rw [replaceFunction, List.map_map]
  refine List.map_congr_left fun g _ => ?_
  rw [Function.comp_apply]
  split
  · next same => exact (beq_iff_eq.mp same).symm
  · rfl

/-- A function that was read, or what instrumentation makes of one, is read again. -/
theorem legible_of_instrument (read : Program.read text = .ok p)
    (run : p.instrument name config = .ok (reports, q)) {g : Function} (hg : g ∈ q.functions) :
    g.Legible ∧ Rereads (fun g h => h.render = g.render) g := by
  obtain ⟨typed, -⟩ := typed_of_read read
  obtain ⟨f, hf, f', done, rfl⟩ := instrument_run run
  obtain ⟨g', hg', e⟩ := List.mem_map.mp hg
  split at e
  · subst e
    obtain ⟨first, untyped, h⟩ := typed f hf
    obtain ⟨e, k, steps⟩ := CheckpointRestart.instrument_run done
    obtain ⟨rank, legible, typable⟩ := steps.legible h
    exact ⟨legible, fun _ _ => function_text legible steps.wellFormed typable⟩
  · subst e
    obtain ⟨first, untyped, h⟩ := typed g' hg'
    refine ⟨h.legible, fun first body head lines => ?_⟩
    obtain ⟨read, same⟩ := h.function_canonical head lines
    exact ⟨_, read, rfl, same⟩

/-- Reading what is written of a program that was read gives it again, with canonical constants.
What is written of it once it is instrumented is read too, and is what is written of the outcome. -/
theorem read_render (run : read text = .ok p) :
    (read p.render = .ok p.canonical ∧ p.canonical.render = p.render) ∧
      ∀ name config reports q, p.instrument name config = .ok (reports, q) →
        ∃ q', read q.render = .ok q' ∧ q'.render = q.render := by
  refine ⟨read_canonical run, fun name config reports q done => ?_⟩
  have all {g : Function} (hg : g ∈ q.functions) := legible_of_instrument run done hg
  have distinct : (q.functions.map (·.name)).Nodup := by
    obtain ⟨f, -, f', -, rfl⟩ := instrument_run done
    rw [names_replaceFunction]
    exact (typed_of_read run).2
  obtain ⟨q', read, same⟩ := read_of_rereads (fun g hg => (all hg).1) (fun g hg => (all hg).2) distinct
  have texts : q'.functions.map Function.render = q.functions.map Function.render :=
    map_eq_map_of_forall₂ (fun _ _ h => h) same
  exact ⟨q', read, congrArg (String.intercalate "\n") texts⟩

/-- A loop that counts up to `n`. A checkpoint is taken each time it comes round. -/
def counting : String :=
  "fn f(%n: i8) -> i8 \x7b\na:\n  br b\nb:\n  %i = phi i8 [i8 0, a], [%j, c]\n  %d = cmp ge %i, %n\n" ++
    "  condbr %d, e, c\nc:\n  %j = add %i, i8 1\n  br b\ne:\n  ret %i\n\x7d\n"

theorem read_render_counting : ∃ p, read counting = .ok p ∧
    (read p.render = .ok p.canonical ∧ p.canonical.render = p.render) ∧
    ∃ reports q, p.instrument "f" ⟨false, false⟩ = .ok (reports, q) ∧ reports.length = 1 ∧
      ∃ q', read q.render = .ok q' ∧ q'.render = q.render := by
  have runs : ((read counting).toOption.bind fun p =>
      (p.instrument "f" ⟨false, false⟩).toOption.map (·.1.length)) = some 1 := by decide +kernel
  obtain ⟨p, found, runs⟩ := Option.bind_eq_some_iff.mp runs
  obtain ⟨⟨reports, q⟩, done, one⟩ := Option.map_eq_some_iff.mp runs
  have run := eq_ok_of_toOption found
  have done := eq_ok_of_toOption done
  obtain ⟨again, instrumented⟩ := read_render run
  exact ⟨p, run, again, reports, q, done, one, instrumented "f" ⟨false, false⟩ reports q done⟩

end Program

end CheckpointRestart
