import CheckpointRestart.Proofs.Flow.Paths
import CheckpointRestart.Proofs.Instrument.Insertion
import CheckpointRestart.Proofs.Instrument.Site
import CheckpointRestart.Proofs.Machine.Safety
import CheckpointRestart.Proofs.Machine.Steps

/-! # Live values are defined

Once the extents of its pointers are found and its merge blocks are split, a function is analysed
for what is live. A live value is a parameter or is defined in a block that dominates the place
where it is live, so that every run that comes to a site has the values that the site lists.
-/

namespace CheckpointRestart

open CheckpointRestart.Function

namespace Function

variable {f : Function} {b p : BlockId} {v : ValueId}

/-- `v` is a parameter, or some block of the given kind defines it. -/
def Defined (f : Function) (v : ValueId) (kind : BlockId → Prop) : Prop :=
  v ∈ f.params ∨ ∃ d, v ∈ results (f.body d) ∧ kind d

/-- What is not lacking at the start of a block is defined in a block that strictly dominates it. -/
theorem Shaped.defined_of_not_lacks (shaped : f.Shaped) (reach : f.Reachable b)
    (missing : v ∉ f.params → ¬ f.Lacks v b) :
    f.Defined v fun d => d ≠ b ∧ f.Dominates d b := by
  by_cases given : v ∈ f.params
  · exact .inl given
  · have before := (Scope.definedBefore_iff shaped reach (n := 0)).mpr
      (.inr fun lacks => missing given lacks.1)
    rw [Scope.definedBefore, Bool.or_eq_true, List.contains_iff_mem] at before
    have before := before.resolve_left given
    cases found : (Scope.ofFunction f).definition? v with
    | none =>
      rw [found] at before
      cases before
    | some l =>
      rw [found] at before
      have at_l := (Scope.definition?_eq_some_iff shaped).mp found
      dsimp only at before
      split at before
      · simp at before
      · exact .inr ⟨l.block, at_l.mem_results, ‹_›, shaped.dominates_iff.1 before⟩

theorem Shaped.defined_of_atHandAt (shaped : f.Shaped) (reach : f.Reachable p)
    (ready : f.AtHandAt ⟨p, none⟩ v) : f.Defined v (f.Dominates · p) := by
  have there : (Scope.ofFunction f).available ⟨p, none⟩ v = true :=
    (Scope.available_iff shaped reach).mpr ready
  rw [Scope.available, Bool.or_eq_true, List.contains_iff_mem] at there
  rcases there with given | there
  · exact .inl given
  · cases found : (Scope.ofFunction f).definition? v with
    | none =>
      rw [found] at there
      cases there
    | some l =>
      rw [found] at there
      have at_l := (Scope.definition?_eq_some_iff shaped).mp found
      exact .inr ⟨l.block, at_l.mem_results, shaped.dominates_iff.1 there⟩

end Function

namespace Ready

variable {n : Nat} {f : Function} {e : Extents} {merges : BlockSet} {b : BlockId} {u : Use}

variable (live : (f.summarize merges (companions f e)).Live b u)

include live

theorem defined_of_ordinary (h : Ready n f e) (reach : f.Reachable b) (ordinary : u.source = none) :
    f.Defined u.value fun d => d ≠ b ∧ f.Dominates d b := by
  obtain ⟨w, source⟩ := u
  cases ordinary
  exact h.wellFormed.toShaped.defined_of_not_lacks reach fun given =>
    h.not_lacks_of_live reach given live

theorem defined_of_incoming (h : Ready n f e) (hb : b ∈ f.layout) {p : BlockId}
    (incoming : u.source = some p) (reach : f.Reachable p) :
    f.Defined u.value (f.Dominates · p) := by
  have wanted := (wanted_of_live h.wellFormed hb live).2 p incoming
  exact h.wellFormed.toShaped.defined_of_atHandAt reach (h.atHandAt_of_wanted reach wanted)

theorem source_eq_none (hb : b ∈ f.layout) (plain : ∀ i ∈ f.body b, i.op.isPhi = false) :
    u.source = none := by
  cases live with
  | here use =>
    rw [node_summarize hb, mem_uses_node_iff] at use
    obtain ⟨k, i, hi, makes, -⟩ := use
    rcases makes with ⟨-, source, -⟩ | ⟨pairs, _, _, hop, -⟩
    · exact source
    · have phi := plain i (List.mem_of_getElem? hi)
      rw [hop] at phi
      cases phi
  | later => rfl

end Ready

/-! ## Sites -/

/-- What is listed for a site is live there by ordinary uses. -/
theorem Ready.live_of_mem_sites {f : Function} {e : Extents} {merges : BlockSet} {site : Site}
    {v : ValueId} (split : SplitInto f merges)
    (chosen : site ∈ (Liveness.compute (f.summarize merges (companions f e))).sites)
    (listed : v ∈ site.live) : (f.summarize merges (companions f e)).Live site.block ⟨v, none⟩ := by
  obtain ⟨hb, plain, same⟩ := Liveness.of_mem_sites chosen
  rw [same] at listed
  obtain ⟨u, live, rfl⟩ := Liveness.mem_liveValues_iff.1 listed
  have live := (Liveness.mem_liveIn_compute_iff (f.coherent_summarize _ _)).mp live
  have outside : site.block ∉ merges := by
    intro inside
    change ((f.summarize merges (companions f e)).node site.block).isMerge = false at plain
    rw [node_summarize hb] at plain
    exact Bool.eq_false_iff.mp plain (Std.ExtTreeSet.contains_iff_mem.mpr inside)
  have ordinary := Ready.source_eq_none live hb (split.plain site.block hb outside)
  obtain ⟨w, source⟩ := u
  cases ordinary
  exact live

/-! ## Runs -/

section Runs

variable {σ : Type} [Storage σ] {f : Function} {config : RunConfig}

theorem Progress.Safe.advance (ok : f.Checked) {p : Progress σ} (h : p.Safe f) :
    (p.advance f config).Safe f := by
  cases p with
  | running c s =>
    obtain ⟨done, sound⟩ := h
    exact sound.safe_advance ok config
  | done r s => exact h

theorem Function.Checked.safe_run (ok : f.Checked)
    (plain : ∀ i ∈ f.body f.entry, i.op.isPhi = false) (config : RunConfig) (args : List Value)
    (s : State σ) (n : Nat) :
    ((Progress.advance f config)^[n] (beginRun f args s)).Safe f := by
  induction n with
  | zero =>
    by_cases count : args.length = f.params.length
    · obtain ⟨env, given, begin⟩ := beginRun_eq f s count
      have none : (f.block f.entry).phis = [] := takeWhile_of_plain plain
      rw [Function.iterate_zero_apply, begin f rfl, Exec.enter_none_run, none]
      exact ⟨_, ok.sound_entry none given⟩
    · rw [Function.iterate_zero_apply, beginRun, if_pos count]
      rintro _ ⟨⟩
      rfl
  | succ n ih =>
    rw [Function.iterate_succ_apply']
    exact ih.advance ok

end Runs

/-- What is live in a function whose extents are found and whose merge blocks are split is defined
there. An ordinary use is of a parameter or of what is defined in a block that strictly dominates
the place where it is live, a use by an edge of what is defined in a block that dominates the source
of the edge; and a run that comes to a site has all the values that the site lists, if every operation
with a result produces one. -/
theorem defined_of_liveIn {oracle : AliasOracle} {f f' g : Function} {e : Extents}
    {merges : BlockSet} {live : Liveness} (co : f.Coherent) (valid : f.validate = .ok ())
    (passes : f.checkScoping = .ok ()) (plain : ∀ i ∈ f.body f.entry, i.op.isPhi = false)
    (found : findExtents oracle f = .ok e f') (split : f'.splitMerges = (merges, g))
    (computed :
      Liveness.compute (g.summarize merges (e.companions (Scope.ofFunction g))) = live) :
    (∀ b, (∃ path, g.Path b path) → ∀ u ∈ live.liveIn b,
      (u.source = none → g.Defined u.value fun d => d ≠ b ∧ g.Dominates d b) ∧
      ∀ p, u.source = some p → (∃ path, g.Path p path) → g.Defined u.value (g.Dominates · p)) ∧
    ∀ site ∈ live.sites, (∃ path, g.Path site.block path) → ∀ v ∈ site.live,
      (g.Defined v fun d => d ≠ site.block ∧ g.Dominates d site.block) ∧
      (f.Productive → ∀ {σ : Type} [Storage σ] (config : RunConfig) (args : List Value)
        (s t : State σ) (n : Nat) (c : Control),
        (Progress.advance g config)^[n] (beginRun g args s) = .running c t →
          c.block = site.block → ∃ a, t.env[v]? = some a) := by
  obtain ⟨wf, prep, splitting⟩ := splitting_findExtents co valid passes plain found split
  have ready := prep.ready plain splitting.cuts
  have shaped := ready.wellFormed.toShaped
  subst computed
  refine ⟨fun b path u live => ?_, fun site chosen path v listed => ?_⟩
  · have reach := shaped.reachable_iff_path.2 path
    have live := (Liveness.mem_liveIn_compute_iff (g.coherent_summarize _ _)).mp live
    exact ⟨ready.defined_of_ordinary live reach, fun p incoming path =>
      ready.defined_of_incoming live reach.inside_end incoming (shaped.reachable_iff_path.2 path)⟩
  · have reach := shaped.reachable_iff_path.2 path
    have live := Ready.live_of_mem_sites splitting.splitInto chosen listed
    refine ⟨ready.defined_of_ordinary live reach rfl, ?_⟩
    intro productive σ _ config args s t n c run arrived
    have start : f.Regular fun _ => True := (co.regular wf productive).mono fun _ _ _ => trivial
    have regular := (Advances.splitMerges f').regular ((within_findExtents found).2.regular start)
    rw [split] at regular
    have ok : g.Checked :=
      ⟨ready.coherent, ready.wellFormed, ready.strict, fun b i hi => regular.productive hi⟩
    have safe := ok.safe_run ready.plain config args s n
    rw [run] at safe
    obtain ⟨done, sound⟩ := safe
    rw [← Option.ne_none_iff_exists']
    intro none
    have lacks := (sound.lacks v none).1
    rw [arrived] at lacks
    exact ready.not_lacks_of_live reach (fun given => sound.given v given none) live lacks

/-- Goes through a buffer of `n` bytes. One block is never entered. -/
def scanning : Function where
  name := "scanning"
  params := [⟨0⟩]
  returns := .void
  values := #[⟨"n", .int 32⟩, ⟨"p", .bytePtr⟩, ⟨"i", .int 32⟩, ⟨"x", .int 8⟩, ⟨"next", .int 32⟩,
    ⟨"more", .int 1⟩]
  blocks := #[
    ⟨"entry", [
      .define ⟨1⟩ (.malloc (.value ⟨0⟩)),
      .effect (.br ⟨1⟩)]⟩,
    ⟨"loop", [
      .define ⟨2⟩ (.phi [(.const (.int 32 0), ⟨0⟩), (.value ⟨4⟩, ⟨1⟩)]),
      .define ⟨3⟩ (.load (.value ⟨1⟩)),
      .define ⟨4⟩ (.binary .add (.value ⟨2⟩) (.const (.int 32 1))),
      .define ⟨5⟩ (.compare .lt (.value ⟨4⟩) (.value ⟨0⟩)),
      .effect (.condBr (.value ⟨5⟩) ⟨1⟩ ⟨2⟩)]⟩,
    ⟨"exit", [.effect (.ret none)]⟩,
    ⟨"lost", [.effect (.br ⟨2⟩)]⟩]
  layout := [⟨0⟩, ⟨1⟩, ⟨2⟩, ⟨3⟩]

def chooseSites : Edit (List Site × BlockId × List BlockId × List BlockId) := do
  let e ← findExtents .conservative
  let merges ← modifyGet Function.splitMerges
  let g ← get
  return ((Liveness.compute (g.summarize merges (e.companions (Scope.ofFunction g)))).sites,
    g.entry, g.successors ⟨0⟩, g.successors ⟨1⟩)

theorem chooseSites_run {f g : Function} {sites : List Site} {entry : BlockId}
    {first second : List BlockId}
    (chosen : (chooseSites.perform f).1.toOption = some (sites, entry, first, second))
    (last : (chooseSites.perform f).2 = g) :
    ∃ e f' merges, findExtents .conservative f = .ok e f' ∧ f'.splitMerges = (merges, g) ∧
      (Liveness.compute (g.summarize merges (e.companions (Scope.ofFunction g)))).sites = sites ∧
      g.entry = entry ∧ g.successors ⟨0⟩ = first ∧ g.successors ⟨1⟩ = second := by
  have run := Edit.run_of_perform chosen
  rw [last] at run
  obtain ⟨e, f', found, run⟩ := run_bind_eq_ok_iff.1 run
  rw [run_modifyGet_bind, run_get_bind, run_pure_eq_ok_iff] at run
  simp only [Prod.mk.injEq] at run
  obtain ⟨⟨chosen, entry, first, second⟩, rfl⟩ := run
  exact ⟨e, f', f'.splitMerges.1, found, rfl, chosen, entry, first, second⟩

theorem defined_of_liveIn_scanning :
    ∃ e f' merges g site, findExtents .conservative scanning = .ok e f' ∧
    f'.splitMerges = (merges, g) ∧
    site ∈ (Liveness.compute (g.summarize merges (e.companions (Scope.ofFunction g)))).sites ∧
    site.live = [⟨0⟩, ⟨1⟩, ⟨2⟩, ⟨6⟩] ∧
    (g.Defined ⟨6⟩ fun d => d ≠ site.block ∧ g.Dominates d site.block) ∧
    ∀ (n : Nat) (c : Control) (t : State InMemory),
      (Progress.advance g {})^[n]
          (beginRun g [.int 32 3] (.initial (.new .default ∅ (.still 5)))) = .running c t →
        c.block = site.block → ∃ a, t.env[(⟨6⟩ : ValueId)]? = some a := by
  have coherent : scanning.Coherent := by decide
  have productive : scanning.Productive := coherent.productive (by decide)
  have evaluated : (chooseSites.perform scanning).1.toOption =
      some ([⟨0, ⟨4⟩, [⟨0⟩, ⟨1⟩, ⟨2⟩, ⟨6⟩]⟩], ⟨0⟩, [⟨1⟩], [⟨4⟩]) := by
    cbv
  obtain ⟨e, f', merges, found, split, sites, entry, first, second⟩ := chooseSites_run evaluated rfl
  generalize (chooseSites.perform scanning).2 = g at split sites entry first second
  have chosen : (⟨0, ⟨4⟩, [⟨0⟩, ⟨1⟩, ⟨2⟩, ⟨6⟩]⟩ : Site) ∈ (Liveness.compute
      (g.summarize merges (e.companions (Scope.ofFunction g)))).sites := by
    rw [sites]
    exact List.mem_singleton.mpr rfl
  have path : g.Path ⟨4⟩ [⟨0⟩, ⟨1⟩, ⟨4⟩] := ⟨by rw [entry]; rfl, rfl, by simp [first, second]⟩
  have defined := (defined_of_liveIn coherent (eq_ok_of_toOption (by cbv))
    (eq_ok_of_toOption (by cbv)) (by decide) found split rfl).2 _ chosen ⟨_, path⟩ ⟨6⟩ (by decide)
  exact ⟨e, f', _, _, _, found, split, chosen, rfl, defined.1, fun n c t run arrived =>
    defined.2 productive {} _ _ t n c run arrived⟩

/-- Goes round a loop before it returns the result of an operation that produces none. -/
def carrying : Function where
  name := "carrying"
  params := []
  returns := .int 32
  values := #[⟨"u", .int 32⟩, ⟨"i", .int 32⟩, ⟨"next", .int 32⟩, ⟨"more", .int 1⟩]
  blocks := #[
    ⟨"entry", [
      .define ⟨0⟩ (.call "print" [.const (.int 32 1)]),
      .effect (.br ⟨1⟩)]⟩,
    ⟨"loop", [
      .define ⟨1⟩ (.phi [(.const (.int 32 0), ⟨0⟩), (.value ⟨2⟩, ⟨1⟩)]),
      .define ⟨2⟩ (.binary .add (.value ⟨1⟩) (.const (.int 32 1))),
      .define ⟨3⟩ (.compare .lt (.value ⟨2⟩) (.const (.int 32 3))),
      .effect (.condBr (.value ⟨3⟩) ⟨1⟩ ⟨2⟩)]⟩,
    ⟨"exit", [.effect (.ret (some (.value ⟨0⟩)))]⟩]
  layout := [⟨0⟩, ⟨1⟩, ⟨2⟩]

/-- A site lists a value that a run does not have when it comes there. -/
theorem undefined_of_liveIn_carrying :
    carrying.Coherent ∧ carrying.validate = .ok () ∧ carrying.checkScoping = .ok () ∧
    (∀ i ∈ carrying.body carrying.entry, i.op.isPhi = false) ∧
    ∃ e f' merges g site, findExtents .conservative carrying = .ok e f' ∧
      f'.splitMerges = (merges, g) ∧
      site ∈ (Liveness.compute (g.summarize merges (e.companions (Scope.ofFunction g)))).sites ∧
      (∃ path, g.Path site.block path) ∧ ⟨0⟩ ∈ site.live ∧
      ∃ (n : Nat) (c : Control) (t : State InMemory), (Progress.advance g {})^[n]
          (beginRun g [] (.initial (.new .default ∅ (.still 5)))) = .running c t ∧
        c.block = site.block ∧ t.env[(⟨0⟩ : ValueId)]? = none := by
  have lacking : (match (Progress.advance (chooseSites.perform carrying).2 {})^[3]
      (beginRun (chooseSites.perform carrying).2 []
        (.initial (.new .default (∅ : InMemory) (.still 5)))) with
      | .running c t => decide (c.block = ⟨3⟩ ∧ t.env[(⟨0⟩ : ValueId)]? = none)
      | .done _ _ => false) = true := by
    decide +kernel
  have evaluated : (chooseSites.perform carrying).1.toOption =
      some ([⟨0, ⟨3⟩, [⟨0⟩, ⟨1⟩]⟩], ⟨0⟩, [⟨1⟩], [⟨3⟩]) := by
    cbv
  obtain ⟨e, f', merges, found, split, sites, entry, first, second⟩ := chooseSites_run evaluated rfl
  generalize (chooseSites.perform carrying).2 = g at split sites entry first second lacking
  refine ⟨by decide, eq_ok_of_toOption (by cbv), eq_ok_of_toOption (by cbv), by decide, e, f', merges, g,
    ⟨0, ⟨3⟩, [⟨0⟩, ⟨1⟩]⟩, found, split, ?_, ?_, by decide, 3, ?_⟩
  · rw [sites]
    exact List.mem_singleton.mpr rfl
  · exact ⟨[⟨0⟩, ⟨1⟩, ⟨3⟩], by rw [entry]; rfl, rfl, by simp [first, second]⟩
  · cases run : (Progress.advance g {})^[3]
        (beginRun g [] (.initial (.new .default (∅ : InMemory) (.still 5)))) with
    | done r t =>
      rw [run] at lacking
      cases lacking
    | running c t =>
      rw [run] at lacking
      exact ⟨c, t, rfl, of_decide_eq_true lacking⟩

end CheckpointRestart
