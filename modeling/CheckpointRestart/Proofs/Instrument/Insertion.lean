import CheckpointRestart.Instrument.Insertion
import CheckpointRestart.Instrument.Split
import CheckpointRestart.Proofs.Instrument.Emission
import CheckpointRestart.Proofs.Pointer.Keys

/-! # What sites add

Splitting merges, adding sites and dispatching keep a function regular and add no merges. For each
restart block it is recorded which values it restores; what a value is restored as has the type of
the value.
-/

namespace CheckpointRestart

open CheckpointRestart.Function

variable {f f' : Function} {merged : ValueId → Prop}

namespace Function

theorem mem_body_of_mem_insertBlockAfter {b c : BlockId} {name : String} {i : Instruction}
    (hi : i ∈ (f.insertBlockAfter c name).2.body b) : i ∈ f.body b := by
  rw [body_insertBlockAfter] at hi
  split at hi
  · cases hi
  · exact hi

theorem Advances.move {is js : List Instruction} (after b : BlockId) (name : String)
    (new : ∀ j ∈ is ++ js,
      (∃ c, ∃ i ∈ f.body c, Kindred i j) ∨ j.Proper merged f.values.size) :
    Advances merged f
      (((f.insertBlockAfter after name).2.setBody ⟨f.blocks.size⟩ is).setBody b js) := by
  refine of_bodies rfl (by simp [Function.insertBlockAfter, createBlock, Function.setBody]) (fun c hc => ?_)
    (fun co => (co.insertBlockAfter.modifyBody).modifyBody) fun c j hj => ?_
  · exact (blockName_modifyBody.trans blockName_modifyBody).trans (blockName_insertBlockAfter hc)
  rcases mem_body_modifyBody hj with hj | hj
  · rcases mem_body_modifyBody hj with hj | hj
    · exact .inl ⟨c, j, mem_body_of_mem_insertBlockAfter hj, .refl j⟩
    · exact new j (List.mem_append_left _ hj)
  · exact new j (List.mem_append_right _ hj)

theorem Advances.splitBlock (state : BlockSet × Function) (b : BlockId) :
    Advances merged state.2 (splitBlock state b).2 := by
  unfold Function.splitBlock
  dsimp only
  split
  · exact .refl _
  · refine Advances.trans (.move b b _ fun j hj => ?_)
      (Advances.foldl (fun f s => .replacePhiBlock f s b _) _ _)
    rcases List.mem_append.mp hj with hj | hj
    · exact .inl ⟨b, j, (List.dropWhile_sublist _).subset hj, .refl j⟩
    · rcases List.mem_append.mp hj with hj | hj
      · exact .inl ⟨b, j, (List.takeWhile_sublist _).subset hj, .refl j⟩
      · obtain rfl := List.mem_singleton.mp hj
        exact .inr (.effect _)

theorem Advances.splitMerges (f : Function) : Advances merged f f.splitMerges.2 := by
  suffices ∀ (bs : List BlockId) (state : BlockSet × Function),
      Advances merged state.2 (bs.foldl Function.splitBlock state).2 from this f.layout (∅, f)
  intro bs
  induction bs with
  | nil => exact fun state => .refl _
  | cons b bs ih => exact fun state => (Advances.splitBlock state b).trans (ih _)

theorem Advances.openSite (f : Function) (n : BlockId) (label : Nat) :
    Advances merged f (f.openSite n label).2.2 := by
  unfold Function.openSite
  exact ((insertBlockAfter f _ _).trans (insertBlockAfter _ _ _)).trans
    (Advances.foldl (fun f p => (retarget f p n _).trans (replacePhiBlock _ n p _)) _ _)

theorem Grows.advances {new : List (ValueId × Ty)} (h : f.Grows f' new) : Advances merged f f' := by
  refine ⟨by rw [h.frame], h.params, by rw [h.frame], h.le, h.old, h.names, by rw [h.frame],
    fun b _ => by rw [h.frame]; rfl,
    fun regular => ⟨⟨fun b => ?_, ?_, fun p hp => ?_⟩, fun b i hi => ?_⟩⟩
  · rw [h.frame]
    exact regular.coherent.mem_layout b
  · rw [h.layout]
    exact regular.coherent.nodup
  · exact (regular.coherent.params p (h.params ▸ hp)).trans_le h.le
  · rw [h.body] at hi
    exact (regular.proper b i hi).mono h.le

end Function

/-! ## The code for a site -/

/-- What is restored is restored with its type. -/
def Restoring (f : Function) (restored : Std.ExtTreeMap ValueId Operand) : Prop :=
  ∀ (v : ValueId) (y : Operand), restored[v]? = some y → v.index < f.values.size ∧
    ∃ w, y = .value w ∧ w.index < f.values.size ∧ f.valueType w = f.valueType v

theorem Restoring.advances {restored : Std.ExtTreeMap ValueId Operand} (h : Restoring f restored)
    (step : Advances merged f f') : Restoring f' restored := by
  intro v y hy
  obtain ⟨lt, w, rfl, ltw, same⟩ := h v y hy
  exact ⟨lt.trans_le step.size, w, rfl, ltw.trans_le step.size,
    by rw [step.types w ltw, step.types v lt, same]⟩

theorem Action.results_code (a : Action) (f : Function) :
    results a.checkpoint ++ results a.restart = (a.made f).map (·.1) := by
  cases a with
  | reference v x width count members t raw r =>
    by_cases byte : t = .bytePtr <;>
      simp [checkpoint, restart, made, byte, Emission.call, Instruction.effect, Instruction.define]
  | _ => rfl

namespace Emission

variable {plan : EmissionPlan} {as as' : List Action} {st st' : Emission} {a : Action} {i : Instruction}

theorem producesValue_of_reissued? {v : ValueId} {op : Op} (h : reissued? plan st v = some op) :
    op.producesValue = true ∧ op.isPhi = false := by
  unfold reissued? at h
  split at h
  · obtain ⟨y, -, h⟩ := Option.bind_eq_some_iff.mp h
    obtain ⟨z, -, h⟩ := Option.bind_eq_some_iff.mp h
    cases h
    exact ⟨rfl, rfl⟩
  · obtain ⟨y, -, h⟩ := Option.bind_eq_some_iff.mp h
    cases h
    exact ⟨rfl, rfl⟩
  · cases h

theorem May.code (h : May plan as st a) (hi : i ∈ a.checkpoint ++ a.restart) :
    i.op.isPhi = false ∧ (i.result.isSome = true → i.op.producesValue = true) := by
  cases a with
  | scalar v t slot r =>
    simp only [Action.checkpoint, Action.restart, List.cons_append, List.nil_append, List.mem_cons,
      List.not_mem_nil, or_false] at hi
    rcases hi with rfl | rfl | rfl | rfl
    · exact ⟨rfl, fun result => by cases result⟩
    · exact ⟨rfl, fun result => by cases result⟩
    · exact ⟨rfl, fun result => by cases result⟩
    · exact ⟨rfl, fun _ => rfl⟩
  | allocation v x width count op r =>
    simp only [Action.checkpoint, Action.restart, List.cons_append, List.nil_append, List.mem_cons,
      List.not_mem_nil, or_false] at hi
    rcases hi with rfl | rfl | rfl
    · exact ⟨rfl, fun result => by cases result⟩
    · obtain ⟨-, -, -, -, -, ⟨t, n, -, rfl⟩ | ⟨bytes, -, rfl⟩⟩ := h <;> exact ⟨rfl, fun _ => rfl⟩
    · exact ⟨rfl, fun result => by cases result⟩
  | reissue v op r =>
    simp only [Action.checkpoint, Action.restart, List.nil_append, List.mem_singleton] at hi
    subst hi
    obtain ⟨produces, plain⟩ := producesValue_of_reissued? h.2.2
    exact ⟨plain, fun _ => produces⟩
  | recompute m op op' c r =>
    simp only [Action.checkpoint, Action.restart, List.cons_append, List.nil_append, List.mem_cons,
      List.not_mem_nil, or_false] at hi
    obtain ⟨-, ⟨x, y, cx, rx, cy, ry, -, -, -, rfl, rfl⟩ | ⟨x, t, cx, rx, -, -, rfl, rfl⟩⟩ := h <;>
      rcases hi with rfl | rfl <;> exact ⟨rfl, fun _ => rfl⟩
  | anchor m address restored =>
    simp only [Action.checkpoint, Action.restart, List.cons_append, List.nil_append, List.mem_cons,
      List.not_mem_nil, or_false] at hi
    rcases hi with rfl | rfl <;> exact ⟨rfl, fun result => by cases result⟩
  | reference v x width count members t raw r =>
    simp only [Action.checkpoint, Action.restart, List.cons_append, List.nil_append, List.mem_cons] at hi
    rcases hi with rfl | rfl | hi
    · exact ⟨rfl, fun result => by cases result⟩
    · exact ⟨rfl, fun _ => rfl⟩
    · split at hi
      · cases hi
      · obtain rfl := List.mem_singleton.mp hi
        exact ⟨rfl, fun _ => rfl⟩

theorem May.restores (h : May plan as st a) {v r : ValueId} (restores : a.restores? = some (v, r)) :
    (r, st.function.valueType v) ∈ a.made st.function := by
  cases a with
  | scalar v t slot r =>
    cases restores
    obtain ⟨-, -, rfl, -⟩ := h
    exact List.mem_singleton_self _
  | allocation | reissue =>
    cases restores
    exact List.mem_singleton_self _
  | recompute | anchor => cases restores
  | reference v x width count members t raw r =>
    cases restores
    obtain ⟨-, -, -, -, -, -, rfl, raw_⟩ := h
    by_cases byte : st.function.valueType v = .bytePtr
    · rw [Action.made, if_pos byte, raw_ byte, byte]
      exact List.mem_singleton_self _
    · rw [Action.made, if_neg byte]
      exact List.mem_cons_of_mem _ (List.mem_singleton_self _)

theorem May.index_lt (h : May plan as st a)
    (known : ∀ v x, plan.extents.get? v = some x → v.index < st.function.values.size)
    {v r : ValueId} (restores : a.restores? = some (v, r)) :
    v.index < st.function.values.size := by
  cases a with
  | scalar v t slot r =>
    cases restores
    obtain ⟨-, -, rfl, -, typed⟩ := h
    exact index_lt_of_typed typed
  | allocation =>
    cases restores
    exact known _ _ h.2.1
  | reissue =>
    cases restores
    obtain ⟨-, ⟨x, s, hx, -⟩, -⟩ := h
    exact known _ _ hx
  | recompute | anchor => cases restores
  | reference =>
    cases restores
    exact known _ _ h.2.1

/-- What is known of an emission that started from `f`. -/
structure Emitted (merged : ValueId → Prop) (f : Function) (st : Emission) : Prop where
  advances : Advances merged f st.function
  frame : st.function = { f with values := st.function.values }
  code : ∀ i ∈ st.checkpoint ++ st.restart, i.Proper merged st.function.values.size
  restored : Restoring st.function st.restored
  slots : ∀ p ∈ st.slots.created, p.1.index < st.function.values.size

theorem Emitted.takes (h : Emitted merged f st)
    (known : ∀ v x, plan.extents.get? v = some x → v.index < st.function.values.size)
    (takes : Takes plan as st a st') : Emitted merged f st' := by
  obtain ⟨slots, created, grows⟩ := takes.grows
  have step : Advances merged st.function st'.function := grows.advances
  have made : ∀ p ∈ a.made st.function,
      p.1.index < st'.function.values.size ∧ st'.function.valueType p.1 = p.2 := fun p hp =>
    ⟨(grows.index_mem (List.mem_append_right _ hp)).2, grows.types p (List.mem_append_right _ hp)⟩
  refine ⟨h.advances.trans step, by rw [grows.frame, h.frame], fun i hi => ?_, fun v y hy => ?_,
    fun p hp => ?_⟩
  · have hi : i ∈ st.checkpoint ++ st.restart ∨ i ∈ a.checkpoint ++ a.restart := by
      rw [takes.checkpoint, takes.restart] at hi
      simp only [List.mem_append] at hi ⊢
      tauto
    rcases hi with hi | hi
    · exact (h.code i hi).mono step.size
    · obtain ⟨plain, produces⟩ := takes.may.code hi
      intro r hr
      have mem : r ∈ (a.made st.function).map (·.1) := by
        rw [← a.results_code, ← results_append]
        exact mem_results_iff.2 ⟨i, hi, hr⟩
      obtain ⟨p, hp, rfl⟩ := List.mem_map.mp mem
      exact ⟨(made p hp).1, produces (by simp [hr]), fun phi => by simp [plain] at phi⟩
  · rw [takes.restored] at hy
    cases restores : a.restores? with
    | none =>
      rw [restores] at hy
      exact h.restored.advances step v y hy
    | some p =>
      obtain ⟨u, r⟩ := p
      rw [restores] at hy
      replace hy := TreeMap.getElem?_insert_iff.symm.trans hy
      split at hy
      · next e =>
        subst e
        cases hy
        have lt := takes.may.index_lt known restores
        obtain ⟨ltr, same⟩ := made _ (takes.may.restores restores)
        exact ⟨lt.trans_le step.size, r, rfl, ltr, by rw [same, step.types v lt]⟩
      · exact h.restored.advances step v y hy
  · rw [created] at hp
    rcases List.mem_append.mp hp with hp | hp
    · exact (h.slots p hp).trans_le step.size
    · exact (grows.index_mem (List.mem_append_left _ (List.mem_map.mpr ⟨p, hp, rfl⟩))).2

theorem Performs.emitted (h : Performs plan as st as' st') (start : Emitted merged f st)
    (known : ∀ v x, plan.extents.get? v = some x → v.index < f.values.size) :
    Emitted merged f st' := by
  induction h with
  | refl => exact start
  | visiting s _ ih => exact ⟨ih.advances, ih.frame, ih.code, ih.restored, ih.slots⟩
  | act _ takes ih =>
    exact ih.takes (fun v x hx => (known v x hx).trans_le ih.advances.size) takes

def checkpointBody (st : Emission) (site : Site) : List Instruction :=
  [call (.start (.ofNat site.label) (.ofNat st.written.size))] ++ st.checkpoint ++
    [call .finish, .effect (.br site.block)]

def restartBody (st : Emission) (site : Site) : List Instruction :=
  st.restart ++ [call .restartFinish, .effect (.br site.block)]

end Emission

/-! ## Sites -/

/-- The plan for a site of `f`. -/
def Site.plan (site : Site) (e : Extents) (ops : Std.ExtTreeMap ValueId Op) (f : Function) :
    EmissionPlan :=
  { extents := e, params := f.params, pointerOps := ops, live := site.live.foldl (·.insert ·) ∅ }

/-- What adding a site comes to. -/
structure AddsSite (e : Extents) (ops : Std.ExtTreeMap ValueId Op) (site : Site) (f : Function)
    (s : Insertion) (st : Emission) (f' : Function) (s' : Insertion) : Prop where
  emission : Emission.visitAll (site.plan e ops (f.openSite site.block site.label).2.2) site.live
    (.begin (f.openSite site.block site.label).2.2 s.slots) = .ok () st
  function : f' = (st.function.setBody (f.openSite site.block site.label).1
    (st.checkpointBody site)).setBody (f.openSite site.block site.label).2.1 (st.restartBody site)
  slots : s'.slots = st.slots
  restartBlocks : s'.restartBlocks =
    s.restartBlocks ++ [(site.label, (f.openSite site.block site.label).2.1)]
  redefined : s'.redefined = s.redefined.insert (f.openSite site.block site.label).2.1 st.restored
  reports : s'.reports = s.reports ++ [{
    label := site.label
    block := f'.blockName site.block
    checkpointBlock := f'.blockName (f.openSite site.block site.label).1
    restartBlock := f'.blockName (f.openSite site.block site.label).2.1
    live := site.live.map f'.valueName
    entries := st.written.size }]

theorem insertSite_run {e : Extents} {ops : Std.ExtTreeMap ValueId Op} {site : Site}
    {s s' : Insertion} (run : insertSite e ops s site f = .ok s' f') :
    ∃ st, AddsSite e ops site f s st f' s' := by
  unfold insertSite at run
  rw [run_modifyGet_bind] at run
  dsimp only at run
  rw [run_get_bind] at run
  obtain ⟨st, g, performed, run⟩ := run_bind_eq_ok_iff.1 run
  unfold Emission.perform at performed
  split at performed
  · next emission =>
    cases performed
    rw [run_modify_bind, run_get_bind] at run
    obtain ⟨rfl, rfl⟩ := run_pure_eq_ok_iff.1 run
    exact ⟨_, emission, rfl, rfl, rfl, rfl, rfl⟩
  · cases performed

/-- What is known of the sites added so far. -/
structure Insertion.Within (f : Function) (s : Insertion) : Prop where
  slots : ∀ p ∈ s.slots.created, p.1.index < f.values.size
  redefined : ∀ (b : BlockId) m, s.redefined[b]? = some m → Restoring f m

section AddsSite

variable {e : Extents} {ops : Std.ExtTreeMap ValueId Op} {site : Site} {s s' : Insertion}
  {st : Emission}

/-- The function with the blocks of the site, before there is code in them. -/
def Site.opened (site : Site) (f : Function) : Function :=
  (f.openSite site.block site.label).2.2

theorem AddsSite.performs (h : AddsSite e ops site f s st f' s') (known : e.map.Within f) :
    ∃ as, Emission.Performs (site.plan e ops (site.opened f)) [] (.begin (site.opened f) s.slots) as st ∧
      ∀ v ∈ site.live, v ∈ f.params ∨ v ∈ st.restored := by
  have opened : Advances (fun _ => True) f (site.opened f) := .openSite f _ _
  have known := known.advances opened
  let plan := site.plan e ops (site.opened f)
  have params : ∀ v x, plan.extents.get? v = some x → x.provenance = .parameter →
      v ∈ plan.params := known.params
  have live : ∀ v ∈ site.live, v ∈ plan.live := fun v hv =>
    TreeSet.mem_foldl_insert_iff.2 (.inr hv)
  obtain ⟨as, performs, restored⟩ := Emission.performs_visitAll params live known.index h.emission
  exact ⟨as, performs, fun v hv => opened.params ▸ restored v hv⟩

theorem AddsSite.within (h : AddsSite e ops site f s st f' s') (known : e.map.Within f)
    (within : s.Within f) : s'.Within f' ∧ Advances merged f f' := by
  obtain ⟨as, performs, -⟩ := h.performs known
  have opened : Advances merged f (site.opened f) := .openSite f _ _
  have emitted : Emission.Emitted merged (site.opened f) st := by
    refine performs.emitted ⟨.refl _, rfl, fun i hi => ?_, fun v y hy => ?_, fun p hp => ?_⟩
      (known.advances opened).index
    · cases hi
    · simp [Emission.begin] at hy
    · exact (within.slots p hp).trans_le opened.size
  have bodies : Advances merged st.function f' := by
    rw [h.function]
    have code : ∀ i ∈ st.checkpointBody site ++ st.restartBody site,
        i.Proper merged st.function.values.size := by
      intro i hi
      simp only [Emission.checkpointBody, Emission.restartBody, List.mem_append, List.mem_cons,
        List.not_mem_nil, or_false] at hi
      have := emitted.code i
      simp only [List.mem_append] at this
      rcases hi with ((rfl | hi) | rfl | rfl) | hi | rfl | rfl
      · exact .effect _
      · exact this (.inl hi)
      · exact .effect _
      · exact .effect _
      · exact this (.inr hi)
      · exact .effect _
      · exact .effect _
    exact (Advances.setBody _ fun j hj => .inr (code j (List.mem_append_left _ hj))).trans
      (.setBody _ fun j hj => .inr (code j (List.mem_append_right _ hj)))
  have all := (opened.trans emitted.advances).trans bodies
  refine ⟨⟨fun p hp => ?_, fun b m hm => ?_⟩, all⟩
  · rw [h.slots] at hp
    exact (emitted.slots p hp).trans_le bodies.size
  · rw [h.redefined, TreeMap.getElem?_insert_iff] at hm
    split at hm
    · cases hm
      exact emitted.restored.advances bodies
    · exact (within.redefined b m hm).advances all

end AddsSite

theorem within_foldlM_insertSite {e : Extents} {ops : Std.ExtTreeMap ValueId Op} {sites : List Site}
    {s : Insertion} (known : e.map.Within f)
    (run : sites.foldlM (insertSite e ops) .empty f = .ok s f') :
    s.Within f' ∧ Advances merged f f' := by
  refine foldlM_run_induction (fun _ s g => s.Within g ∧ Advances merged f g) ?_ ?_ run
  · rintro front site back - s g s' g' ⟨within, before⟩ step
    obtain ⟨st, adds⟩ := insertSite_run step
    have now : s'.Within g' ∧ Advances merged g g' := adds.within (known.advances before) within
    exact ⟨now.1, before.trans now.2⟩
  · exact ⟨⟨nofun, by simp [Insertion.empty]⟩, .refl f⟩

/-! ## The dispatch -/

theorem Slots.values_materialize (s : Slots) (f : Function) (b : BlockId) :
    (s.materialize f b).values = f.values := rfl

theorem Slots.layout_materialize (s : Slots) (f : Function) (b : BlockId) :
    (s.materialize f b).layout = f.layout := rfl

namespace Function

/-- The function with the code of the entry in a block of its own, and nothing in the entry. -/
def moveEntry (f : Function) : Function :=
  let opened := (f.insertBlockAfter f.entry (f.blockName f.entry ++ ".no_cr")).2
  let moved := (opened.setBody ⟨f.blocks.size⟩ (opened.body f.entry)).setBody f.entry []
  (moved.successors ⟨f.blocks.size⟩).foldl
    (fun g b => g.replacePhiBlock b f.entry ⟨f.blocks.size⟩) moved

def switchCode (f : Function) (label : ValueId) (s : Insertion) : List Instruction :=
  [.define label (.session .restartLabel),
    .effect (.session .setup),
    .effect (.switch (.value label) ⟨f.blocks.size⟩
      (s.restartBlocks.map fun (l, r) => (Int64.ofNat l, r)))]

theorem dispatch_eq (f : Function) (s : Insertion) : f.dispatch s =
    ((s.slots.materialize f.moveEntry f.entry).newValue "restart.label" .i64).2.modifyBody f.entry
      (· ++ f.switchCode ⟨f.moveEntry.values.size⟩ s) := by
  rw [← s.slots.values_materialize f.moveEntry f.entry]
  rfl

theorem Advances.moveEntry (f : Function) : Advances merged f f.moveEntry := by
  refine Advances.trans (.move f.entry f.entry _ fun j hj => ?_)
    (Advances.foldl (fun g b => .replacePhiBlock g b f.entry ⟨f.blocks.size⟩) _ _)
  rw [List.append_nil] at hj
  exact .inl ⟨f.entry, j, mem_body_of_mem_insertBlockAfter hj, .refl j⟩

theorem Advances.dispatch {s : Insertion} (within : s.Within f) :
    Advances merged f (f.dispatch s) := by
  rw [dispatch_eq]
  have moved : Advances merged f f.moveEntry := .moveEntry f
  refine (moved.trans (.modifyBody f.entry fun j hj => ?_)).trans
    ((Advances.newValue _ _ _).trans (.modifyBody f.entry fun j hj => ?_))
  · rcases List.mem_append.mp hj with hj | hj
    · obtain ⟨p, hp, rfl⟩ := List.mem_map.mp hj
      exact .inr (.define ((within.slots p hp).trans_le moved.size) rfl nofun)
    · exact .inl ⟨f.entry, j, hj, .refl j⟩
  · rcases List.mem_append.mp hj with hj | hj
    · exact .inl ⟨f.entry, j, hj, .refl j⟩
    · simp only [switchCode, List.mem_cons, List.not_mem_nil, or_false] at hj
      rcases hj with rfl | rfl | rfl
      · exact .inr (.define (by simp) rfl nofun)
      · exact .inr (.effect _)
      · exact .inr (.effect _)

end Function

end CheckpointRestart
