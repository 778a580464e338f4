import CheckpointRestart.Proofs.Instrument.Site
import CheckpointRestart.Proofs.Instrument.WritableCode

/-! # Functions with sites can be written

Splitting merge blocks moves code, and each site adds two blocks with code that can be written. Slots
stay without definitions until the dispatch has given them theirs.
-/

namespace CheckpointRestart

open CheckpointRestart.Function

variable {n : Nat} {known : ValueId → Prop} {rank rank' : ValueId → Nat} {f f' : Function}
  {pending : List ValueId} {b c : BlockId} {v : ValueId}

namespace Function

theorem body_modifyBody_nil {g : List Instruction → List Instruction} (h : f.body c = []) (nil : g [] = []) :
    (f.modifyBody b g).body c = [] := by
  by_cases e : c = b
  · subst e
    refine List.eq_nil_iff_forall_not_mem.mpr fun i hi => ?_
    rcases mem_body_modifyBody hi with hi | hi
    · rw [h] at hi
      cases hi
    · rw [h, nil] at hi
      cases hi
  · rwa [body_modifyBody_of_ne e]

namespace Writable

/-! ## Moving code -/

theorem splitBlock {state : BlockSet × Function} (h : state.2.Writable known pending rank) (b : BlockId) :
    (splitBlock state b).2.Writable known pending rank := by
  obtain ⟨merges, f⟩ := state
  unfold Function.splitBlock
  dsimp only
  split
  · exact h
  · next merging =>
    have split : f.body b = (f.block b).phis ++ (f.block b).afterPhis :=
      (List.takeWhile_append_dropWhile).symm
    have hb : b ∈ f.layout := by
      obtain ⟨i, hi⟩ := List.exists_mem_of_ne_nil _ (by simpa using merging)
      exact h.coherent.mem_layout_of_mem_body (split ▸ List.mem_append_left _ hi)
    refine foldl _ (fun g s _ hg => hg.replacePhiBlock s b _) ?_
    refine h.move b (h.named.blockName_append b (by decide)) (fun i hi => ?_) (fun v hv => ?_) hb
    · rw [← List.append_assoc, List.mem_append, List.mem_append, List.mem_singleton] at hi
      rcases hi with (hi | hi) | rfl
      · exact h.code b i (split ▸ List.mem_append_right _ hi)
      · exact h.code b i (split ▸ List.mem_append_left _ hi)
      · exact .effect nofun nofun
    · rw [split, results_append, List.mem_append] at hv
      simp only [results_append, List.mem_append]
      exact hv.symm.imp_right .inl

theorem splitMerges (h : f.Writable known pending rank) : f.splitMerges.2.Writable known pending rank := by
  suffices ∀ (bs : List BlockId) (state : BlockSet × Function), state.2.Writable known pending rank →
      (bs.foldl Function.splitBlock state).2.Writable known pending rank from this f.layout (∅, f) h
  intro bs
  induction bs with
  | nil => exact fun state h => h
  | cons b bs ih => exact fun state h => ih _ (h.splitBlock b)

theorem openSite (h : f.Writable known pending rank) (b : BlockId) (label : Nat) :
    (f.openSite b label).2.2.Writable known pending rank := by
  have labelled {stem : String} (hs : Text.isIdentifier stem.toList = true) :
      Text.isIdentifier (stem ++ toString label).toList = true := by
    rw [String.toList_append]
    exact Text.isIdentifier_append (.inr hs) (Text.isIdentifier_toString label)
  refine foldl _ (fun g p _ hg => (hg.retarget p b _).replacePhiBlock b p _) ?_
  exact (h.insertBlockAfter _ (labelled (by decide))).insertBlockAfter _ (labelled (by decide))

end Writable

theorem openSite_new (f : Function) (b : BlockId) (label : Nat) :
    (f.openSite b label).2.2.values = f.values ∧ (f.openSite b label).2.1 ≠ (f.openSite b label).1 ∧
    ∀ c ∈ [(f.openSite b label).1, (f.openSite b label).2.1],
      c ∈ (f.openSite b label).2.2.layout ∧ (f.openSite b label).2.2.body c = [] := by
  let after := (f.predecessors b).getLast?.getD b
  let f₁ := (f.insertBlockAfter after ("checkpoint." ++ toString label)).2
  let f₂ := (f₁.insertBlockAfter ⟨f.blocks.size⟩ ("restart." ++ toString label)).2
  let inv (g : Function) : Prop := g.values = f.values ∧
    ∀ c ∈ [⟨f.blocks.size⟩, (⟨f₁.blocks.size⟩ : BlockId)], c ∈ g.layout ∧ g.body c = []
  have start : inv f₂ := by
    refine ⟨rfl, fun c hc => ?_⟩
    simp only [List.mem_cons, List.not_mem_nil, or_false] at hc
    rcases hc with rfl | rfl
    · refine ⟨mem_insertAfter_iff.2 (.inr (mem_insertAfter_iff.2 (.inl rfl))), ?_⟩
      simp [f₂, f₁, body_insertBlockAfter]
    · refine ⟨mem_insertAfter_iff.2 (.inl rfl), ?_⟩
      simp [f₂, body_insertBlockAfter]
  have all : inv (f.openSite b label).2.2 := by
    refine List.foldlRecOn (motive := inv) (f.predecessors b) _ start fun g hg p _ => ⟨hg.1, fun c hc => ?_⟩
    obtain ⟨mem, nil⟩ := hg.2 c hc
    exact ⟨mem, body_modifyBody_nil (body_modifyBody_nil nil rfl) rfl⟩
  refine ⟨all.1, fun same => ?_, all.2⟩
  have size : f₁.blocks.size = f.blocks.size + 1 := by simp [f₁, insertBlockAfter, createBlock]
  have same : f₁.blocks.size = f.blocks.size := congrArg BlockId.index same
  omega

end Function

theorem Emission.Performs.frame {plan : EmissionPlan} {as as' : List Action} {st st' : Emission}
    (h : Performs plan as st as' st') :
    st'.function = { st.function with values := st'.function.values } := by
  induction h with
  | refl => rfl
  | visiting s _ ih => exact ih
  | act _ takes ih =>
    obtain ⟨slots, -, grows⟩ := takes.grows
    rw [grows.frame, ih]

/-- The code for a site in two new blocks. Only the slots remain to be defined. -/
theorem Emission.Proceeds.bodies {plan : EmissionPlan} {as : List Action} {st : Emission} {c r : BlockId}
    (h : Proceeds n known rank plan as st) (site : Site) (distinct : r ≠ c)
    (blocks : ∀ b ∈ [c, r], b ∈ st.function.layout ∧ st.function.body b = []) :
    ((st.function.setBody c (st.checkpointBody site)).setBody r (st.restartBody site)).Writable known
      (st.slots.created.map (·.1)) rank := by
  have code : ∀ i ∈ st.checkpointBody site ++ st.restartBody site,
      st.function.WritableInstruction known rank i := by
    intro i hi
    have made := h.code.code i
    simp only [checkpointBody, restartBody, List.mem_append, List.mem_cons, List.not_mem_nil, or_false] at hi made
    rcases hi with ((rfl | hi) | rfl | rfl) | hi | rfl | rfl
    · exact .call (fun x hx => by cases hx)
    · exact made (.inl hi)
    · exact .call (fun x hx => by cases hx)
    · exact .effect (fun x hx => by cases hx) (by simp)
    · exact made (.inr hi)
    · exact .call (fun x hx => by cases hx)
    · exact .effect (fun x hx => by cases hx) (by simp)
  obtain ⟨hc, emptyC⟩ := blocks c (by simp)
  obtain ⟨hr, emptyR⟩ := blocks r (by simp)
  have saving : (st.function.setBody c (st.checkpointBody site)).Writable known st.pending rank := by
    refine h.function.modifyBody c (fun i hi => code i (List.mem_append_left _ hi)) fun v hv => ?_
    rw [emptyC] at hv
    cases hv
  have both : ((st.function.setBody c (st.checkpointBody site)).setBody r (st.restartBody site)).Writable
      known st.pending rank := by
    refine saving.modifyBody r
      (fun i hi => (code i (List.mem_append_right _ hi)).mono (.of_values rfl)) fun v hv => ?_
    rw [setBody, body_modifyBody_of_ne distinct, emptyR] at hv
    cases hv
  refine both.settle fun v hv => ?_
  have lt : ∀ b ∈ st.function.layout, b.index < st.function.blocks.size := fun b =>
    (h.function.coherent.mem_layout b).mp
  simp only [pending, List.mem_append] at hv
  rcases hv with (hv | hv) | hv
  · refine .inr ⟨c, ?_⟩
    rw [setBody, body_modifyBody_of_ne distinct.symm, setBody, body_modifyBody_self (lt c hc)]
    simp [checkpointBody, results_append, hv]
  · refine .inr ⟨r, ?_⟩
    rw [setBody, body_modifyBody_self (by rw [setBody, size_blocks_modifyBody]; exact lt r hr)]
    simp [restartBody, results_append, hv]
  · exact .inl hv

/-! ## Sites -/

/-- What is known of the sites added so far. -/
structure Insertion.Writable (n : Nat) (known : ValueId → Prop) (rank : ValueId → Nat) (e : Extents)
    (ops : Std.ExtTreeMap ValueId Op) (f : Function) (s : Insertion) : Prop where
  function : f.Writable known (s.slots.created.map (·.1)) rank
  new : ∀ v, f.values.size ≤ v.index → known v
  old : ∀ v, v.index < n → known v
  params : ∀ v ∈ f.params, known v
  within : e.map.Within f
  extents : e.map.Writable n known
  ops : ∀ (v : ValueId) (op : Op), ops[v]? = some op → f.WritableInstruction known rank ⟨some v, op⟩
  slots : s.slots.Writable known rank f
  redefined : ∀ (b : BlockId) m, s.redefined[b]? = some m → f.Restores known rank m

namespace Insertion.Writable

variable {e : Extents} {ops : Std.ExtTreeMap ValueId Op} {site : Site} {s s' : Insertion} {st : Emission}

theorem begin (h : s.Writable n known rank e ops f) (live : ∀ v ∈ site.live, known v) :
    Emission.Proceeds n known rank (site.plan e ops (site.opened f)) [] (.begin (site.opened f) s.slots) := by
  obtain ⟨values, -, -⟩ := f.openSite_new site.block site.label
  have embeds : Embeds rank f rank (site.opened f) := .of_values values
  have opened : Advances (fun _ => True) f (site.opened f) := .openSite f _ _
  refine ⟨h.function.openSite _ _, fun v new => h.new v (embeds.size.trans new), ?_, ?_, h.slots.mono embeds⟩
  · refine ⟨fun v x hx => ⟨(h.within.advances opened).index v x hx, h.extents v x hx⟩, h.old, fun v hv => ?_,
      fun v hv => h.params v (opened.params ▸ hv), fun v op hop => (h.ops v op hop).mono embeds⟩
    · rcases TreeSet.mem_foldl_insert_iff.1 hv with hv | hv
      · simp at hv
      · exact live v hv
  · refine ⟨fun i hi => absurd hi List.not_mem_nil, fun v y hy => ?_,
      fun _ _ _ _ _ mem => absurd mem List.not_mem_nil, fun m x hx => ?_,
      fun m hm => absurd hm List.not_mem_nil⟩
    · simp [Emission.begin] at hy
    · simp [Emission.begin] at hx

theorem addsSite (h : s.Writable n known rank e ops f)
    (live : ∀ v ∈ site.live, known v) (adds : AddsSite e ops site f s st f' s') :
    ∃ rank', s'.Writable n known rank' e ops f' := by
  obtain ⟨as, performs, -⟩ := adds.performs h.within
  obtain ⟨rank', embeds, done⟩ := (h.begin live).performs performs
  obtain ⟨values, distinct, blocks⟩ := f.openSite_new site.block site.label
  have there : ∀ b ∈ [(f.openSite site.block site.label).1, (f.openSite site.block site.label).2.1],
      b ∈ st.function.layout ∧ st.function.body b = [] := by
    rw [performs.frame]
    exact blocks
  have written := done.bodies site distinct there
  rw [← adds.function] at written
  have embeds : Embeds rank f rank' f' := by
    refine (Embeds.of_values values).trans (embeds.trans (.of_values ?_))
    rw [adds.function]
    rfl
  have late : Embeds rank' st.function rank' f' := .of_values (by rw [adds.function]; rfl)
  have opened : Advances (fun _ => True) f (site.opened f) := .openSite f _ _
  have params : f'.params = f.params := by
    rw [adds.function]
    exact (congrArg Function.params performs.frame).trans opened.params
  refine ⟨rank', ?_, fun v new => h.new v (embeds.size.trans new), h.old,
    fun v hv => h.params v (params ▸ hv), ⟨fun v x hx => (h.within.index v x hx).trans_le embeds.size,
      fun v x hx given => params ▸ h.within.params v x hx given⟩, h.extents,
    fun v op hop => (h.ops v op hop).mono embeds, ?_, fun b m hm => ?_⟩
  · rw [adds.slots]
    exact written
  · rw [adds.slots]
    exact done.slots.mono late
  · rw [adds.redefined, TreeMap.getElem?_insert_iff] at hm
    split at hm
    · cases hm
      exact done.code.restored.mono late
    · exact (h.redefined b m hm).mono embeds

theorem foldlM_insertSite {sites : List Site} (h : Insertion.Writable n known rank e ops f .empty)
    (live : ∀ site ∈ sites, ∀ v ∈ site.live, known v)
    (run : sites.foldlM (insertSite e ops) .empty f = .ok s f') :
    ∃ rank', s.Writable n known rank' e ops f' := by
  refine foldlM_run_induction (fun _ s g => ∃ rank', Insertion.Writable n known rank' e ops g s) ?_ ⟨rank, h⟩
    run
  rintro front site back split s g s' g' ⟨rank, now⟩ step
  obtain ⟨st, adds⟩ := insertSite_run step
  exact now.addsSite (live site (by simp [split])) adds

end Insertion.Writable

/-! ## The dispatch -/

theorem Function.moveEntry_frame (f : Function) : f.moveEntry.values = f.values ∧
    ∀ b ∈ f.layout, b ∈ f.moveEntry.layout := by
  refine List.foldlRecOn (motive := fun g : Function => g.values = f.values ∧ ∀ b ∈ f.layout, b ∈ g.layout) _ _ ?_
    fun g hg c _ => hg
  exact ⟨rfl, fun b hb => mem_insertAfter_iff.2 (.inr hb)⟩

theorem Function.Writable.moveEntry (h : f.Writable known pending rank) :
    f.moveEntry.Writable known pending rank := by
  have old : f.entry ≠ ⟨f.blocks.size⟩ := fun e => h.coherent.new_not_mem (e ▸ h.entry_mem)
  have body : (f.insertBlockAfter f.entry (f.blockName f.entry ++ ".no_cr")).2.body f.entry = f.body f.entry := by
    rw [body_insertBlockAfter, if_neg old]
  refine foldl _ (fun g c _ hg => hg.replacePhiBlock c f.entry _) ?_
  refine h.move f.entry (h.named.blockName_append f.entry (by decide)) (fun i hi => ?_) (fun v hv => ?_)
    h.entry_mem
  · rw [body, List.append_nil] at hi
    exact h.code f.entry i hi
  · rwa [body, List.append_nil]

theorem Insertion.Writable.materialize {e : Extents} {ops : Std.ExtTreeMap ValueId Op} {s : Insertion}
    (h : s.Writable n known rank e ops f) :
    (s.slots.materialize f.moveEntry f.entry).Writable known [] rank := by
  obtain ⟨values, layout⟩ := f.moveEntry_frame
  have moved := h.function.moveEntry
  have slots := h.slots.mono (Embeds.of_values values)
  refine (moved.modifyBody f.entry (fun i hi => ?_) fun v hv => ?_).settle fun v hv => .inr ⟨f.entry, ?_⟩
  · rcases List.mem_append.mp hi with hi | hi
    · obtain ⟨p, hp, rfl⟩ := List.mem_map.mp hi
      obtain ⟨-, lt, type, -⟩ := slots.created p hp
      exact .define (fun x hx => by cases hx) lt (congrArg some type.symm) nofun fun o x y e => by cases e
    · exact moved.code f.entry i hi
  · rw [results_append]
    exact List.mem_append_right _ hv
  · obtain ⟨p, hp, rfl⟩ := List.mem_map.mp hv
    have inside := (moved.coherent.mem_layout f.entry).mp (layout f.entry h.function.entry_mem)
    rw [body_modifyBody_self inside, results_append]
    refine List.mem_append_left _ (mem_results_iff.2 ⟨.define p.1 (.alloca p.2 1), ?_, rfl⟩)
    exact List.mem_map_of_mem (f := fun p : ValueId × Ty => Instruction.define p.1 (.alloca p.2 1)) hp

theorem Function.WritableInstruction.switchCode {g : Function} {label : ValueId} {s : Insertion}
    (hl : known label) (lt : label.index < g.values.size) (type : g.valueType label = .i64)
    {i : Instruction} (hi : i ∈ f.switchCode label s) : g.WritableInstruction known rank i := by
  simp only [Function.switchCode, List.mem_cons, List.not_mem_nil, or_false] at hi
  rcases hi with rfl | rfl | rfl
  · exact .define (fun x hx => by cases hx) lt (congrArg some type.symm) (by simp) (by simp)
  · exact .call (fun x hx => by cases hx)
  · refine .effect (fun x hx => ?_) (by simp)
    rw [List.mem_singleton.mp hx]
    exact hl

/-- The label that a run is to restart from, and the switch on it. -/
theorem Function.Writable.addSwitch {g : Function} {s : Insertion} (h : g.Writable known [] rank)
    (hb : b ∈ g.layout) (new : known ⟨g.values.size⟩) :
    ∃ rank', Embeds rank g rank' (g.newValue "restart.label" .i64).2 ∧
      ((g.newValue "restart.label" .i64).2.modifyBody b (· ++ f.switchCode ⟨g.values.size⟩ s)).Writable
        known [] rank' := by
  have grows : g.Grows (g.newValue "restart.label" .i64).2 [(⟨g.values.size⟩, .i64)] :=
    .newValue _ _ fun _ => by decide
  have embeds : Embeds rank g (g.rankWith [] 1 rank) (g.newValue "restart.label" .i64).2 :=
    ⟨grows.le, grows.old, fun v lt => if_pos lt⟩
  have labelled : (g.newValue "restart.label" .i64).2.Writable known [⟨g.values.size⟩] (g.rankWith [] 1 rank) := by
    refine h.grows grows (by simpa using Ty.legal_i64) embeds.ranks ?_
    rintro p hp -
    rw [List.mem_singleton.mp hp]
    simp [rankWith]
  refine ⟨_, embeds, (labelled.modifyBody b (fun i hi => ?_) fun v hv => ?_).settle fun v hv => .inr ⟨b, ?_⟩⟩
  · rcases List.mem_append.mp hi with hi | hi
    · exact labelled.code b i hi
    · exact .switchCode new (grows.index_mem (List.mem_singleton_self _)).2
        (grows.types _ (List.mem_singleton_self _)) hi
  · rw [results_append]
    exact List.mem_append_left _ hv
  · have inside := (labelled.coherent.mem_layout b).mp (grows.layout.symm ▸ hb)
    rw [body_modifyBody_self inside, results_append, List.mem_singleton.mp hv]
    exact List.mem_append_right _ List.mem_cons_self

theorem Insertion.Writable.dispatch {e : Extents} {ops : Std.ExtTreeMap ValueId Op} {s : Insertion}
    (h : s.Writable n known rank e ops f) :
    ∃ rank', Embeds rank f rank' (f.dispatch s) ∧ (f.dispatch s).Writable known [] rank' := by
  obtain ⟨values, layout⟩ := f.moveEntry_frame
  have same := (s.slots.values_materialize f.moveEntry f.entry).trans values
  have entry : f.entry ∈ (s.slots.materialize f.moveEntry f.entry).layout := by
    rw [Slots.layout_materialize]
    exact layout f.entry h.function.entry_mem
  have new : known ⟨(s.slots.materialize f.moveEntry f.entry).values.size⟩ :=
    h.new _ (Nat.le_of_eq (congrArg Array.size same.symm))
  obtain ⟨rank', embeds, written⟩ := h.materialize.addSwitch (f := f) (s := s) entry new
  rw [dispatch_eq, ← s.slots.values_materialize f.moveEntry f.entry]
  exact ⟨rank', (Embeds.of_values same).trans (embeds.trans (.of_values rfl)), written⟩

/-! ## What sites keep -/

theorem Scope.named_of_available {place : UsePoint}
    (h : (Scope.ofFunction f).available place v = true) : v ∈ f.params ∨ ∃ b, v ∈ results (f.body b) := by
  rw [Scope.available, Bool.or_eq_true, List.contains_iff_mem] at h
  refine h.imp_right fun h => ?_
  cases found : (Scope.ofFunction f).definition? v with
  | none =>
    rw [found] at h
    cases h
  | some l => exact ⟨l.block, (Scope.definedAt_of_definition? found).mem_results⟩

theorem Function.mem_body_of_pointerOps {e : Extents} {op : Op} (h : (f.pointerOps e)[v]? = some op) :
    ∃ b, ⟨some v, op⟩ ∈ f.body b := by
  let inv (ops : Std.ExtTreeMap ValueId Op) : Prop :=
    ∀ (v : ValueId) (op : Op), ops[v]? = some op → ∃ b, ⟨some v, op⟩ ∈ f.body b
  have all : inv (f.pointerOps e) := by
    refine List.foldlRecOn (motive := inv) f.instructions _ (by simp [inv]) fun ops h p hp => ?_
    obtain ⟨b, ⟨result, op⟩⟩ := p
    have here := (mem_instructions_iff.1 hp).2
    cases result with
    | none => exact h
    | some w =>
      dsimp only
      split
      · intro v op' found
        rw [TreeMap.getElem?_insert_iff] at found
        split at found
        · next same =>
          cases found
          exact ⟨b, same ▸ here⟩
        · exact h v op' found
      · exact h
  exact all v op h

/-- Whatever is live at a site is named by the code or by the extents. -/
theorem Function.Writable.known_of_mem_live {e : Extents} {merges : BlockSet} {site : Site}
    (h : f.Writable known pending rank) (named : ∀ v, v ∈ f.params ∨ (∃ b, v ∈ results (f.body b)) → known v)
    (extents : e.map.Writable n known) (old : ∀ v, v.index < n → known v)
    (chosen : site ∈ (Liveness.compute (f.summarize merges (e.companions (Scope.ofFunction f)))).sites)
    (hv : v ∈ site.live) : known v := by
  obtain ⟨-, -, live⟩ := Liveness.of_mem_sites chosen
  rw [live] at hv
  obtain ⟨u, hu, rfl⟩ := Liveness.mem_liveValues_iff.1 hv
  obtain ⟨c, hc, w, use, same⟩ := Liveness.exists_use_of_mem_liveIn (f.coherent_summarize _ _) hu
  rw [← same]
  rw [node_summarize hc, mem_uses_node_iff] at use
  obtain ⟨k, i, hi, makes, -⟩ := use
  have operands := (h.code c i (List.mem_of_getElem? hi)).operands
  -- with a value that is used come values that are at hand, or sizes and indices
  have why {z : ValueId} {place : UsePoint} (hz : known z)
      (brought : w.value = z ∨ w.value ∈ e.companions (Scope.ofFunction f) z place) : known w.value := by
    rcases brought with rfl | brought
    · exact hz
    · rcases Extents.justified_of_mem_dependencies brought with rfl | kept | ⟨y, x, -, hx, scalar⟩
      · exact hz
      · exact named _ (Scope.named_of_available kept)
      · have extent := extents y x hx
        rcases List.mem_append.mp scalar with size | index
        · exact extent.size size
        · exact old _ (extent.index _ (Option.mem_toList.mp index))
  rcases makes with ⟨-, -, z, hz, brought⟩ | ⟨pairs, z, q, hop, hz, -, -, brought⟩
  · exact why (operands _ (Op.mem_usedValues_iff.1 hz)) brought
  · refine why (operands (.value z) ?_) brought
    rw [hop]
    exact List.mem_map_of_mem hz

end CheckpointRestart
