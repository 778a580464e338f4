import CheckpointRestart.Proofs.Instrument.Insertion
import CheckpointRestart.Proofs.Pointer.Additions

/-! # The code for a site can be written

The code for a site uses only values that are known, and what it restores has the types of what was
saved. A restored value gets the rank of the value it stands for, so that it can take its place
wherever types are inferred from it. Slots get the smallest rank, since the types of what is loaded
from them follow from theirs.
-/

namespace CheckpointRestart

open CheckpointRestart.Function

variable {n : Nat} {known : ValueId → Prop} {rank rank' : ValueId → Nat} {f g g' : Function}
  {v w m : ValueId} {x y z : Operand}

theorem IndexedSet.mem_toList_insert_iff {α : Type} [DecidableEq α] {s : IndexedSet α} {a b : α} :
    b ∈ (s.insert a).toList ↔ b = a ∨ b ∈ s.toList := by
  unfold IndexedSet.insert
  split
  · next mem => exact ⟨.inr, fun hb => hb.elim (fun e => e ▸ mem) id⟩
  · rw [List.mem_append, List.mem_singleton, or_comm]

/-! ## What a plan names -/

theorem Extent.Writable.size {x : Extent} (h : x.Writable n known) (hv : v ∈ x.sizeValues) : known v := by
  obtain ⟨y, hy, e⟩ := List.mem_filterMap.mp hv
  have value : y = .value v := by
    cases y with
    | value w =>
      cases e
      rfl
    | const c => cases e
  simp only [List.mem_cons, List.not_mem_nil, or_false] at hy
  rcases hy with rfl | rfl
  · have width := h.width
    rwa [value] at width
  · have count := h.count
    rwa [value] at count

/-- All that is named when the code for a site is made. The first `n` values are older than the
extents. -/
structure EmissionPlan.Writable (n : Nat) (known : ValueId → Prop) (rank : ValueId → Nat) (g : Function)
    (plan : EmissionPlan) : Prop where
  extents : ∀ v x, plan.extents.get? v = some x → v.index < g.values.size ∧ x.Writable n known
  old : ∀ v, v.index < n → known v
  live : ∀ v ∈ plan.live, known v
  params : ∀ v ∈ plan.params, known v
  ops : ∀ (v : ValueId) (op : Op), plan.pointerOps[v]? = some op →
    g.WritableInstruction known rank ⟨some v, op⟩

namespace EmissionPlan.Writable

variable {plan : EmissionPlan}

theorem mono (h : plan.Writable n known rank g) (embeds : Embeds rank g rank' g') :
    plan.Writable n known rank' g' :=
  { h with
    extents := fun v x hx => ⟨(h.extents v x hx).1.trans_le embeds.size, (h.extents v x hx).2⟩
    ops := fun v op hop => (h.ops v op hop).mono embeds }

theorem visited (h : plan.Writable n known rank g) (hv : plan.Visited v) : known v := by
  induction hv with
  | live live => exact h.live _ live
  | size _ _ hx hc => exact (h.extents _ _ hx).2.size hc
  | source _ _ hx derived => exact h.old _ ((h.extents _ _ hx).2.source _ derived)
  | index _ _ hx _ hc => exact h.old _ ((h.extents _ _ hx).2.index _ hc)

end EmissionPlan.Writable

/-! ## The code for a site -/

/-- The value for which an action is taken. -/
def Action.subject : Action → ValueId
  | scalar v _ _ _ | allocation v _ _ _ _ _ | reissue v _ _ | recompute v _ _ _ _ | anchor v _ _
  | reference v _ _ _ _ _ _ _ => v

theorem Action.subject_of_restores {r : ValueId} (a : Action) (h : a.restores? = some (v, r)) :
    a.subject = v := by
  cases a <;> cases h <;> rfl

theorem Function.WritableInstruction.call {c : SessionCall} (operands : ∀ x ∈ c.operands, x.Writable known) :
    g.WritableInstruction known rank (Emission.call c) :=
  .effect operands nofun

namespace Emission

variable {plan : EmissionPlan} {as as' : List Action} {st st' : Emission} {a : Action}

/-- What has been made so far of the code for a site, written in `g`. -/
structure Writable (known : ValueId → Prop) (rank : ValueId → Nat) (g : Function) (as : List Action)
    (st : Emission) : Prop where
  code : ∀ i ∈ st.checkpoint ++ st.restart, g.WritableInstruction known rank i
  restored : g.Restores known rank st.restored
  recomputed : ∀ m op op' c r, .recompute m op op' c r ∈ as → known c ∧ known r ∧
    m.index < g.values.size ∧ g.Like rank m (.value c) ∧ g.Like rank m (.value r)
  anchors : ∀ (m : ValueId) x, st.anchors[m]? = some x → x.Writable known
  written : ∀ m ∈ st.written.toList, known m ∨ m ∈ st.anchors

namespace Writable

theorem mono (h : st.Writable known rank g as) (embeds : Embeds rank g rank' g') :
    st.Writable known rank' g' as := by
  refine { h with
    code := fun i hi => (h.code i hi).mono embeds
    restored := h.restored.mono embeds
    recomputed := fun m op op' c r made => ?_ }
  obtain ⟨hc, hr, lt, likeC, likeR⟩ := h.recomputed m op op' c r made
  exact ⟨hc, hr, lt.trans_le embeds.size, likeC.mono lt embeds, likeR.mono lt embeds⟩

section Sides

variable (h : st.Writable known rank g as) (planned : plan.Writable n known rank g)
  (constant : ∀ c, x = .const c → c.Legal)

include h planned constant

theorem counterpart (found : counterpart? plan st x = some y) :
    x.Writable known ∧ y.Writable known ∧ g.Stands rank x y := by
  cases x with
  | const c =>
    cases found
    exact ⟨constant c rfl, constant c rfl, .refl _⟩
  | value v =>
    rw [counterpart?] at found
    split at found
    · next given =>
      cases found
      have hv := planned.params v (List.contains_iff_mem.mp given)
      exact ⟨hv, hv, .refl _⟩
    · obtain ⟨hv, -, writable, like⟩ := h.restored v y found
      exact ⟨hv, writable, like.stands⟩

theorem both (both : Both plan as st x y z) :
    (y.Writable known ∧ g.Stands rank x y) ∧ z.Writable known ∧ g.Stands rank x z := by
  rcases both with ⟨rfl, found⟩ | ⟨m, op, op', c, r, rfl, made, rfl, rfl⟩
  · obtain ⟨hy, hz, stands⟩ := h.counterpart planned constant found
    exact ⟨⟨hy, .refl _⟩, hz, stands⟩
  · obtain ⟨hc, hr, -, likeC, likeR⟩ := h.recomputed m op op' c r made
    exact ⟨⟨hc, likeC.stands⟩, hr, likeR.stands⟩

end Sides

end Writable

/-- The values that an action makes, in `g`. The value made for another one has its rank. -/
structure Made (known : ValueId → Prop) (rank : ValueId → Nat) (g : Function) (st : Emission) (a : Action) :
    Prop where
  values : ∀ p ∈ a.made st.function, known p.1 ∧ p.1.index < g.values.size ∧ g.valueType p.1 = p.2 ∧
    rank p.1 = rank a.subject
  subject : a.made st.function ≠ [] → g.valueType a.subject = st.function.valueType a.subject
  slot : ∀ v t s r, a = .scalar v t s r → known s ∧ g.valueType s = .ptr t ∧ rank s = 0 ∧ 0 < rank v

theorem Made.like (h : Made known rank g st a)
    (made : (w, st.function.valueType a.subject) ∈ a.made st.function) :
    known w ∧ g.Like rank a.subject (.value w) := by
  obtain ⟨hw, lt, type, same⟩ := h.values _ made
  exact ⟨hw, .value lt (type.trans (h.subject (List.ne_nil_of_mem made)).symm) same⟩

section Code

variable (h : st.Writable known rank g as) (planned : plan.Writable n known rank g)

include h planned

theorem Writable.reissued {op : Op} (found : reissued? plan st v = some op) :
    g.WritableInstruction known rank ⟨some v, op⟩ := by
  unfold reissued? at found
  split at found
  · next x y hop =>
    have code := planned.ops v _ hop
    obtain ⟨x', hx, found⟩ := Option.bind_eq_some_iff.mp found
    obtain ⟨y', hy, found⟩ := Option.bind_eq_some_iff.mp found
    cases found
    obtain ⟨-, base, stands⟩ := h.counterpart planned (code.operands x (by simp [Op.operands])).constant hx
    obtain ⟨-, index, -⟩ := h.counterpart planned (code.operands y (by simp [Op.operands])).constant hy
    exact code.gep base stands index
  · next x t hop =>
    have code := planned.ops v _ hop
    obtain ⟨x', hx, found⟩ := Option.bind_eq_some_iff.mp found
    cases found
    exact code.cast (h.counterpart planned (code.operands x (by simp [Op.operands])).constant hx).2.1
  · cases found

theorem Writable.recompute {saving restoring : Op} {c r : ValueId}
    (may : May plan as st (.recompute m saving restoring c r)) :
    g.WritableInstruction known rank ⟨some m, saving⟩ ∧
      g.WritableInstruction known rank ⟨some m, restoring⟩ := by
  obtain ⟨-, ⟨x, y, cx, rx, cy, ry, hop, hx, hy, rfl, rfl⟩ | ⟨x, t, cx, rx, hop, hx, rfl, rfl⟩⟩ := may
  · have code := planned.ops m _ hop
    obtain ⟨⟨cbase, cstands⟩, rbase, rstands⟩ := h.both planned
      (code.operands x (by simp [Op.operands])).constant hx
    obtain ⟨⟨cindex, -⟩, rindex, -⟩ := h.both planned (code.operands y (by simp [Op.operands])).constant hy
    exact ⟨code.gep cbase cstands cindex, code.gep rbase rstands rindex⟩
  · have code := planned.ops m _ hop
    obtain ⟨⟨writable, -⟩, writable', -⟩ := h.both planned (code.operands x (by simp [Op.operands])).constant hx
    exact ⟨code.cast writable, code.cast writable'⟩

theorem Writable.candidates {members : List ValueId} {c : AliasCandidate}
    (hc : c ∈ candidates plan st (writtenMembers st members)) (hx : x ∈ [c.width, c.count, c.address]) :
    x.Writable known := by
  obtain ⟨⟨i, m⟩, hm, found⟩ := List.mem_filterMap.mp hc
  obtain ⟨e, he, rfl⟩ := Option.map_eq_some_iff.mp found
  have extent := (planned.extents m e he).2
  simp only [List.mem_cons, List.not_mem_nil, or_false] at hx
  rcases hx with rfl | rfl | rfl
  · exact extent.width
  · exact extent.count
  · have written : m ∈ st.written.toList := by
      rw [writtenMembers, List.mem_mergeSort] at hm
      obtain ⟨m', -, entry⟩ := List.mem_filterMap.mp hm
      obtain ⟨j, hj, e⟩ := Option.map_eq_some_iff.mp entry
      cases e
      exact List.isSome_idxOf?.mp (Option.isSome_iff_exists.mpr ⟨i, hj⟩)
    rw [Std.ExtTreeMap.getD_eq_getD_getElem?]
    cases anchored : st.anchors[m]? with
    | some address => exact h.anchors m address anchored
    | none =>
      refine (h.written m written).resolve_right fun hm => ?_
      rw [Std.ExtTreeMap.mem_iff_isSome_getElem?, anchored] at hm
      cases hm

/-- Every action adds code that can be written. -/
theorem May.writable (may : May plan as st a) (made : Made known rank g st a) {i : Instruction}
    (hi : i ∈ a.checkpoint ++ a.restart) : g.WritableInstruction known rank i := by
  have triple {x y z : Operand} (hx : x.Writable known) (hy : y.Writable known) (hz : z.Writable known) :
      ∀ u ∈ [x, y, z], u.Writable known := by
    simp only [List.mem_cons, List.not_mem_nil, or_false]
    rintro _ (rfl | rfl | rfl)
    · exact hx
    · exact hy
    · exact hz
  have size (k : Int64) : (Operand.i64 k).Writable known := Operand.writable_i64 k
  cases a with
  | scalar v t slot r =>
    obtain ⟨hv, -, rfl, -, -⟩ := may
    obtain ⟨hs, type, least, above⟩ := made.slot v _ slot r rfl
    obtain ⟨-, lt, type', same⟩ := made.values (r, st.function.valueType v) (by simp [Action.made])
    simp only [Action.checkpoint, Action.restart, List.cons_append, List.nil_append, List.mem_cons,
      List.not_mem_nil, or_false] at hi
    rcases hi with rfl | rfl | rfl | rfl
    · refine .effect (fun x hx => ?_) (by simp)
      simp only [Op.operands, List.mem_cons, List.not_mem_nil, or_false] at hx
      rcases hx with rfl | rfl
      · exact planned.visited hv.visited
      · exact hs
    · exact .call (triple (size _) (size _) hs)
    · exact .call (triple (size _) (size _) hs)
    · refine .define (fun x hx => ?_) lt ⟨?_, ?_⟩ (by simp) (by simp)
      · rw [List.mem_singleton.mp hx]
        exact hs
      · exact type.trans (congrArg Ty.ptr type'.symm)
      · rintro _ ⟨⟩
        rw [least, same]
        exact above
  | allocation v x width count op r =>
    obtain ⟨hv, hx, -, hw, hc, how⟩ := may
    have extent := (planned.extents v x hx).2
    obtain ⟨-, hw, -⟩ := h.counterpart planned extent.width.constant hw
    obtain ⟨-, hc, -⟩ := h.counterpart planned extent.count.constant hc
    obtain ⟨hr, like⟩ := made.like (w := r) (by simp [Action.made, Action.subject])
    simp only [Action.checkpoint, Action.restart, List.cons_append, List.nil_append, List.mem_cons,
      List.not_mem_nil, or_false] at hi
    rcases hi with rfl | rfl | rfl
    · exact .call (triple extent.width extent.count (planned.visited hv.visited))
    · rcases how with ⟨t, k, hop, rfl⟩ | ⟨bytes, hop, rfl⟩
      · exact (planned.ops v _ hop).rename like
      · have code := planned.ops v _ hop
        refine Function.WritableInstruction.rename (v := v) ⟨fun x hx => ?_, (by simp), code.index, code.follows, (by simp)⟩ like
        rw [List.mem_singleton.mp hx]
        exact hc
    · exact .call (triple hw hc hr)
  | reissue v op r =>
    obtain ⟨hr, like⟩ := made.like (w := r) (by simp [Action.made, Action.subject])
    rw [Action.checkpoint, Action.restart, List.nil_append, List.mem_singleton] at hi
    rw [hi]
    exact (h.reissued planned may.2.2).rename like
  | recompute m op op' c r =>
    obtain ⟨saving, restoring⟩ := h.recompute planned may
    obtain ⟨-, likeC⟩ := made.like (w := c) (by simp [Action.made, Action.subject])
    obtain ⟨-, likeR⟩ := made.like (w := r) (by simp [Action.made, Action.subject])
    simp only [Action.checkpoint, Action.restart, List.cons_append, List.nil_append, List.mem_cons,
      List.not_mem_nil, or_false] at hi
    rcases hi with rfl | rfl
    · exact saving.rename likeC
    · exact restoring.rename likeR
  | anchor m address restored =>
    obtain ⟨⟨hc, -⟩, hr, -⟩ := h.both planned (x := .value m) (by simp) may.2
    simp only [Action.checkpoint, Action.restart, List.cons_append, List.nil_append, List.mem_cons,
      List.not_mem_nil, or_false] at hi
    rcases hi with rfl | rfl
    · exact .call (triple (size _) (size _) hc)
    · exact .call (triple (size _) (size _) hr)
  | reference v x width count members t raw r =>
    obtain ⟨hv, hx, -, hw, hc, rfl, rfl, -⟩ := may
    have hv : (Operand.value v).Writable known := planned.visited hv.visited
    have extent := (planned.extents v x hx).2
    obtain ⟨-, hw, -⟩ := h.counterpart planned extent.width.constant hw
    obtain ⟨-, hc, -⟩ := h.counterpart planned extent.count.constant hc
    obtain ⟨hraw, lt, type, -⟩ := made.values (raw, .bytePtr) (by simp [Action.made])
    simp only [Action.checkpoint, Action.restart, List.cons_append, List.nil_append, List.mem_cons] at hi
    rcases hi with rfl | rfl | hi
    · refine .call fun z hz => ?_
      rcases List.mem_append.mp hz with hz | hz
      · exact triple extent.width extent.count hv z hz
      · obtain ⟨c, hc, hz⟩ := List.mem_flatMap.mp hz
        exact h.candidates planned hc hz
    · refine .define (fun z hz => ?_) lt (congrArg some type.symm) (by simp) (by simp)
      simp only [Op.operands, SessionCall.operands, List.mem_cons, List.not_mem_nil, or_false] at hz
      rcases hz with rfl | rfl
      · exact hw
      · exact hc
    · split at hi
      · cases hi
      · next other =>
        rw [List.mem_singleton.mp hi]
        obtain ⟨-, lt, type, -⟩ := made.values (r, st.function.valueType v) (by simp [Action.made, other])
        refine .define (fun z hz => ?_) lt (congrArg some type.symm) (by simp) (by simp)
        rw [List.mem_singleton.mp hz]
        exact hraw

end Code

/-! ## One action after another -/

theorem May.made_type (may : May plan as st a) {p : ValueId × Ty} (hp : p ∈ a.made st.function) :
    p.2 = st.function.valueType a.subject ∨ p.2 = .bytePtr := by
  cases a with
  | scalar v t slot r =>
    obtain ⟨-, -, rfl, -⟩ := may
    rw [List.mem_singleton.mp hp]
    exact .inl rfl
  | allocation | reissue =>
    rw [List.mem_singleton.mp hp]
    exact .inl rfl
  | recompute m op op' c r =>
    simp only [Action.made, List.mem_cons, List.not_mem_nil, or_false] at hp
    rcases hp with rfl | rfl <;> exact .inl rfl
  | anchor => cases hp
  | reference v x width count members t raw r =>
    obtain ⟨-, -, -, -, -, -, rfl, -⟩ := may
    rcases List.mem_cons.mp hp with rfl | hp
    · exact .inr rfl
    · split at hp
      · cases hp
      · rw [List.mem_singleton.mp hp]
        exact .inl rfl

theorem May.subject_index (may : May plan as st a) (planned : plan.Writable n known rank st.function)
    (some : a.made st.function ≠ []) : a.subject.index < st.function.values.size := by
  cases a with
  | scalar v t slot r =>
    obtain ⟨-, -, rfl, -, typed⟩ := may
    exact index_lt_of_typed typed
  | allocation v x width count op r => exact (planned.extents v x may.2.1).1
  | reissue v op r =>
    obtain ⟨-, ⟨x, source, hx, -⟩, -⟩ := may
    exact (planned.extents v x hx).1
  | recompute m op op' c r =>
    obtain ⟨-, ⟨x, y, cx, rx, cy, ry, hop, -⟩ | ⟨x, t, cx, rx, hop, -⟩⟩ := may <;>
      exact (planned.ops m _ hop).index m rfl
  | anchor => exact absurd rfl some
  | reference v x width count members t raw r => exact (planned.extents v x may.2.1).1

end Emission

/-- Slots that wait for their definitions. -/
structure Slots.Writable (known : ValueId → Prop) (rank : ValueId → Nat) (g : Function) (s : Slots) : Prop where
  created : ∀ p ∈ s.created, known p.1 ∧ p.1.index < g.values.size ∧ g.valueType p.1 = .ptr p.2 ∧
    rank p.1 = 0
  free : ∀ t slot, (t, slot) ∈ s.free → (slot, t) ∈ s.created

theorem Slots.Writable.mono {s : Slots} (h : s.Writable known rank g) (embeds : Embeds rank g rank' g') :
    s.Writable known rank' g' := by
  refine ⟨fun p hp => ?_, h.free⟩
  obtain ⟨hp, lt, type, least⟩ := h.created p hp
  exact ⟨hp, lt.trans_le embeds.size, (embeds.types p.1 lt).trans type, (embeds.ranks p.1 lt).trans least⟩

/-- The ranks once `f` has gained slots, and other values of rank `k`. -/
def Function.rankWith (f : Function) (slots : List ValueId) (k : Nat) (rank : ValueId → Nat)
    (w : ValueId) : Nat :=
  if w.index < f.values.size then rank w else if w ∈ slots then 0 else k

namespace Emission

variable {plan : EmissionPlan} {as as' : List Action} {st st' : Emission} {a : Action}

/-- The values that have no definition yet: those of the code for the site, and the slots. -/
def pending (st : Emission) : List ValueId :=
  results st.checkpoint ++ results st.restart ++ st.slots.created.map (·.1)

/-- The state of an emission after the actions `as`. -/
structure Proceeds (n : Nat) (known : ValueId → Prop) (rank : ValueId → Nat) (plan : EmissionPlan)
    (as : List Action) (st : Emission) : Prop where
  function : st.function.Writable known st.pending rank
  new : ∀ v, st.function.values.size ≤ v.index → known v
  plan : plan.Writable n known rank st.function
  code : st.Writable known rank st.function as
  slots : st.slots.Writable known rank st.function

namespace Proceeds

section Step

variable {slots : List (ValueId × Ty)} (h : Proceeds n known rank plan as st)
  (takes : Takes plan as st a st') (created : st'.slots.created = st.slots.created ++ slots)
  (grows : st.function.Grows st'.function
    (slots.map (fun p : ValueId × Ty => (p.1, Ty.ptr p.2)) ++ a.made st.function))

include grows in
theorem embeds : Embeds rank st.function
    (st.function.rankWith (slots.map (·.1)) (rank a.subject) rank) st'.function :=
  ⟨grows.le, grows.old, fun _ lt => if_pos lt⟩

include h takes created grows

theorem scalar_of_mem {p : ValueId × Ty} (hp : p ∈ slots) : ∃ v r, a = .scalar v p.2 p.1 r := by
  have new := (grows.index_mem (List.mem_append_left _ (List.mem_map_of_mem hp))).1
  refine (takes.spilled p (created ▸ List.mem_append_right _ hp)).resolve_left fun old => ?_
  exact absurd (h.slots.created p old).2.1 (Nat.not_lt.mpr new)

theorem slots_takes : st'.slots.Writable known
    (st.function.rankWith (slots.map (·.1)) (rank a.subject) rank) st'.function := by
  have old := h.slots.mono (embeds grows)
  refine ⟨fun p hp => ?_, fun t slot hs => ?_⟩
  · rcases List.mem_append.mp (created ▸ hp) with hp | hp
    · exact old.created p hp
    · have mem := List.mem_append_left (a.made st.function)
        (List.mem_map_of_mem (f := fun p : ValueId × Ty => (p.1, Ty.ptr p.2)) hp)
      obtain ⟨new, lt⟩ := grows.index_mem mem
      refine ⟨h.new p.1 new, lt, grows.types _ mem, ?_⟩
      rw [rankWith, if_neg (Nat.not_lt.mpr new), if_pos (List.mem_map_of_mem hp)]
  · rcases takes.free t slot hs with hs | hs
    · exact created ▸ List.mem_append_left _ (h.slots.free t slot hs)
    · exact hs

theorem made : Made known (st.function.rankWith (slots.map (·.1)) (rank a.subject) rank) st'.function st a := by
  have subject := takes.may.subject_index h.plan
  refine ⟨fun p hp => ?_, fun some => grows.old _ (subject some), ?_⟩
  · have mem := List.mem_append_right (slots.map fun p : ValueId × Ty => (p.1, Ty.ptr p.2)) hp
    obtain ⟨new, lt⟩ := grows.index_mem mem
    refine ⟨h.new p.1 new, lt, grows.types p mem, ?_⟩
    have other : p.1 ∉ slots.map (·.1) := by
      have distinct := grows.nodup
      rw [List.map_append, List.map_map] at distinct
      exact fun hs => List.disjoint_of_nodup_append distinct hs (List.mem_map_of_mem hp)
    rw [rankWith, if_neg (Nat.not_lt.mpr new), if_neg other, rankWith,
      if_pos (subject (List.ne_nil_of_mem hp))]
  · rintro v t s r rfl
    have mem : (s, t) ∈ st'.slots.created := by
      rcases takes.slot v t s r rfl with free | new
      · exact created ▸ List.mem_append_left _ (h.slots.free t s free)
      · exact new
    obtain ⟨hs, -, type, least⟩ := (slots_takes h takes created grows).created (s, t) mem
    obtain ⟨-, -, rfl, scalar, typed⟩ := takes.may
    refine ⟨hs, type, least, ?_⟩
    rw [rankWith, if_pos (index_lt_of_typed typed)]
    exact h.function.positive v (index_lt_of_typed typed) scalar

theorem function_takes : st'.function.Writable known st'.pending
    (st.function.rankWith (slots.map (·.1)) (rank a.subject) rank) := by
  refine (h.function.grows grows (fun p hp => ?_) (embeds grows).ranks fun p hp scalar => ?_).settle
    fun v hv => .inl ?_
  · rcases List.mem_append.mp hp with hp | hp
    · obtain ⟨q, hq, rfl⟩ := List.mem_map.mp hp
      obtain ⟨v, r, rfl⟩ := scalar_of_mem h takes created grows hq
      obtain ⟨-, -, type, -, typed⟩ := takes.may
      exact ⟨type ▸ h.function.legal v, typed⟩
    · rcases takes.may.made_type hp with type | type
      · rw [type]
        exact h.function.legal _
      · rw [type]
        decide
  · rcases List.mem_append.mp hp with hp | hp
    · obtain ⟨q, hq, rfl⟩ := List.mem_map.mp hp
      cases scalar
    · rcases takes.may.made_type hp with type | type
      · have lt := takes.may.subject_index h.plan (List.ne_nil_of_mem hp)
        obtain ⟨-, -, -, same⟩ := (made h takes created grows).values p hp
        rw [same, (embeds grows).ranks _ lt]
        exact h.function.positive _ lt (type ▸ scalar)
      · rw [type] at scalar
        cases scalar
  · have code : ∀ v ∈ (a.made st.function).map (·.1), v ∈ results a.checkpoint ∨ v ∈ results a.restart := by
      intro v hv
      rwa [← a.results_code, List.mem_append] at hv
    simp only [pending, takes.checkpoint, takes.restart, created, results_append, List.map_append,
      List.map_map, List.mem_append] at hv ⊢
    rcases hv with (hv | hv) | (hv | hv) | hv
    · exact .inr (.inr hv)
    · exact .inl ((code v hv).imp .inr .inr)
    · exact .inl (.inl (.inl hv))
    · exact .inl (.inr (.inl hv))
    · exact .inr (.inl hv)

theorem code_takes : st'.Writable known (st.function.rankWith (slots.map (·.1)) (rank a.subject) rank)
    st'.function (as ++ [a]) := by
  have old := h.code.mono (embeds grows)
  have planned := h.plan.mono (embeds grows)
  have made := made h takes created grows
  refine ⟨fun i hi => ?_, fun v y hy => ?_, fun m op op' c r mem => ?_, fun m x hx => ?_, fun m hm => ?_⟩
  · have hi : i ∈ st.checkpoint ++ st.restart ∨ i ∈ a.checkpoint ++ a.restart := by
      rw [takes.checkpoint, takes.restart] at hi
      simp only [List.mem_append] at hi ⊢
      tauto
    rcases hi with hi | hi
    · exact old.code i hi
    · exact takes.may.writable old planned made hi
  · rw [takes.restored] at hy
    cases restores : a.restores? with
    | none =>
      rw [restores] at hy
      exact old.restored v y hy
    | some p =>
      obtain ⟨u, r⟩ := p
      rw [restores] at hy
      replace hy := TreeMap.getElem?_insert_iff.symm.trans hy
      split at hy
      · next e =>
        subst e
        cases hy
        have mem := takes.may.restores restores
        obtain rfl := a.subject_of_restores restores
        obtain ⟨hr, like⟩ := made.like mem
        have lt := takes.may.subject_index h.plan (List.ne_nil_of_mem mem)
        exact ⟨planned.visited (takes.may.open restores).visited, lt.trans_le grows.le, hr, like⟩
      · exact old.restored v y hy
  · rcases List.mem_append.mp mem with mem | mem
    · exact old.recomputed m op op' c r mem
    · obtain rfl := List.mem_singleton.mp mem
      obtain ⟨hc, likeC⟩ := made.like (w := c) (by simp [Action.made, Action.subject])
      obtain ⟨hr, likeR⟩ := made.like (w := r) (by simp [Action.made, Action.subject])
      have lt := takes.may.subject_index h.plan (by simp [Action.made])
      exact ⟨hc, hr, lt.trans_le grows.le, likeC, likeR⟩
  · rw [takes.anchors] at hx
    cases a with
    | anchor m' address restored =>
      replace hx := TreeMap.getElem?_insert_iff.symm.trans hx
      split at hx
      · cases hx
        exact (old.both planned (x := .value m') (by simp) takes.may.2).1.1
      · exact old.anchors m x hx
    | scalar | allocation | reissue | recompute | reference => exact old.anchors m x hx
  · rw [takes.written] at hm
    rw [takes.anchors]
    have visited {v r : ValueId} (restores : a.restores? = some (v, r)) (mem : m ∈ (st.written.insert v).toList) :
        known m ∨ m ∈ st.anchors := by
      rcases IndexedSet.mem_toList_insert_iff.1 mem with rfl | mem
      · exact .inl (planned.visited (takes.may.open restores).visited)
      · exact old.written m mem
    cases a with
    | scalar | allocation | reference => exact visited rfl hm
    | reissue | recompute => exact old.written m hm
    | anchor m' address restored =>
      rcases IndexedSet.mem_toList_insert_iff.1 hm with rfl | hm
      · exact .inr (TreeMap.mem_insert_iff.2 (.inl rfl))
      · exact (old.written m hm).imp_right fun hm => TreeMap.mem_insert_iff.2 (.inr hm)

end Step

theorem takes (h : Proceeds n known rank plan as st) (takes : Takes plan as st a st') :
    ∃ rank', Embeds rank st.function rank' st'.function ∧
      Proceeds n known rank' plan (as ++ [a]) st' := by
  obtain ⟨slots, created, grows⟩ := takes.grows
  exact ⟨_, embeds grows, function_takes h takes created grows, fun v new => h.new v (grows.le.trans new),
    h.plan.mono (embeds grows), code_takes h takes created grows, slots_takes h takes created grows⟩

theorem performs (h : Proceeds n known rank plan as st) (performs : Performs plan as st as' st') :
    ∃ rank', Embeds rank st.function rank' st'.function ∧ Proceeds n known rank' plan as' st' := by
  induction performs with
  | refl => exact ⟨rank, .of_values rfl, h⟩
  | visiting s _ ih =>
    obtain ⟨rank', embeds, now⟩ := ih
    exact ⟨rank', embeds, now.function, now.new, now.plan,
      ⟨now.code.code, now.code.restored, now.code.recomputed, now.code.anchors, now.code.written⟩, now.slots⟩
  | act _ takes ih =>
    obtain ⟨rank₁, embeds₁, now⟩ := ih
    obtain ⟨rank₂, embeds₂, next⟩ := now.takes takes
    exact ⟨rank₂, embeds₁.trans embeds₂, next⟩

end Proceeds

end Emission

end CheckpointRestart
