import CheckpointRestart.Proofs.Instrument.Repair
import CheckpointRestart.Proofs.Instrument.WritableSites

/-! # Repaired functions can be written

A merge that the repair adds has the type of the value it merges and takes its place among the
types that follow from one another. So does every operand that comes to flow into the merge, and a
merge that is dropped leaves no trace in them.
-/

namespace CheckpointRestart

open CheckpointRestart.Function

variable {known : ValueId → Prop} {rank : ValueId → Nat} {f g : Function} {b : BlockId} {v w m : ValueId}
  {x y : Operand} {r : Repair} {preds : List BlockId}

namespace Function

theorem Like.trans (h : f.Like rank v (.value w)) (h' : f.Like rank w x) : f.Like rank v x :=
  ⟨h'.index, h'.type.trans h.type, fun u hu => (h'.rank u hu).trans (h.rank w rfl)⟩

theorem Like.of_values (h : f.Like rank v x) (values : g.values = f.values) : g.Like rank v x := by
  have types : g.valueType = f.valueType := by
    funext u
    rw [valueType, valueInfo, values, valueType, valueInfo]
  exact ⟨values ▸ h.index, types ▸ h.type, h.rank⟩

/-- What is known of `g` while merges are added to `f`, set and dropped. -/
structure Repairing (f : Function) (known : ValueId → Prop) (rank : ValueId → Nat) (g : Function) :
    Prop where
  function : g.Writable known [] rank
  advances : Advances (fun _ => True) f g
  merges : g.Matching (g.Like rank) f.values.size

theorem Writable.addMerge (h : r.function.Writable known [] rank) (hb : b ∈ r.function.layout)
    (hv : known v) (lt : v.index < r.function.values.size) (new : known ⟨r.function.values.size⟩)
    (preds : List BlockId) :
    Embeds rank r.function (r.function.rankWith [] (rank v) rank) (r.addMerge b v preds).function ∧
      (r.addMerge b v preds).function.Writable known [] (r.function.rankWith [] (rank v) rank) := by
  let f := r.function
  let m : ValueId := ⟨f.values.size⟩
  let rank' := f.rankWith [] (rank v) rank
  let named := (f.newValue (f.valueName v ++ ".cr") (f.valueType v)).2
  have grows : f.Grows named [(m, f.valueType v)] := .newValue_after f v _ (by decide)
  have embeds : Embeds rank f rank' named := ⟨grows.le, grows.old, fun v lt => if_pos lt⟩
  have latest : rank' m = rank v := by simp [rank', rankWith, m]
  have like : named.Like rank' v (.value m) := by
    refine .value (grows.index_mem (List.mem_singleton_self _)).2 ?_ (latest.trans (embeds.ranks v lt).symm)
    rw [grows.types _ (List.mem_singleton_self _), embeds.types v lt]
  have named_writable : named.Writable known [m] rank' := by
    refine h.grows grows (by simpa using h.legal v) embeds.ranks ?_
    rintro p hp scalar
    rw [List.mem_singleton.mp hp] at scalar ⊢
    exact latest ▸ h.positive v lt scalar
  have uses : (named.replaceUsesIn b v (.value m)).Writable known [m] rank' := by
    refine named_writable.mapBody b (fun i hi => ?_) fun i => ?_
    · have code := named_writable.code b i hi
      split
      · exact code
      · refine code.mapOperands (fun x hx => ?_) fun _ x hx => ?_
        · unfold Operand.replace
          split
          · exact new
          · exact code.operands x hx
        · unfold Operand.replace
          split
          · next e => exact e ▸ like.stands
          · exact .refl x
    · split <;> rfl
  have merge : (named.replaceUsesIn b v (.value m)).WritableInstruction known rank' (mergeOf v m preds) := by
    refine .define (fun x hx => ?_) (like.index m rfl) rfl (by simp) (by simp)
    obtain ⟨pair, hp, rfl⟩ := List.mem_map.mp hx
    obtain ⟨p, -, rfl⟩ := List.mem_map.mp hp
    exact hv
  have front : (named.replaceUsesIn b v (.value m)).body b = [] ++ (named.replaceUsesIn b v (.value m)).body b :=
    rfl
  exact ⟨embeds.trans (.of_values rfl), uses.insert hb merge rfl front rfl⟩

theorem WritableInstruction.setAt {i : Instruction} {position : Nat} (h : f.WritableInstruction known rank i)
    (hx : x.Writable known) : f.WritableInstruction known rank (setAt m position x i) := by
  have operands : ∀ y ∈ (Function.setAt m position x i).op.operands, y.Writable known := by
    intro y hy
    rcases mem_operands_setAt hy with hy | ⟨-, rfl⟩
    · exact h.operands y hy
    · exact hx
  revert operands
  unfold Function.setAt
  split
  · split
    · exact fun operands => h.phi fun z hz => operands z.1 (List.mem_map_of_mem hz)
    · exact fun _ => h
  · exact fun _ => h

end Function

namespace Repair

/-- What is known of a repair of `f` while merges are added. -/
structure Writable (f : Function) (known : ValueId → Prop) (rank : ValueId → Nat) (r : Repair) : Prop
    extends Repairing f known rank r.function where
  new : ∀ v, r.function.values.size ≤ v.index → known v
  mapping : ∀ (b : BlockId) m, r.mapping[b]? = some m → r.function.Restores known rank m
  incoming : ∀ o ∈ r.incoming, known o.value ∧ (f.values.size ≤ o.phi.index →
    o.phi.index < r.function.values.size ∧ r.function.Like rank o.phi (.value o.value))

namespace Writable

theorem addMerge (h : r.Writable f known rank) (hb : b ∈ r.function.layout) (hv : known v)
    (lt : v.index < r.function.values.size) : ∃ rank', (r.addMerge b v preds).Writable f known rank' := by
  have adds : AddsMerge r.function (r.addMerge b v preds).function b v _ preds :=
    addsMerge h.function.coherent hb
  obtain ⟨embeds, written⟩ := h.function.addMerge hb hv lt (h.new _ (Nat.le_refl _)) preds
  let m : ValueId := ⟨r.function.values.size⟩
  let rank' := r.function.rankWith [] (rank v) rank
  have type : (r.addMerge b v preds).function.valueType m = (r.addMerge b v preds).function.valueType v := by
    rw [embeds.types v lt]
    exact adds.type
  have same : rank' m = rank' v := by simp [rank', rankWith, m, lt]
  have fresh : (r.addMerge b v preds).function.Like rank' v (.value m) := .value adds.index_lt type same
  have merged : (r.addMerge b v preds).function.Like rank' m (.value v) :=
    .value (lt.trans_le embeds.size) type.symm same.symm
  refine ⟨rank', ⟨written, h.advances.trans (adds.advances _ trivial), ?_⟩, fun u hu => ?_, ?_, ?_⟩
  · refine adds.matching h.merges (fun c i hi z hz x like => ?_) merged fun z like => like.trans fresh
    exact like.mono ((h.function.code c i hi).index z hz) embeds
  · exact h.new u (embeds.size.trans hu)
  · intro c map hc w y hy
    rcases mapping_addMerge hc hy with ⟨rfl, rfl⟩ | ⟨c, m, hm, hy⟩
    · exact ⟨hv, lt.trans_le embeds.size, h.new _ (Nat.le_refl _), fresh⟩
    · exact (h.mapping c m hm).mono embeds w y hy
  · intro o ho
    have ho : o ∈ r.incoming ++ preds.zipIdx.map fun z => ⟨b, m, z.2, z.1, v⟩ := ho
    rcases List.mem_append.mp ho with ho | ho
    · obtain ⟨used, flows⟩ := h.incoming o ho
      refine ⟨used, fun new => ?_⟩
      obtain ⟨lt, like⟩ := flows new
      exact ⟨lt.trans_le embeds.size, like.mono lt embeds⟩
    · obtain ⟨z, -, rfl⟩ := List.mem_map.mp ho
      exact ⟨hv, fun _ => ⟨adds.index_lt, merged⟩⟩

theorem flowing (h : r.Writable f known rank) {o : OpenIncoming} (ho : o ∈ r.incoming) :
    (r.flowing o).Writable known ∧
      (f.values.size ≤ o.phi.index → r.function.Like rank o.phi (r.flowing o)) := by
  obtain ⟨used, flows⟩ := h.incoming o ho
  rcases r.flowing_cases o with e | ⟨m, hm, hy⟩
  · rw [e]
    exact ⟨used, fun new => (flows new).2⟩
  · obtain ⟨-, -, writable, like⟩ := h.mapping _ m hm o.value _ hy
    exact ⟨writable, fun new => (flows new).2.trans like⟩

theorem connect (h : r.Writable f known rank) : Repairing f known rank r.connect := by
  refine r.connect_induction _ h.toRepairing fun o ho g values c => ?_
  obtain ⟨writable, like⟩ := h.flowing ho
  refine ⟨?_, c.advances.trans (.setIncomingAt g _ _ _ _), ?_⟩
  · exact c.function.mapBody o.block (fun i hi => (c.function.code o.block i hi).setAt writable) fun i =>
      (sameKind_setAt i).result
  · have merges : (g.setIncomingAt o.block o.phi o.position (r.flowing o)).Matching (g.Like rank) f.values.size :=
      c.merges.setIncomingAt fun new => (like new).of_values values
    exact fun b i hi m hm new x hx => (merges b i hi m hm new x hx).of_values rfl

end Writable

end Repair

namespace Function.Repairing

theorem drop (h : Repairing f known rank g) (hb : b ∈ g.layout) (new : f.values.size ≤ m.index)
    (only : otherIncoming (g.body b) m = [y]) :
    Repairing f (fun v => known v ∧ v ≠ m) rank ((g.eraseDefinition m).2.replaceUses m y) := by
  have only := mergesOnly_of_otherIncoming hb only
  obtain ⟨i, hi, hr, pairs, hop, ⟨p, hp⟩, -⟩ := only.phi
  have flows : y ∈ i.op.operands := by
    rw [hop]
    exact List.mem_map_of_mem hp
  have like : g.Like rank m y := h.merges b i hi m hr new y flows
  have values : ((g.eraseDefinition m).2.replaceUses m y).values = g.values := g.eraseDefinition_frame.2.2.1
  refine ⟨?_, h.advances.trans ((Advances.eraseDefinition g m).trans (.replaceUses _ m y)), ?_⟩
  · exact h.function.collapse only.other ((h.function.code b i hi).operands y flows) fun _ _ _ _ _ => like.stands
  · intro c j hj z hz later x hx
    rw [replaceUses, body_mapInstructions] at hj
    obtain ⟨k, hk, rfl⟩ := List.mem_map.mp hj
    rw [Instruction.mapOp, Op.operands_mapOperands] at hx
    obtain ⟨u, hu, rfl⟩ := List.mem_map.mp hx
    have old : g.Like rank z u := h.merges c k (mem_body_eraseDefinition hk) z hz later u hu
    refine Like.of_values ?_ values
    unfold Operand.replace
    split
    · next e => exact (e ▸ old).trans like
    · exact old

theorem dropAllRedundant (fuel : Nat) {layout : List BlockId} {merges : List (BlockId × ValueId)}
    (h : Repairing f known rank g) (same : g.layout = layout)
    (added : ∀ m ∈ merges, m.1 ∈ layout ∧ f.values.size ≤ m.2.index) :
    ∃ known', Repairing f known' rank (g.dropAllRedundant fuel merges) := by
  induction fuel generalizing known g merges with
  | zero => exact ⟨known, h⟩
  | succ fuel ih =>
    let inv (state : Function × List (BlockId × ValueId)) : Prop :=
      (∃ known', Repairing f known' rank state.1) ∧ state.1.layout = layout ∧
        ∀ m ∈ state.2, m.1 ∈ layout ∧ f.values.size ≤ m.2.index
    have pass : inv (merges.foldl dropRedundant (g, [])) := by
      refine List.foldlRecOn (motive := inv) merges _ ⟨⟨known, h⟩, same, nofun⟩ ?_
      rintro ⟨g', kept⟩ ⟨⟨known', now⟩, same, kept_added⟩ m hm
      unfold dropRedundant
      dsimp only
      split
      · next y only =>
        refine ⟨⟨_, now.drop (same ▸ (added m hm).1) (added m hm).2 only⟩, ?_, kept_added⟩
        exact g'.eraseDefinition_frame.1.trans same
      · refine ⟨⟨known', now⟩, same, fun z hz => ?_⟩
        rcases List.mem_append.mp hz with hz | hz
        · exact kept_added z hz
        · exact List.mem_singleton.mp hz ▸ added m hm
    obtain ⟨⟨known', now⟩, same', kept⟩ := pass
    unfold Function.dropAllRedundant
    dsimp only
    split
    · exact ⟨known', now⟩
    · exact ih now same' kept

end Function.Repairing

/-- A function that can be written can still be written once it is repaired. -/
theorem Function.Writable.repairDominance {old : ValueId → Prop} {redefined : Redefinitions}
    (h : f.Writable known [] rank) (new : ∀ v, f.values.size ≤ v.index → known v)
    (regular : f.Regular old) (lt_old : ∀ v, old v → v.index < f.values.size)
    (restoring : ∀ (b : BlockId) m, redefined[b]? = some m → Restoring f m)
    (restores : ∀ (b : BlockId) m, redefined[b]? = some m → f.Restores known rank m) (keep : Bool) :
    ∃ known' rank', Repairing f known' rank' (f.repairDominance redefined keep) := by
  have matching {goes : ValueId → Operand → Prop} : f.Matching goes f.values.size := fun b i hi m hm later =>
    absurd (regular.proper b i hi m hm).1 (Nat.not_lt.mpr later)
  unfold Function.repairDominance
  dsimp only
  split
  · exact ⟨known, rank, h, .refl f, matching⟩
  · have range : ∀ v ∈ redefined.values, known v ∧ v.index < f.values.size := by
      intro v hv
      obtain ⟨b, m, y, hm, hy⟩ := Redefinitions.mem_values_iff.1 hv
      obtain ⟨hv, lt, -⟩ := restores b m hm v y hy
      exact ⟨hv, lt⟩
    let inv (r : Repair) : Prop := r.Within old f.values.size f.layout ∧ ∃ rank', r.Writable f known rank'
    have merged : ∀ live, inv (f.layout.foldl (Repair.block redefined.values live) ⟨f, redefined, [], []⟩) := by
      intro live
      refine Repair.merging_induction inv live ⟨?_, rank, ?_⟩ ?_ ?_
      · exact ⟨regular.mono fun v _ hv => .inl hv, rfl, Nat.le_refl _, by simp, restoring, by simp, matching⟩
      · exact ⟨⟨h, .refl f, matching⟩, new, restores, by simp⟩
      · rintro b v source r hv ⟨within, rank', now⟩
        refine ⟨within.mergeUses lt_old source, rank', { now with incoming := fun o ho => ?_ }⟩
        rcases List.mem_append.mp ho with ho | ho
        · exact now.incoming o ho
        · obtain ⟨rfl, before⟩ := within.of_mem_mergeUses lt_old ho
          exact ⟨(range _ hv).1, fun later => absurd before (Nat.not_lt.mpr later)⟩
      · rintro b hb v preds r hv ⟨within, rank', now⟩
        obtain ⟨known_v, lt⟩ := range v hv
        have lt := lt.trans_le within.size
        exact ⟨within.addMerge hb lt, now.addMerge (within.layout ▸ hb) known_v lt⟩
    obtain ⟨within, rank', now⟩ := merged _
    have connected := within.connect
    split
    · exact ⟨known, rank', now.connect⟩
    · obtain ⟨known', done⟩ := now.connect.dropAllRedundant _ rfl fun m hm => by
        obtain ⟨later, defined⟩ := connected.added m hm
        obtain ⟨i, hi, -⟩ := mem_results_iff.1 defined
        exact ⟨connected.regular.coherent.mem_layout_of_mem_body hi, later⟩
      exact ⟨known', rank', done⟩

end CheckpointRestart
