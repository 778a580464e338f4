import CheckpointRestart.Instrument.Split
import CheckpointRestart.Proofs.Collections
import CheckpointRestart.Proofs.Pointer.Extents
import CheckpointRestart.Proofs.Program.Cut

/-! # Splitting keeps what is known

Every step of the splitting cuts a block behind its merges. In the end a block is a merge block,
which holds nothing but merges and a branch, or it holds no merges. What was known of the values of
the function before is still true.
-/

namespace CheckpointRestart

namespace Function

variable {f f' g : Function} {b c rest : BlockId} {n : Nat} {v : ValueId}

/-! ## One block -/

theorem body_foldl_replacePhiBlock {old new : BlockId} (ne : old ≠ new) (ss : List BlockId)
    (co : f.Coherent) (hs : ∀ s ∈ ss, s ∈ f.layout) :
    (ss.foldl (fun f s => f.replacePhiBlock s old new) f).body c =
      if c ∈ ss then (f.body c).map (renameIncoming old new) else f.body c := by
  induction ss generalizing f with
  | nil => simp
  | cons s ss ih =>
    have step : (f.replacePhiBlock s old new).body c =
        if c = s then (f.body s).map (renameIncoming old new) else f.body c :=
      co.body_modifyBody (hs s List.mem_cons_self)
    have co' : (f.replacePhiBlock s old new).Coherent := co.modifyBody
    rw [List.foldl_cons, ih co' fun t ht => hs t (List.mem_cons_of_mem _ ht), step]
    have twice : ∀ i, renameIncoming old new (renameIncoming old new i) = renameIncoming old new i := by
      intro i
      obtain ⟨r, op⟩ := i
      cases op with
      | phi pairs =>
        simp only [renameIncoming_phi, List.map_map]
        congr 2
        refine List.map_congr_left fun ⟨x, p⟩ _ => ?_
        by_cases e : p = old <;> simp [e, ne.symm]
      | _ => rfl
    by_cases hc : c = s
    · subst hc
      by_cases hcs : c ∈ ss <;> simp [hcs, twice]
    · simp [hc]

theorem foldl_replacePhiBlock_frame (f : Function) (old new : BlockId) (ss : List BlockId) :
    let g := ss.foldl (fun f s => f.replacePhiBlock s old new) f
    g.name = f.name ∧ g.layout = f.layout ∧ g.params = f.params ∧ g.values = f.values ∧
      g.blocks.size = f.blocks.size ∧ ∀ b, g.blockName b = f.blockName b := by
  induction ss generalizing f with
  | nil => exact ⟨rfl, rfl, rfl, rfl, rfl, fun _ => rfl⟩
  | cons s ss ih =>
    obtain ⟨name, layout, params, values, size, names⟩ := ih (f.replacePhiBlock s old new)
    exact ⟨name, layout, params, values, size.trans size_blocks_modifyBody,
      fun b => (names b).trans blockName_modifyBody⟩

theorem WellFormed.map_renameIncoming (wf : f.WellFormed) (co : f.Coherent) {old : BlockId}
    (new : BlockId) (h : c ∉ f.successors old) : (f.body c).map (renameIncoming old new) = f.body c := by
  refine (List.map_congr_left fun i hi => ?_).trans (List.map_id _)
  obtain ⟨r, op⟩ := i
  cases op with
  | phi pairs =>
    rw [renameIncoming_phi]
    refine congrArg (Instruction.mk r) (congrArg Op.phi ?_)
    refine (List.map_congr_left fun z hz => ?_).trans (List.map_id _)
    obtain ⟨x, p⟩ := z
    have edge := wf.successor_of_incoming (co.mem_layout_of_mem_body hi) hi rfl hz
    have : p ≠ old := fun e => h (e ▸ edge)
    simp [this]
  | _ => rfl

theorem Terminated.of_append {is js : List Instruction} (h : Terminated (is ++ js))
    (his : ∀ i ∈ is, i.op.isTerminator = false) : Terminated js := by
  obtain ⟨inner, t, e, ht, hi⟩ := terminated_iff.1 h
  have ne : js ≠ [] := by
    rintro rfl
    rw [List.append_nil] at e
    have := his t (by simp [e])
    rw [ht] at this
    cases this
  obtain ⟨js', t', rfl⟩ : ∃ js' t', js = js' ++ [t'] :=
    ⟨js.dropLast, js.getLast ne, (List.dropLast_concat_getLast ne).symm⟩
  rw [← List.append_assoc] at e
  obtain ⟨rfl, last⟩ := List.append_inj' e rfl
  cases last
  exact terminated_iff.2 ⟨js', t, rfl, ht, fun i hi' => hi i (List.mem_append_right _ hi')⟩

theorem splitBlock_of_phis (co : f.Coherent) (wf : f.WellFormed) (hb : b ∈ f.layout)
    (phis : (f.block b).phis ≠ []) (merges : BlockSet) :
    (splitBlock (merges, f) b).1 = merges.insert b ∧
      f.Cut (splitBlock (merges, f) b).2 b ⟨f.blocks.size⟩ (f.block b).phis
        (f.block b).afterPhis := by
  let rest : BlockId := ⟨f.blocks.size⟩
  let is := (f.block b).phis
  let js := (f.block b).afterPhis
  let f₁ := (f.insertBlockAfter b ((f.block b).name ++ ".split")).2
  let f₂ := f₁.setBody rest js
  let f₃ := f₂.setBody b (is ++ [.effect (.br rest)])
  have run : splitBlock (merges, f) b = (merges.insert b,
      (f₃.successors rest).foldl (fun f s => f.replacePhiBlock s b rest) f₃) := by
    unfold splitBlock
    dsimp only
    rw [if_neg (by simpa using phis)]
    rfl
  rw [run]
  refine ⟨rfl, ?_⟩
  have fresh : rest ∉ f.layout := co.new_not_mem
  have ne : b ≠ rest := fun e => fresh (e ▸ hb)
  have before : f.body b = is ++ js := List.takeWhile_append_dropWhile.symm
  have merges_is : ∀ i ∈ is, i.op.isPhi = true := fun i hi => isPhi_of_mem_takeWhile hi
  have ends : Terminated js := by
    have := wf.terminated b hb
    rw [before] at this
    exact Terminated.of_append this fun i hi => Op.isTerminator_of_isPhi (merges_is i hi)
  have co₁ : f₁.Coherent := co.insertBlockAfter
  have layout : ∀ c, c ∈ f₁.layout ↔ c = rest ∨ c ∈ f.layout := fun c => mem_insertAfter_iff
  have body₃ : ∀ c, f₃.body c = if c = b then is ++ [.effect (.br rest)] else
      if c = rest then js else f.body c := by
    intro c
    have co₂ : f₂.Coherent := co₁.modifyBody
    have at₃ : f₃.body c = if c = b then is ++ [.effect (.br rest)] else f₂.body c :=
      co₂.body_modifyBody ((layout b).mpr (.inr hb))
    have at₂ : f₂.body c = if c = rest then js else f₁.body c :=
      co₁.body_modifyBody ((layout rest).mpr (.inl rfl))
    have at₁ : f₁.body c = if c = rest then [] else f.body c := body_insertBlockAfter
    rw [at₃, at₂, at₁]
    by_cases hc : c = rest <;> simp [hc]
  have successors : f₃.successors rest = f.successors b := by
    have ne_nil : js ≠ [] := by
      obtain ⟨xs, t, e, -⟩ := terminated_iff.1 ends
      simp [e]
    rw [successors_eq, body₃, if_neg ne.symm, if_pos rfl, successors_eq, before,
      targetsOf_append ne_nil]
  have co₃ : f₃.Coherent := (co₁.modifyBody).modifyBody
  have inside : ∀ s ∈ f₃.successors rest, s ∈ f₃.layout := by
    intro s hs
    rw [successors] at hs
    exact (layout s).mpr (.inr (wf.successor_mem hb hs))
  have body : ∀ c, ((f₃.successors rest).foldl (fun f s => f.replacePhiBlock s b rest) f₃).body c =
      if c ∈ f.successors b then (f₃.body c).map (renameIncoming b rest) else f₃.body c := by
    intro c
    rw [body_foldl_replacePhiBlock ne _ co₃ inside, successors]
  obtain ⟨name', layout', params', values', size', names'⟩ :=
    foldl_replacePhiBlock_frame f₃ b rest (f₃.successors rest)
  refine ⟨hb, fresh, before, wf.phisLead b hb, merges_is, ends, fun c => ?_, name', ?_, params',
    values', fun c hc => ?_, ?_, ?_, ?_, fun c hcb hcr => ?_⟩
  · rw [layout']
    exact layout c
  · rw [Function.entry, layout']
    exact headD_insertAfter wf.nonempty _
  · rw [names']
    exact (blockName_modifyBody.trans blockName_modifyBody).trans
      (blockName_insertBlockAfter ((co.mem_layout c).mp hc))
  · refine ⟨fun c => ?_, ?_, ?_⟩
    · rw [layout', size', co₃.mem_layout]
    · rw [layout']
      exact co₃.nodup
    · rw [params', values']
      exact co₃.params
  · rw [body, if_neg fun h => fresh (wf.successor_mem hb h), body₃, if_neg ne.symm, if_pos rfl]
  · rw [body, body₃, if_pos rfl]
    split
    · rw [List.map_append]
      rfl
    · next h =>
      have same := wf.map_renameIncoming co rest h
      rw [before, List.map_append] at same
      rw [(List.append_inj same (by simp)).1]
  · rw [body, body₃, if_neg hcb, if_neg hcr]
    split
    · rfl
    · next h => rw [wf.map_renameIncoming co rest h]

theorem splitBlock_of_plain (phis : (f.block b).phis = []) (merges : BlockSet) :
    splitBlock (merges, f) b = (merges, f) := by
  unfold splitBlock
  dsimp only
  rw [if_pos (by simpa using phis)]

/-! ## What a cut keeps -/

section Keeps

variable {is js : List Instruction} (h : Cut f f' b rest is js)

include h

/-- Every place in front of an original instruction or at an end was such a place before. -/
theorem Cut.exists_split (shaped : f.Shaped) (first : ∀ i ∈ js.head?, Original n i) {d : BlockId}
    {xs ys : List Instruction} (split : f'.body d = xs ++ ys)
    (original : ∀ i ∈ ys.head?, Original n i) :
    ∃ d' xs' ys', f.body d' = xs' ++ ys' ∧ (∀ i ∈ ys'.head?, Original n i) ∧
      ∀ w, f'.LacksAfter w d xs ↔ f.LacksAfter w d' xs' := by
  have renamed : ∀ {k : Instruction}, Original n (renameIncoming b rest k) → Original n k :=
    fun o => (original_congr sameKind_renameIncoming.result).mp o
  by_cases hr : d = rest
  · subst hr
    rw [h.body_rest] at split
    refine ⟨b, is ++ xs, ys, by rw [h.before, split, List.append_assoc], original, fun w => ?_⟩
    rw [LacksAfter, h.lacks_iff shaped, LacksAfter, results_append, List.mem_append]
    grind
  · have lacks : ∀ {w zs zs'}, results zs = results zs' →
        (f'.LacksAfter w d zs ↔ f.LacksAfter w d zs') := by
      intro w zs zs' e
      rw [LacksAfter, h.lacks_iff shaped, LacksAfter, e]
      simp [hr]
    by_cases hb : d = b
    · subst hb
      rw [h.body_front] at split
      rcases List.eq_nil_or_concat ys with rfl | ⟨ys, t, rfl⟩
      · refine ⟨d, is, js, h.before, first, fun w => lacks ?_⟩
        rw [List.append_nil] at split
        rw [← split, results_append, results_map_renameIncoming]
        simp [results, Instruction.effect]
      · rw [List.concat_eq_append] at original
        rw [List.concat_eq_append, ← List.append_assoc] at split
        obtain ⟨front, last⟩ := List.append_inj' split rfl
        obtain ⟨is₁, is₂, rfl, rfl, rfl⟩ := List.map_eq_append_iff.mp front
        refine ⟨d, is₁, is₂ ++ js, by rw [h.before, List.append_assoc], fun i hi => ?_,
          fun w => lacks results_map_renameIncoming⟩
        cases is₂ with
        | nil => exact first i hi
        | cons k is₂ =>
          obtain rfl : k = i := by simpa using hi
          exact renamed (original _ (by simp))
    · rw [h.body_other d hb hr] at split
      obtain ⟨xs', ys', split', rfl, rfl⟩ := List.map_eq_append_iff.mp split
      refine ⟨d, xs', ys', split', fun i hi => ?_, fun w => lacks results_map_renameIncoming⟩
      exact renamed (original _ (by rw [List.head?_map]; exact Option.mem_map_of_mem _ hi))

theorem Covers.cut {c : ValueId} (cover : f.Covers n c v) (shaped : f.Shaped)
    (first : ∀ i ∈ js.head?, Original n i) : f'.Covers n c v := by
  rw [Covers, h.params]
  refine cover.imp_right fun cover d xs ys split original lacks => ?_
  obtain ⟨d', xs', ys', split', original', same⟩ := h.exists_split shaped first split original
  obtain ⟨given, lacks⟩ := cover d' xs' ys' split' original' ((same c).mp lacks)
  exact ⟨given, (same v).mpr lacks⟩

end Keeps

/-- `f'` comes from `f` by cuts in front of original instructions. -/
inductive Cuts (n : Nat) (f : Function) : Function → Prop
  | refl : Cuts n f f
  | step {g g' : Function} {b rest : BlockId} {is js : List Instruction} : Cuts n f g →
    Cut g g' b rest is js → (∀ i ∈ js.head?, Original n i) → Cuts n f g'

namespace Cuts

theorem frame (h : Cuts n f g) : g.entry = f.entry ∧ g.params = f.params ∧ g.values = f.values := by
  induction h with
  | refl => exact ⟨rfl, rfl, rfl⟩
  | step _ cut _ ih =>
    exact ⟨cut.entry.trans ih.1, cut.params.trans ih.2.1, cut.values.trans ih.2.2⟩

theorem wellFormed (h : Cuts n f g) (co : f.Coherent) (wf : f.WellFormed) :
    g.Coherent ∧ g.WellFormed := by
  induction h with
  | refl => exact ⟨co, wf⟩
  | step _ cut _ ih => exact ⟨cut.coherent, cut.wellFormed ih.1 ih.2⟩

theorem strict (h : Cuts n f g) (co : f.Coherent) (wf : f.WellFormed) (strict : f.Strict) :
    g.Strict := by
  induction h with
  | refl => exact strict
  | step cuts cut _ ih =>
    rw [Strict, cut.params]
    exact cut.strictFor (cuts.wellFormed co wf).2 ih

theorem covers (h : Cuts n f g) (co : f.Coherent) (wf : f.WellFormed) {c : ValueId}
    (cover : f.Covers n c v) : g.Covers n c v := by
  induction h with
  | refl => exact cover
  | step cuts cut first ih => exact ih.cut cut (cuts.wellFormed co wf).2.toShaped first

theorem exists_mem_body (h : Cuts n f g) {i : Instruction} (hc : c ∈ f.layout)
    (hi : i ∈ f.body c) (phi : i.op.isPhi = false) : ∃ d ∈ g.layout, i ∈ g.body d := by
  induction h with
  | refl => exact ⟨c, hc, hi⟩
  | step _ cut _ ih =>
    obtain ⟨d, hd, hi⟩ := ih
    exact cut.mem_body_of_plain hi phi hd

theorem exists_of_mem_body (h : Cuts n f g) {i : Instruction} (hi : i ∈ g.body c) :
    (∃ d, ∃ k ∈ f.body d, SameKind k i ∧ i.op.usedValues = k.op.usedValues ∧
      (k.op.isPhi = false → i = k) ∧ (k.op.isPhi = true → c = d)) ∨
      ∃ d, i = .effect (.br d) := by
  induction h generalizing c i with
  | refl => exact .inl ⟨c, i, hi, .refl i, rfl, fun _ => rfl, fun _ => rfl⟩
  | step _ cut _ ih =>
    rcases cut.exists_of_mem_body hi with ⟨k, hk, rfl, hr⟩ | ⟨-, rfl⟩
    · rcases ih hk with ⟨d, j, hj, kind, used, same, place⟩ | ⟨d, rfl⟩
      · refine .inl ⟨d, j, hj, kind.trans sameKind_renameIncoming,
          usedValues_renameIncoming.trans used, fun phi => ?_, fun phi => ?_⟩
        · rw [renameIncoming_of_not_isPhi (kind.isPhi.trans phi), same phi]
        · have := place phi
          rwa [if_neg (hr (kind.isPhi.trans phi))] at this
      · exact .inr ⟨d, rfl⟩
    · exact .inr ⟨_, rfl⟩

theorem plain (h : Cuts n f g) (hb : ∀ i ∈ f.body b, i.op.isPhi = false) :
    ∀ i ∈ g.body b, i.op.isPhi = false := by
  intro i hi
  rcases h.exists_of_mem_body hi with ⟨d, k, hk, kind, -, -, place⟩ | ⟨d, rfl⟩
  · by_contra phi
    rw [kind.isPhi, Bool.not_eq_false] at phi
    simp [hb k (place phi ▸ hk)] at phi
  · rfl

end Cuts

/-! ## All blocks -/

/-- Nothing but merges and a branch. -/
def MergeBlock (body : List Instruction) : Prop :=
  ∃ ps next, body = ps ++ [.effect (.br next)] ∧ ∀ i ∈ ps, i.op.isPhi = true

/-- The blocks of `back` have yet to be looked at. -/
structure Splitting (n : Nat) (f : Function) (back : List BlockId) (merges : BlockSet)
    (g : Function) : Prop where
  cuts : Cuts n f g
  todo : ∀ b ∈ back, b ∈ g.layout ∧ b ∉ merges ∧
    (g.body b).dropWhile (·.op.isPhi) = (f.body b).dropWhile (·.op.isPhi) ∧
    ((∀ i ∈ f.body b, i.op.isPhi = false) → g.body b = f.body b)
  inside : ∀ b ∈ merges, b ∈ g.layout ∧ MergeBlock (g.body b)
  plain : ∀ b ∈ g.layout, b ∉ back → b ∉ merges → ∀ i ∈ g.body b, i.op.isPhi = false

theorem MergeBlock.map_renameIncoming {old new : BlockId} {body : List Instruction}
    (h : MergeBlock body) : MergeBlock (body.map (renameIncoming old new)) := by
  obtain ⟨ps, next, rfl, phis⟩ := h
  refine ⟨ps.map (renameIncoming old new), next, by rw [List.map_append]; rfl, fun i hi => ?_⟩
  obtain ⟨k, hk, rfl⟩ := List.mem_map.mp hi
  rw [sameKind_renameIncoming.isPhi, phis k hk]

theorem dropWhile_map_renameIncoming {old new : BlockId} {body : List Instruction}
    (lead : PhisLead body) : (body.map (renameIncoming old new)).dropWhile (·.op.isPhi) =
      body.dropWhile (·.op.isPhi) := by
  have split : body.takeWhile (·.op.isPhi) ++ body.dropWhile (·.op.isPhi) = body :=
    List.takeWhile_append_dropWhile
  have phis : ∀ i ∈ (body.takeWhile (·.op.isPhi)).map (renameIncoming old new),
      i.op.isPhi = true := by
    intro i hi
    obtain ⟨k, hk, rfl⟩ := List.mem_map.mp hi
    rw [sameKind_renameIncoming.isPhi, isPhi_of_mem_takeWhile hk]
  rw [← split, List.map_append, List.dropWhile_append_of_pos (by simpa using phis),
    map_renameIncoming_of_plain lead, split, dropWhile_of_plain lead]

theorem Splitting.step {back : List BlockId} {merges : BlockSet}
    (h : Splitting n f (b :: back) merges g) (co : f.Coherent) (wf : f.WellFormed)
    (nodup : (b :: back).Nodup) (first : (∃ i ∈ f.body b, i.op.isPhi = true) →
      ∀ i ∈ ((f.body b).dropWhile (·.op.isPhi)).head?, Original n i) :
    Splitting n f back (splitBlock (merges, g) b).1 (splitBlock (merges, g) b).2 := by
  obtain ⟨co, wf⟩ := h.cuts.wellFormed co wf
  obtain ⟨hb, fresh, same, whole⟩ := h.todo b List.mem_cons_self
  have not_back : b ∉ back := (List.nodup_cons.mp nodup).1
  by_cases phis : (g.block b).phis = []
  · rw [splitBlock_of_plain phis]
    refine ⟨h.cuts, fun c hc => h.todo c (List.mem_cons_of_mem _ hc), h.inside,
      fun c hc hback hm => ?_⟩
    by_cases e : c = b
    · subst e
      have split : (g.block c).phis ++ (g.block c).afterPhis = g.body c :=
        List.takeWhile_append_dropWhile
      rw [phis, List.nil_append] at split
      rw [← split]
      exact wf.phisLead c hc
    · exact h.plain c hc (by simp [e, hback]) hm
  · obtain ⟨merged, cut⟩ := splitBlock_of_phis co wf hb phis merges
    rw [merged]
    have first : ∀ i ∈ (g.block b).afterPhis.head?, Original n i := by
      refine fun i hi => first ?_ i (same ▸ hi)
      by_contra none
      have plain : ∀ i ∈ f.body b, i.op.isPhi = false := by simpa using none
      refine phis (List.eq_nil_iff_forall_not_mem.mpr fun i hi => ?_)
      have hi' : i ∈ g.body b := (List.takeWhile_sublist _).subset hi
      rw [whole plain] at hi'
      simpa [plain i hi'] using isPhi_of_mem_takeWhile hi
    refine ⟨h.cuts.step cut first, fun c hc => ?_, fun c hc => ?_, fun c hc hback hm => ?_⟩
    · obtain ⟨hc', hm, same, whole⟩ := h.todo c (List.mem_cons_of_mem _ hc)
      have ne : c ≠ b := fun e => not_back (e ▸ hc)
      have hr : c ≠ ⟨g.blocks.size⟩ := fun e => cut.fresh (e ▸ hc')
      refine ⟨(cut.layout c).mpr (.inr hc'), ?_, ?_, fun plain => ?_⟩
      · rw [TreeSet.mem_insert_iff]
        exact fun h => h.elim ne hm
      · rw [cut.body_other c ne hr, dropWhile_map_renameIncoming (wf.phisLead c hc'), same]
      · rw [cut.body_other c ne hr, whole plain, map_renameIncoming_of_plain plain]
    · rcases TreeSet.mem_insert_iff.1 hc with rfl | hc
      · refine ⟨(cut.layout c).mpr (.inr hb), _, _, cut.body_front, fun i hi => ?_⟩
        obtain ⟨k, hk, rfl⟩ := List.mem_map.mp hi
        rw [sameKind_renameIncoming.isPhi, cut.merges k hk]
      · obtain ⟨hc', block⟩ := h.inside c hc
        have ne : c ≠ b := fun e => fresh (e ▸ hc)
        have hr : c ≠ ⟨g.blocks.size⟩ := fun e => cut.fresh (e ▸ hc')
        refine ⟨(cut.layout c).mpr (.inr hc'), ?_⟩
        rw [cut.body_other c ne hr]
        exact block.map_renameIncoming
    · rw [TreeSet.mem_insert_iff, not_or] at hm
      rcases (cut.layout c).mp hc with rfl | hc
      · rw [cut.body_rest]
        exact cut.plain
      · have hr : c ≠ ⟨g.blocks.size⟩ := fun e => cut.fresh (e ▸ hc)
        have plain := h.plain c hc (by simp [hm.1, hback]) hm.2
        rw [cut.body_other c hm.1 hr, map_renameIncoming_of_plain plain]
        exact plain

/-- Splitting all blocks of a function. -/
theorem splitting_splitMerges (co : f.Coherent) (wf : f.WellFormed)
    (first : ∀ b ∈ f.layout, b ≠ f.entry →
      ∀ i ∈ ((f.body b).dropWhile (·.op.isPhi)).head?, Original n i)
    (plain : ∀ i ∈ f.body f.entry, i.op.isPhi = false) :
    Splitting n f [] f.splitMerges.1 f.splitMerges.2 := by
  suffices ∀ back merges g, (∀ b ∈ back, b ∈ f.layout) → back.Nodup →
      Splitting n f back merges g →
      Splitting n f [] (back.foldl splitBlock (merges, g)).1 (back.foldl splitBlock (merges, g)).2 by
    refine this f.layout ∅ f (fun b => id) co.nodup ⟨.refl, fun b hb => ?_, by simp, ?_⟩
    · exact ⟨hb, by simp, rfl, fun _ => rfl⟩
    · exact fun b hb not => absurd hb not
  intro back
  induction back with
  | nil => exact fun merges g _ _ h => h
  | cons b back ih =>
    intro merges g inside nodup h
    refine ih _ _ (fun c hc => inside c (List.mem_cons_of_mem _ hc)) (List.nodup_cons.mp nodup).2
      (h.step co wf nodup fun ⟨i, hi, phi⟩ => ?_)
    refine first b (inside b List.mem_cons_self) fun e => ?_
    rw [e] at hi
    simp [plain i hi] at phi

end Function

end CheckpointRestart
