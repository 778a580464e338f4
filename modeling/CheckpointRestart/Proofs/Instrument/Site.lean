import CheckpointRestart.Instrument.Site
import CheckpointRestart.Proofs.Flow.Liveness
import CheckpointRestart.Proofs.Flow.Uses
import CheckpointRestart.Proofs.Instrument.Ready
import CheckpointRestart.Proofs.Pointer.Dependencies

/-! # What is live at a site

A value is kept for a place where it is used, or where a value that depends on it is used. All that
is kept for a place is at hand there, so what is live at a site is at hand at the site.
-/

namespace CheckpointRestart

namespace Function

variable {f : Function} {b c : BlockId} {v w : ValueId} {place : UsePoint}

/-- The code of its block that runs before a place. -/
def before (f : Function) (place : UsePoint) : List Instruction :=
  match place.position with
  | some n => (f.body place.block).take n
  | none => f.body place.block

/-- A value that is defined whenever control gets to a place. -/
def AtHandAt (f : Function) (place : UsePoint) (v : ValueId) : Prop :=
  v ∈ f.params ∨ ¬ f.LacksAfter v place.block (f.before place)

end Function

theorem Scope.available_iff {f : Function} {place : UsePoint} {v : ValueId} (shaped : f.Shaped)
    (reach : f.Reachable place.block) :
    (ofFunction f).available place v = true ↔ f.AtHandAt place v := by
  obtain ⟨b, position⟩ := place
  cases position with
  | some n => exact definedBefore_iff shaped reach
  | none =>
    -- at the end of a block, whatever the block defines is at hand
    have whole := definedBefore_iff shaped reach (v := v) (n := (f.body b).length)
    rw [List.take_length] at whole
    refine Iff.trans (Bool.eq_iff_iff.mp ?_) whole
    unfold available definedBefore
    congr 1
    cases hd : (ofFunction f).definition? v with
    | none => rfl
    | some l =>
      dsimp only
      split
      · next e =>
        obtain ⟨hl, i, hi, -⟩ := (definition?_eq_some_iff shaped).mp hd
        have lt := (List.getElem?_eq_some_iff.mp hi).1
        rw [e] at lt hl ⊢
        rw [decide_eq_true lt, ofFunction, Dominators.dominates_compute_iff]
        exact ⟨hl, reach, fun way => way.inside_end.2 rfl⟩
      · rfl

namespace Function

variable {f : Function} {b c : BlockId} {v w : ValueId} {place : UsePoint}

/-- The function uses `v` at a place. A merge uses what it takes at the end of the block it takes
it from, and does not count as using itself. -/
def UsedAt (f : Function) (place : UsePoint) (v : ValueId) : Prop :=
  (∃ n i, place.position = some n ∧ (f.body place.block)[n]? = some i ∧ i.op.isPhi = false ∧
    v ∈ i.op.usedValues) ∨
  (place.position = none ∧ ∃ b ∈ f.layout, ∃ i ∈ f.body b, ∃ pairs, i.op = .phi pairs ∧
    (.value v, place.block) ∈ pairs ∧ i.result ≠ some v)

/-- Control can get from the start of a block to a place without passing a definition of `w`. -/
inductive Leads (f : Function) (w : ValueId) (place : UsePoint) : BlockId → Prop
  | here : w ∉ results (f.before place) → Leads f w place place.block
  | step {b c : BlockId} : w ∉ results (f.body b) → c ∈ f.successors b → Leads f w place c →
    Leads f w place b

theorem Leads.lacksAfter (h : f.Leads w place b) (lacks : f.Lacks w b) :
    f.LacksAfter w place.block (f.before place) := by
  induction h with
  | here undefined => exact ⟨lacks, undefined⟩
  | step undefined edge _ ih => exact ih (.step lacks undefined edge)

theorem Leads.reachable (h : f.Leads w place b) (shaped : f.Shaped) (reach : f.Reachable b) :
    f.Reachable place.block := by
  induction h with
  | here _ => exact reach
  | step _ edge _ ih => exact ih (.step reach edge (shaped.successor_mem reach.inside_end edge))

theorem Leads.not_lacks (h : f.Leads w place b) (ready : f.AtHandAt place w) (given : w ∉ f.params) :
    ¬ f.Lacks w b :=
  fun lacks => ready.resolve_left given (h.lacksAfter lacks)

/-! ## Live uses -/

variable {merges : BlockSet} {companions : Companions}

/-- `w` is kept for the use of something at a place. -/
def Wanted (f : Function) (companions : Companions) (place : UsePoint) (w : ValueId) : Prop :=
  ∃ v, f.UsedAt place v ∧ (w = v ∨ w ∈ companions v place)

theorem wanted_of_live {u : Use} (wf : f.WellFormed) (hb : b ∈ f.layout)
    (live : (f.summarize merges companions).Live b u) :
    (u.source = none → ∃ place, f.Wanted companions place u.value ∧ f.Leads u.value place b) ∧
      ∀ q, u.source = some q → f.Wanted companions ⟨q, none⟩ u.value := by
  induction live with
  | @here b u use =>
    rw [node_summarize hb, mem_uses_node_iff] at use
    obtain ⟨n, i, hi, makes, free⟩ := use
    rcases makes with ⟨phi, source, v, hv, wanted⟩ | ⟨pairs, v, q, hop, hq, ne, source, wanted⟩
    · refine ⟨fun _ => ⟨⟨b, some n⟩, ⟨v, .inl ⟨n, i, rfl, hi, phi, hv⟩, wanted⟩, ?_⟩,
        fun q hq => ?_⟩
      · exact (Leads.here (free source) : f.Leads u.value ⟨b, some n⟩ b)
      · rw [source] at hq
        cases hq
    · refine ⟨fun none => ?_, fun q' hq' => ?_⟩
      · rw [source] at none
        cases none
      · rw [source] at hq'
        cases hq'
        exact ⟨v, .inr ⟨rfl, b, hb, i, List.mem_of_getElem? hi, pairs, hop, hq, ne⟩, wanted⟩
  | @later b c u edge _ passes free ih =>
    rw [node_summarize hb] at edge free
    rw [mem_defs_node_iff, not_or] at free
    obtain ⟨ordinary, merge⟩ := ih (wf.successor_mem hb edge)
    refine ⟨fun _ => ?_, fun q hq => by cases hq⟩
    cases hs : u.source with
    | none =>
      obtain ⟨place, wanted, way⟩ := ordinary hs
      exact ⟨place, wanted, .step free.1 edge way⟩
    | some q =>
      obtain rfl : q = b := by simpa [Use.passes, hs] using passes
      exact ⟨⟨q, none⟩, merge q hs, (Leads.here free.1 : f.Leads u.value ⟨q, none⟩ q)⟩

end Function

/-! ## What is kept for a place is at hand -/

namespace Ready

open CheckpointRestart.Function

variable {n : Nat} {f : Function} {e : Extents} {place : UsePoint} {v w c s : ValueId} {x : Extent}

/-- The companions of the uses of a function. -/
abbrev companions (f : Function) (e : Extents) : Companions :=
  e.companions (Scope.ofFunction f)

theorem available_iff (h : Ready n f e) (reach : f.Reachable place.block) :
    (Scope.ofFunction f).available place v = true ↔ f.AtHandAt place v :=
  Scope.available_iff h.wellFormed.toShaped reach

theorem atHandAt_of_usedAt (h : Ready n f e) (used : f.UsedAt place v) : f.AtHandAt place v := by
  by_cases given : v ∈ f.params
  · exact .inl given
  refine .inr fun ⟨lacks, undefined⟩ => given ?_
  obtain ⟨b, position⟩ := place
  rcases used with ⟨k, i, hk, hi, phi, hv⟩ | ⟨hk, d, hd, i, hi, pairs, hop, hq, -⟩
  · cases hk
    exact h.strict.operands b v (exposed_iff_getElem?.2 ⟨k, i, hi, phi, hv, undefined⟩) lacks
  · cases hk
    exact h.strict.incoming d hd v b ⟨i, hi, pairs, hop, hq⟩ lacks undefined

theorem atHandAt_of_covers (h : Ready n f e) (used : f.UsedAt place v)
    (pointer : (f.valueType v).isPointer = true) (cover : f.Covers n c w)
    (ready : f.AtHandAt place w) : f.AtHandAt place c := by
  refine cover.imp id fun cover lacks => ?_
  obtain ⟨b, position⟩ := place
  rcases used with ⟨k, i, hk, hi, -, hv⟩ | ⟨hk, -⟩
  · cases hk
    have split : f.body b = (f.body b).take k ++ (f.body b).drop k := (List.take_append_drop _ _).symm
    have original : Original n i := by
      by_contra new
      rw [h.added b i (List.mem_of_getElem? hi) new v hv] at pointer
      cases pointer
    have head : ∀ j ∈ ((f.body b).drop k).head?, Original n j := by
      intro j hj
      rw [List.head?_drop, hi] at hj
      cases hj
      exact original
    obtain ⟨given, lacks⟩ := cover b _ _ split head lacks
    exact ready.elim given (· lacks)
  · cases hk
    obtain ⟨given, lacks⟩ := cover b _ [] (List.append_nil _).symm (by simp) lacks
    exact ready.elim given (· lacks)

theorem covers_scalar (h : Ready n f e) (known : e.get? v = some x) (hc : c ∈ x.scalars) :
    f.Covers n c v := by
  rcases List.mem_append.mp hc with hc | hc
  · exact (h.sizes v x known c hc).1
  · have index := Option.mem_toList.mp hc
    cases h.origin v x known with
    | derived d der =>
      exact h.strict.covers_operand h.wellFormed.toShaped d.1 d.2 rfl der.isPhi (der.index_mem index)
    | parameter | alloca | malloc | merge => cases index

/-- What is kept for a place is at hand there. -/
theorem atHandAt_of_wanted (h : Ready n f e) (reach : f.Reachable place.block)
    (wanted : f.Wanted (companions f e) place w) : f.AtHandAt place w := by
  obtain ⟨v, used, why⟩ := wanted
  have ready := h.atHandAt_of_usedAt used
  rcases why with rfl | why
  · exact ready
  · cases known : e.get? v with
    | none =>
      rw [companions, Extents.companions, Extents.dependencies_eq_nil known] at why
      cases why
    | some x =>
      have pointer := h.pointer v x known
      rcases Extents.justified_of_mem_dependencies why with rfl | kept | ⟨u, y, hu, hy, hw⟩
      · exact ready
      · exact (h.available_iff reach).mp kept
      · have ready_u : f.AtHandAt place u := by
          rcases hu with rfl | kept
          · exact ready
          · exact (h.available_iff reach).mp kept
        exact h.atHandAt_of_covers used pointer (h.covers_scalar hy hw) ready_u

/-! ## What is live is at hand -/

variable {merges : BlockSet} {b : BlockId}

theorem not_lacks_of_live (h : Ready n f e) (reach : f.Reachable b) (given : w ∉ f.params)
    (live : (f.summarize merges (companions f e)).Live b ⟨w, none⟩) : ¬ f.Lacks w b := by
  obtain ⟨place, wanted, way⟩ := (wanted_of_live h.wellFormed reach.inside_end live).1 rfl
  have reach_place := way.reachable h.wellFormed.toShaped reach
  exact way.not_lacks (h.atHandAt_of_wanted reach_place wanted) given

end Ready

theorem Liveness.of_mem_sites {l : Liveness} {site : Site} (h : site ∈ l.sites) :
    site.block ∈ l.summary.layout ∧ (l.summary.node site.block).isMerge = false ∧
      site.live = l.liveValues site.block := by
  obtain ⟨⟨b, label⟩, listed, rfl⟩ := List.mem_map.mp h
  obtain ⟨hb, admissible⟩ := List.mem_filter.mp (List.fst_mem_of_mem_zipIdx listed)
  simp only [Liveness.admissible, Bool.and_eq_true, Bool.not_eq_true'] at admissible
  exact ⟨hb, admissible.1.1.1, rfl⟩

end CheckpointRestart
