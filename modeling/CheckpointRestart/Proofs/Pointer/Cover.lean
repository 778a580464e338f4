import CheckpointRestart.Proofs.Program.Collapse
import CheckpointRestart.Proofs.Program.Relabel

/-! # Values that are there whenever another one is

The sizes of a pointer have to be at hand wherever the pointer is. They are defined in front of it,
or right behind it by an instruction that was added for the purpose, so the only places at which
the pointer is defined and a size may be lacking lie in front of such additions. Values from
`n` on count as added.
-/

namespace CheckpointRestart

namespace Function

variable {f f' : Function} {n : Nat} {b d : BlockId} {c s v : ValueId}
  {is js : List Instruction} {i j : Instruction}

/-- Control can get behind the first instructions of a block, `is`, without having passed a
definition of `v`. -/
def LacksAfter (f : Function) (v : ValueId) (b : BlockId) (is : List Instruction) : Prop :=
  f.Lacks v b ∧ v ∉ results is

/-- The instruction does not define an added value. -/
def Original (n : Nat) (i : Instruction) : Prop :=
  ∀ r, i.result = some r → r.index < n

/-- Where `c` may be lacking in front of an original instruction or at the end of a block, `v` may
be lacking too. -/
def Covers (f : Function) (n : Nat) (c v : ValueId) : Prop :=
  c ∈ f.params ∨ ∀ b is js, f.body b = is ++ js → (∀ i ∈ js.head?, Original n i) →
    f.LacksAfter c b is → v ∉ f.params ∧ f.LacksAfter v b is

theorem Covers.atEnd (h : f.Covers n c v) (lacks : f.Lacks c b) (undefined : c ∉ results (f.body b))
    (given : c ∉ f.params) : v ∉ f.params ∧ f.Lacks v b ∧ v ∉ results (f.body b) :=
  h.resolve_left given b (f.body b) [] (List.append_nil _).symm (by simp) ⟨lacks, undefined⟩

theorem Covers.atStart (h : f.Covers n c v) (given : c ∉ f.params) (lacks : f.Lacks c b) :
    f.Lacks v b := by
  cases lacks with
  | entry => exact .entry
  | step way undefined edge =>
    obtain ⟨_, lacks, undefined⟩ := h.atEnd way undefined given
    exact .step lacks undefined edge

theorem exposed_of_append (split : f.body b = is ++ js) (h : Exposed v is) :
    Exposed v (f.body b) := by
  rw [split, exposed_append_iff]
  exact .inl h

theorem Shaped.mem_of_mem_results (shaped : f.Shaped) (hd : d ∈ f.layout) (hi : i ∈ f.body d)
    (hr : i.result = some v) (hb : b ∈ f.layout) (split : f.body b = is ++ js)
    (hv : v ∈ results is) : b = d ∧ i ∈ is := by
  obtain ⟨k, hk, hkr⟩ := mem_results_iff.1 hv
  obtain ⟨p, hp⟩ := List.getElem?_of_mem hi
  obtain ⟨q, hq⟩ := List.getElem?_of_mem hk
  have lt : q < is.length := (List.getElem?_eq_some_iff.mp hq).1
  have at_b : (f.body b)[q]? = some k := by rw [split, List.getElem?_append_left lt, hq]
  have at_i : f.DefinedAt v ⟨d, p⟩ := ⟨hd, i, hp, hr⟩
  have at_k : f.DefinedAt v ⟨b, q⟩ := ⟨hb, k, at_b, hkr⟩
  cases at_i.unique shaped at_k
  rw [hp] at at_b
  cases at_b
  exact ⟨rfl, hk⟩

theorem Strict.lacksAfter_of_operand (strict : f.Strict) (shaped : f.Shaped) (hd : d ∈ f.layout)
    (hi : i ∈ f.body d) (hr : i.result = some v) (phi : i.op.isPhi = false)
    (use : s ∈ i.op.usedValues) (given : s ∉ f.params) (split : f.body b = is ++ js)
    (lacks : f.LacksAfter s b is) : f.LacksAfter v b is := by
  have start : ∀ {b}, f.Lacks s b → f.Lacks v b := by
    intro b lacks
    induction lacks with
    | entry => exact .entry
    | @step p b way undefined edge ih =>
      refine .step ih (fun hv => given ?_) edge
      obtain ⟨rfl, _⟩ := shaped.mem_of_mem_results hd hi hr (way.mem_layout shaped)
        (List.append_nil _).symm hv
      exact strict.operands p s (exposed_of_use hi phi use undefined) way
  refine ⟨start lacks.1, fun hv => given ?_⟩
  obtain ⟨rfl, within⟩ := shaped.mem_of_mem_results hd hi hr (lacks.1.mem_layout shaped) split hv
  exact strict.operands b s (exposed_of_append split (exposed_of_use within phi use lacks.2)) lacks.1

theorem Covers.of_operand (h : f.Covers n c s) (strict : f.Strict) (shaped : f.Shaped)
    (hd : d ∈ f.layout) (hi : i ∈ f.body d) (hr : i.result = some v) (phi : i.op.isPhi = false)
    (use : s ∈ i.op.usedValues) : f.Covers n c v := by
  refine h.imp_right fun cover b is js split original lacks => ?_
  obtain ⟨given, lacks⟩ := cover b is js split original lacks
  exact ⟨shaped.params v (mem_defined_iff.2 ⟨d, hd, mem_results_iff.2 ⟨i, hi, hr⟩⟩),
    strict.lacksAfter_of_operand shaped hd hi hr phi use given split lacks⟩

theorem Strict.covers_operand (strict : f.Strict) (shaped : f.Shaped) (hd : d ∈ f.layout)
    (hi : i ∈ f.body d) (hr : i.result = some v) (phi : i.op.isPhi = false)
    (use : s ∈ i.op.usedValues) : f.Covers n s v := by
  by_cases given : s ∈ f.params
  · exact .inl given
  · refine .inr fun b is js split _ lacks => ⟨?_, ?_⟩
    · exact shaped.params v (mem_defined_iff.2 ⟨d, hd, mem_results_iff.2 ⟨i, hi, hr⟩⟩)
    · exact strict.lacksAfter_of_operand shaped hd hi hr phi use given split lacks

/-! ## Covering is kept -/

theorem Inserted.exists_split {is₀ js₀ : List Instruction} (h : Inserted f f' d is₀ js₀ j)
    (new : ¬ Original n j) (split : f'.body b = is ++ js) (original : ∀ i ∈ js.head?, Original n i) :
    ∃ is' js', f.body b = is' ++ js' ∧ (∀ i ∈ js'.head?, Original n i) ∧
      ∀ v, j.result ≠ some v → (v ∈ results is ↔ v ∈ results is') := by
  by_cases hb : b = d
  · subst hb
    rw [h.after] at split
    rcases List.append_eq_append_iff.mp split with ⟨k, hk, rest⟩ | ⟨k, hk, rest⟩
    · cases k with
      | nil =>
        simp only [List.nil_append] at rest
        exact absurd (original j (by simp [← rest])) new
      | cons _ k =>
        simp only [List.cons_append, List.cons.injEq] at rest
        obtain ⟨rfl, rest⟩ := rest
        refine ⟨is₀ ++ k, js, by rw [h.before, rest, List.append_assoc], original, fun v hv => ?_⟩
        rw [hk]
        simp [results_append, results_cons, hv]
    · refine ⟨is, k ++ js₀, by rw [h.before, hk, List.append_assoc], ?_, fun v _ => Iff.rfl⟩
      cases k with
      | nil =>
        simp only [List.nil_append] at rest
        exact absurd (original j (by simp [rest])) new
      | cons i k =>
        simp only [List.cons_append] at rest ⊢
        simpa [rest] using original
  · rw [h.others b hb] at split
    exact ⟨is, js, split, original, fun v _ => Iff.rfl⟩

theorem Covers.inserted {is₀ js₀ : List Instruction} (cover : f.Covers n c v)
    (h : Inserted f f' d is₀ js₀ j) (new : ¬ Original n j) (hc : j.result ≠ some c)
    (hv : j.result ≠ some v) : f'.Covers n c v := by
  rw [Covers, h.params]
  refine cover.imp_right fun cover b is js split original lacks => ?_
  obtain ⟨is', js', split', original', same⟩ := h.exists_split new split original
  obtain ⟨given, lacks'⟩ := cover b is' js' split' original'
    ⟨(h.lacks_iff hc).mp lacks.1, fun hc' => lacks.2 ((same c hc).mpr hc')⟩
  exact ⟨given, (h.lacks_iff hv).mpr lacks'.1, fun hv' => lacks'.2 ((same v hv).mp hv')⟩

theorem Covers.relabelled (cover : f.Covers n c v) (h : Relabelled f f') : f'.Covers n c v := by
  rw [Covers, h.params]
  refine cover.imp_right fun cover b is js split original lacks => ?_
  obtain ⟨g, hg, same⟩ := h.body b
  rw [hg] at split
  obtain ⟨is', js', split', rfl, rfl⟩ := List.map_eq_append_iff.mp split
  rw [split'] at same
  have results_eq : results (is'.map g) = results is' :=
    results_map fun i hi => same i (List.mem_append_left _ hi)
  rw [LacksAfter, results_eq, h.lacks_iff] at lacks ⊢
  refine cover b is' js' split' (fun i hi r hr => ?_) lacks
  have hi' : i ∈ js' := List.mem_of_mem_head? hi
  refine original (g i) (by simpa using ⟨i, hi, rfl⟩) r ?_
  rw [(same i (List.mem_append_right _ hi')).result, hr]

/-- A value is covered by one that the same block defines in front of it, or behind it with
nothing original in between. -/
theorem Shaped.covers_of_block (shaped : f.Shaped) (hd : d ∈ f.layout)
    (hv : v ∈ results (f.body d)) (hc : c ∈ results (f.body d))
    (within : ∀ is js, f.body d = is ++ js → (∀ i ∈ js.head?, Original n i) → v ∈ results is →
      c ∈ results is) : f.Covers n c v := by
  have start : ∀ {b}, f.Lacks c b → f.Lacks v b := by
    intro b lacks
    induction lacks with
    | entry => exact .entry
    | @step p b way undefined edge ih =>
      refine .step ih (fun hv' => ?_) edge
      have := shaped.defining_block (way.mem_layout shaped) hv' hd hv
      exact undefined (this ▸ hc)
  refine .inr fun b is js split original lacks => ⟨?_, start lacks.1, fun hv' => ?_⟩
  · exact shaped.params v (mem_defined_iff.2 ⟨d, hd, hv⟩)
  · have hb : b = d := by
      refine shaped.defining_block (lacks.1.mem_layout shaped) ?_ hd hv
      rw [split, results_append]
      exact List.mem_append_left _ hv'
    subst hb
    exact lacks.2 (within is js split original hv')

theorem mem_results_of_adjacent {k : Instruction} {r : ValueId} {xs ys : List Instruction}
    (before : v ∉ results xs) (hj : j.result = some r)
    (new : n ≤ r.index) (split : xs ++ k :: j :: ys = is ++ js)
    (original : ∀ i ∈ js.head?, Original n i) (hv : v ∈ results is) : r ∈ results is := by
  induction xs generalizing is with
  | nil =>
    cases is with
    | nil => cases hv
    | cons i is =>
      obtain ⟨rfl, rest⟩ := List.cons.inj split
      cases is with
      | nil =>
        obtain rfl : j :: ys = js := rest
        exact absurd (original j rfl r hj) (by omega)
      | cons i is =>
        obtain ⟨rfl, -⟩ := List.cons.inj rest
        simp [results_cons, hj]
  | cons x xs ih =>
    cases is with
    | nil => cases hv
    | cons i is =>
      obtain ⟨rfl, rest⟩ := List.cons.inj split
      rw [results_cons, List.mem_append] at before hv ⊢
      rw [not_or] at before
      exact .inr (ih before.2 rest (hv.resolve_left before.1))

theorem exists_split_of_collapseBody {x : ValueId} {y : Operand} {body : List Instruction}
    (h : collapseBody x y body = is ++ js) :
    ∃ is' js', body = is' ++ js' ∧ collapseBody x y is' = is ∧ collapseBody x y js' = js ∧
      ∀ i ∈ js'.head?, i.result ≠ some x := by
  induction body generalizing is with
  | nil =>
    obtain ⟨rfl, rfl⟩ := List.nil_eq_append_iff.mp h
    exact ⟨[], [], rfl, rfl, rfl, by simp⟩
  | cons i body ih =>
    by_cases hi : i.result = some x
    · rw [collapseBody_cons_of_eq hi] at h
      obtain ⟨is', js', rfl, rfl, rfl, head⟩ := ih h
      exact ⟨i :: is', js', rfl, collapseBody_cons_of_eq hi, rfl, head⟩
    · cases is with
      | nil => exact ⟨[], i :: body, rfl, rfl, h, by simpa using hi⟩
      | cons k is =>
        rw [collapseBody_cons_of_ne hi, List.cons_append] at h
        obtain ⟨rfl, rest⟩ := List.cons.inj h
        obtain ⟨is', js', rfl, rfl, rfl, head⟩ := ih rest
        exact ⟨i :: is', js', rfl, collapseBody_cons_of_ne hi, rfl, head⟩

theorem Collapsed.exists_split {x : ValueId} {y : Operand} (h : Collapsed f f' x y)
    (split : f'.body b = is ++ js) (original : ∀ i ∈ js.head?, Original n i) :
    ∃ is' js', f.body b = is' ++ js' ∧ (∀ i ∈ js'.head?, Original n i) ∧
      ∀ v, v ≠ x → (v ∈ results is ↔ v ∈ results is') := by
  rw [h.body] at split
  obtain ⟨is', js', split', rfl, rfl, head⟩ := exists_split_of_collapseBody split
  refine ⟨is', js', split', fun i hi => ?_, fun v hv => mem_results_collapseBody_iff hv⟩
  cases js' with
  | nil => cases hi
  | cons k js' =>
    obtain rfl : k = i := by simpa using hi
    rw [collapseBody_cons_of_ne (head k hi)] at original
    exact original (k.mapOp _) rfl

/-- Ways that lack a value other than the merge are the same with and without it. -/
theorem Collapsed.lacks_iff {x : ValueId} {y : Operand} (h : Collapsed f f' x y)
    (only : f.MergesOnly d x y) (shaped : f.Shaped) (hv : v ≠ x) : f'.Lacks v b ↔ f.Lacks v b := by
  refine ⟨h.lacks only shaped hv, fun lacks => ?_⟩
  induction lacks with
  | entry => exact h.entry ▸ .entry
  | step way undefined edge ih =>
    refine .step ih (fun hv' => undefined (h.mem_results_iff.1 hv').1) ?_
    rwa [h.successors only shaped (way.mem_layout shaped)]

theorem Covers.collapsed {x : ValueId} {y : Operand} (cover : f.Covers n c v)
    (h : Collapsed f f' x y) (only : f.MergesOnly d x y) (shaped : f.Shaped) (hc : c ≠ x)
    (hv : v ≠ x) : f'.Covers n c v := by
  rw [Covers, h.params]
  refine cover.imp_right fun cover b is js split original lacks => ?_
  obtain ⟨is', js', split', original', same⟩ := h.exists_split split original
  obtain ⟨given, lacks'⟩ := cover b is' js' split' original'
    ⟨h.lacks only shaped hc lacks.1, fun hc' => lacks.2 ((same c hc).mpr hc')⟩
  exact ⟨given, (h.lacks_iff only shaped hv).mpr lacks'.1,
    fun hv' => lacks'.2 ((same v hv).mp hv')⟩

theorem Covers.collapsed_operand {x w : ValueId} (cover : f.Covers n x v)
    (h : Collapsed f f' x (.value w)) (only : f.MergesOnly d x (.value w)) (wf : f.WellFormed)
    (strict : f.Strict) (hv : v ≠ x) : f'.Covers n w v := by
  have hw : w ≠ x := fun e => only.other (congrArg _ e)
  rw [Covers, h.params]
  by_cases given : w ∈ f.params
  · exact .inl given
  refine .inr fun b is js split original lacks => ?_
  have not_param : x ∉ f.params :=
    wf.params x (mem_defined_iff.2 ⟨d, only.mem, only.mem_results⟩)
  obtain ⟨is', js', split', original', same⟩ := h.exists_split split original
  have lacks_w := h.lacks only wf.toShaped hw lacks.1
  obtain ⟨lacks_x, ne⟩ := only.lacks wf strict given lacks_w
  have undefined : x ∉ results is' := fun hx => by
    refine ne (wf.defining_block (lacks_w.mem_layout wf.toShaped) ?_ only.mem only.mem_results)
    rw [split', results_append]
    exact List.mem_append_left _ hx
  obtain ⟨given', lacks'⟩ := cover.resolve_left not_param b is' js' split' original'
    ⟨lacks_x, undefined⟩
  exact ⟨given', (h.lacks_iff only wf.toShaped hv).mpr lacks'.1,
    fun hv' => lacks'.2 ((same v hv).mp hv')⟩

end Function

end CheckpointRestart
