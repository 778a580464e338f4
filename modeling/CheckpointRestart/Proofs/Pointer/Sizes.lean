import CheckpointRestart.Proofs.Pointer.Seeds

/-! # Sizes of derived and of merged pointers

A derived pointer has the sizes of its source. The placeholders of a merged pointer take in the
sizes of what is merged, and those into which only one operand flows give way to it.
-/

namespace CheckpointRestart

open CheckpointRestart.Function

variable {f₀ f f' : Function}

namespace ExtentMap

/-- Every extent is settled, and a derived pointer has the sizes of its source. -/
structure Sound (f₀ f : Function) (map : ExtentMap) : Prop where
  settled : ∀ (v : ValueId) (x : Extent), map[v]? = some x → x.Settled f₀ f v
  derived : ∀ (v : ValueId) (x : Extent) (source : ValueId), map[v]? = some x → x.provenance = .derived source →
    ∃ y, map[source]? = some y ∧ y.width = x.width ∧ y.count = x.count

/-! ## Derived pointers -/

/-- The state of a pass over waiting pointers that started from `base`. -/
structure Settling (f₀ f : Function) (base map : ExtentMap) (waiting : List DerivedSeed) :
    Prop where
  sound : Sound f₀ f map
  seeds : ∀ d ∈ waiting, d.Sound f₀ ∧ d.pointer ∉ map
  nodup : (waiting.map (·.pointer)).Nodup
  kept : ∀ (v : ValueId) (x : Extent), base[v]? = some x → map[v]? = some x
  new : ∀ (v : ValueId) (x : Extent), map[v]? = some x → base[v]? = some x ∨ ∃ s, x.provenance = .derived s

theorem Settling.derive {pending : ValueSet} {base map : ExtentMap} {still rest : List DerivedSeed}
    {d : DerivedSeed} (draft : f₀.Draft f pending)
    (h : Settling f₀ f base map (still ++ d :: rest)) :
    Settling f₀ f base (derive (map, still) d).1 ((derive (map, still) d).2 ++ rest) := by
  obtain ⟨⟨⟨b, op, defines, derives⟩, pointer⟩, unknown⟩ := h.seeds d (by simp)
  unfold ExtentMap.derive
  dsimp only
  cases hs : map[d.source]? with
  | none => simpa using h
  | some y =>
    have now : f.Defines b d.pointer op :=
      ⟨draft.layout ▸ defines.1, (draft.mem_body_iff.1 defines.2).1⟩
    have lookup : ∀ v x, (map.insert d.pointer x)[v]? = if v = d.pointer then some x else map[v]? :=
      fun v x => TreeMap.getElem?_insert_iff
    have keep : ∀ {v : ValueId} {x : Extent} (y' : Extent), map[v]? = some y' → (map.insert d.pointer x)[v]? = some y' := by
      intro v x y' hy
      rw [lookup, if_neg, hy]
      rintro rfl
      exact unknown (by rw [Std.ExtTreeMap.mem_iff_isSome_getElem?, hy]; rfl)
    refine ⟨⟨fun v x hx => ?_, fun v x source hx hd => ?_⟩, fun d' hd' => ?_, ?_,
      fun v x hx => keep x (h.kept v x hx), fun v x hx => ?_⟩
    · dsimp only at hx
      rw [lookup] at hx
      split at hx
      · next e =>
        cases hx
        subst e
        refine ⟨.derived defines derives, pointer, fun c hc => ?_⟩
        obtain ⟨cover, t⟩ := (h.sound.settled d.source y hs).sizes c hc
        exact ⟨cover.of_operand draft.strict draft.shaped now.1 now.2 rfl derives.isPhi
          derives.source_mem, t⟩
      · exact h.sound.settled v x hx
    · dsimp only at hx
      rw [lookup] at hx
      split at hx
      · cases hx
        cases hd
        exact ⟨y, keep y hs, rfl, rfl⟩
      · obtain ⟨z, hz, hw, hc⟩ := h.sound.derived v x source hx hd
        exact ⟨z, keep z hz, hw, hc⟩
    · have mem : d' ∈ still ++ d :: rest := by
        rcases List.mem_append.mp hd' with h' | h' <;> simp [h']
      refine ⟨(h.seeds d' mem).1, fun known => ?_⟩
      rcases TreeMap.mem_insert_iff.1 known with e | known
      · have nodup := h.nodup
        rw [List.map_append, List.map_cons] at nodup
        have := (List.nodup_cons.mp (List.nodup_middle.mp nodup)).1
        rw [← List.map_append] at this
        exact this (List.mem_map.mpr ⟨d', hd', e⟩)
      · exact (h.seeds d' mem).2 known
    · refine h.nodup.sublist (List.Sublist.map _ ?_)
      exact (List.Sublist.refl still).append (List.sublist_cons_self d rest)
    · dsimp only at hx
      rw [lookup] at hx
      split at hx
      · cases hx
        exact .inr ⟨d.source, rfl⟩
      · exact h.new v x hx

theorem Settling.foldl {pending : ValueSet} {base map : ExtentMap} {still rest : List DerivedSeed}
    (draft : f₀.Draft f pending) (h : Settling f₀ f base map (still ++ rest)) :
    Settling f₀ f base (rest.foldl ExtentMap.derive (map, still)).1
      (rest.foldl ExtentMap.derive (map, still)).2 := by
  induction rest generalizing map still with
  | nil => simpa using h
  | cons d rest ih => exact ih (h.derive draft)

theorem Settling.settle {pending : ValueSet} {base map : ExtentMap} {waiting : List DerivedSeed}
    (draft : f₀.Draft f pending) (h : Settling f₀ f base map waiting) (fuel : Nat) :
    Settling f₀ f base (settle fuel map waiting).1 (settle fuel map waiting).2 := by
  induction fuel generalizing map waiting with
  | zero => exact h
  | succ fuel ih =>
    have pass : Settling f₀ f base (waiting.foldl ExtentMap.derive (map, [])).1
        (waiting.foldl ExtentMap.derive (map, [])).2 := Settling.foldl draft h
    rw [ExtentMap.settle]
    dsimp only
    split
    · exact pass
    · exact ih pass

end ExtentMap

theorem closeDerived_run {s : Seeds} {map : ExtentMap} (run : closeDerived s f = .ok map f') :
    f' = f ∧ ExtentMap.settle s.derived.length s.map s.derived = (map, []) := by
  cases least : ((ExtentMap.settle s.derived.length s.map s.derived).2.map
      (·.pointer.index)).min? with
  | none =>
    simp only [closeDerived, least] at run
    obtain ⟨rfl, rfl⟩ := run_pure_eq_ok_iff.1 run
    exact ⟨rfl, Prod.ext rfl (by simpa [List.min?_eq_none_iff] using least)⟩
  | some v =>
    simp only [closeDerived, least] at run
    rw [run_get_bind] at run
    exact absurd run run_throw_ne_ok

/-- What is known once every derived pointer has its extent. -/
theorem settling_closeDerived {s : Seeds} {seen : List ValueId} {map : ExtentMap}
    (h : s.Sound f₀ f seen) (run : closeDerived s f = .ok map f') :
    f' = f ∧ ExtentMap.Settling f₀ f s.map map [] := by
  have start : ExtentMap.Settling f₀ f s.map s.map s.derived :=
    ⟨⟨h.extents, fun v x source hx hd => absurd hd (h.direct v x source hx)⟩,
      fun d hd => ⟨(h.derived d hd).1, (h.derived d hd).2.2⟩, h.derived_nodup, fun _ _ => id,
      fun _ _ => .inl⟩
  have done := start.settle h.draft s.derived.length
  obtain ⟨rfl, settled⟩ := closeDerived_run run
  rw [settled] at done
  exact ⟨rfl, done⟩

/-! ## Setting the incoming values of a merge -/

namespace Function

variable {b c : BlockId} {r v : ValueId} {i : Instruction} {old pairs : List (Operand × BlockId)}
  {pending : ValueSet}

theorem Defines.unique {op : Op} (h : f.Defines b r op) (shaped : f.Shaped) (hc : c ∈ f.layout)
    (hi : i ∈ f.body c) (hr : i.result = some r) : c = b ∧ i = ⟨some r, op⟩ := by
  obtain ⟨p, hp⟩ := List.getElem?_of_mem h.2
  obtain ⟨q, hq⟩ := List.getElem?_of_mem hi
  have at_p : f.DefinedAt r ⟨b, p⟩ := ⟨h.1, _, hp, rfl⟩
  have at_q : f.DefinedAt r ⟨c, q⟩ := ⟨hc, i, hq, hr⟩
  cases at_p.unique shaped at_q
  rw [hp] at hq
  exact ⟨rfl, (Option.some.inj hq).symm⟩

def refill (r : ValueId) (pairs : List (Operand × BlockId)) (i : Instruction) : Instruction :=
  if i.result = some r then { i with op := .phi pairs } else i

section Refill

variable (h : f.Defines b r (.phi old)) (co : f.Coherent) (shaped : f.Shaped)

include h co shaped

theorem body_setIncoming : (f.setIncoming b r pairs).body c = (f.body c).map (refill r pairs) := by
  rw [setIncoming, co.body_modifyBody h.1]
  split
  · next hc => rw [hc]; rfl
  · next hc =>
    have same : ∀ i ∈ f.body c, refill r pairs i = i := fun i hi =>
      if_neg fun hr => hc (h.unique shaped (co.mem_layout_of_mem_body hi) hi hr).1
    rw [List.map_congr_left same, List.map_id']

theorem sameKind_refill (hi : i ∈ f.body c) : SameKind i (refill r pairs i) ∧
    (i.op.isPhi = false → refill r pairs i = i) := by
  unfold refill
  split
  · next hr =>
    obtain ⟨-, rfl⟩ := h.unique shaped (co.mem_layout_of_mem_body hi) hi hr
    exact ⟨.phi rfl, fun phi => nomatch phi⟩
  · exact ⟨.refl i, fun _ => rfl⟩

theorem relabelled_setIncoming : Relabelled f (f.setIncoming b r pairs) :=
  relabelled_modifyBody fun _ hi => (sameKind_refill h co shaped hi).1

theorem mem_body_setIncoming_iff : i ∈ (f.setIncoming b r pairs).body c ↔
    (i ∈ f.body c ∧ i.result ≠ some r) ∨ (c = b ∧ i = ⟨some r, .phi pairs⟩) := by
  rw [body_setIncoming h co shaped, List.mem_map]
  constructor
  · rintro ⟨k, hk, rfl⟩
    unfold refill
    split
    · next hr =>
      obtain ⟨rfl, rfl⟩ := h.unique shaped (co.mem_layout_of_mem_body hk) hk hr
      exact .inr ⟨rfl, rfl⟩
    · next hr => exact .inl ⟨hk, hr⟩
  · rintro (⟨hi, hr⟩ | ⟨rfl, rfl⟩)
    · exact ⟨i, hi, if_neg hr⟩
    · exact ⟨_, h.2, if_pos rfl⟩

end Refill

theorem exposed_map_iff {g : Instruction → Instruction} {is : List Instruction}
    (same : ∀ i ∈ is, SameKind i (g i) ∧ (i.op.isPhi = false → g i = i)) :
    Exposed v (is.map g) ↔ Exposed v is := by
  induction is with
  | nil => rfl
  | cons i is ih =>
    obtain ⟨kind, eq⟩ := same i List.mem_cons_self
    rw [List.map_cons, Exposed, Exposed, ih fun k hk => same k (List.mem_cons_of_mem _ hk),
      kind.isPhi, kind.result]
    refine or_congr_left (and_congr_right fun phi => ?_)
    rw [eq phi]

theorem head?_dropWhile_map {g : Instruction → Instruction} {is : List Instruction}
    (same : ∀ i ∈ is, SameKind i (g i) ∧ (i.op.isPhi = false → g i = i)) :
    ((is.map g).dropWhile (·.op.isPhi)).head? = (is.dropWhile (·.op.isPhi)).head? := by
  induction is with
  | nil => rfl
  | cons i is ih =>
    obtain ⟨kind, eq⟩ := same i List.mem_cons_self
    rw [List.map_cons, List.dropWhile_cons, List.dropWhile_cons, kind.isPhi]
    split
    · exact ih fun k hk => same k (List.mem_cons_of_mem _ hk)
    · next phi => rw [eq (by simpa using phi)]; rfl

theorem original_congr {n : Nat} {j : Instruction} (h : j.result = i.result) :
    Original n j ↔ Original n i := by
  rw [Original, h, Original]

/-- An added merge can be given incoming sizes that are at hand where they come from. -/
theorem Draft.setIncoming (h : Draft f₀ f pending) (defines : f.Defines b r (.phi old))
    (new : f₀.values.size ≤ r.index)
    (types : ∀ w p, (.value w, p) ∈ pairs → f.valueType w = .i64)
    (perm : (pairs.map (·.2)).Perm (f.predecessors b))
    (ready : ∀ w p, (.value w, p) ∈ pairs → f.Lacks w p → w ∉ results (f.body p) → w ∈ f.params) :
    Draft f₀ (f.setIncoming b r pairs) (pending.erase r) := by
  have re : Relabelled f (f.setIncoming b r pairs) :=
    relabelled_setIncoming defines h.coherent h.shaped
  have mem : ∀ {c i}, i ∈ (f.setIncoming b r pairs).body c ↔
      (i ∈ f.body c ∧ i.result ≠ some r) ∨ (c = b ∧ i = ⟨some r, .phi pairs⟩) :=
    mem_body_setIncoming_iff defines h.coherent h.shaped
  have body : ∀ c, (f.setIncoming b r pairs).body c = (f.body c).map (refill r pairs) :=
    fun c => body_setIncoming defines h.coherent h.shaped
  have kind : ∀ {c}, ∀ i ∈ f.body c, SameKind i (refill r pairs i) ∧
      (i.op.isPhi = false → refill r pairs i = i) :=
    fun i hi => sameKind_refill defines h.coherent h.shaped hi
  have original : ∀ i, Original f₀.values.size i → refill r pairs i = i := by
    intro i o
    refine if_neg fun hr => ?_
    exact absurd (o r hr) (by omega)
  refine ⟨re.coherent h.coherent, re.shaped h.shaped fun c hc i hi v hv => ?_,
    ⟨fun c v exposed lacks => ?_, fun c hc v p takes lacks undefined => ?_⟩, h.layout, h.params,
    h.size, h.types, fun c => ?_, fun c i hi new => ?_, fun c i hi new w hw => ?_,
    fun c hc i hi free => ?_, fun c i hi phi => ?_, fun c hc ne i hi => ?_⟩
  · rcases mem.mp hi with ⟨hi, -⟩ | ⟨rfl, rfl⟩
    · exact (h.shaped.fits c hc i hi).operands v hv
    · obtain ⟨⟨x, p⟩, hp, rfl⟩ := List.mem_map.mp (Op.mem_usedValues_iff.1 hv)
      exact index_lt_of_int (types v p hp)
  · rw [body, exposed_map_iff kind] at exposed
    exact h.strict.operands c v exposed (re.lacks_iff.1 lacks)
  · obtain ⟨i, hi, qs, hop, hp⟩ := takes
    rw [re.lacks_iff] at lacks
    rw [re.results_body] at undefined
    rcases mem.mp hi with ⟨hi, -⟩ | ⟨rfl, rfl⟩
    · exact h.strict.incoming c hc v p ⟨i, hi, qs, hop, hp⟩ lacks undefined
    · cases hop
      exact ready v p hp lacks undefined
  · have same : (f.body c).filter ((fun i => decide (Original f₀.values.size i)) ∘ refill r pairs) =
        f₀.body c := by
      refine (List.filter_congr fun i hi => ?_).trans (h.kept c)
      exact decide_eq_decide.mpr (original_congr (kind i hi).1.result)
    have fixed : ∀ i ∈ f₀.body c, refill r pairs i = i := fun i hi =>
      original i (h.mem_body_iff.1 hi).2
    rw [body, List.filter_map, same, List.map_congr_left fixed, List.map_id']
  · rcases mem.mp hi with ⟨hi, -⟩ | ⟨rfl, rfl⟩
    · obtain ⟨result, op⟩ := h.added c i hi new
      exact ⟨result, op⟩
    · obtain ⟨result, -⟩ := h.added c _ defines.2 new
      exact ⟨result, .inr ⟨pairs, rfl, types⟩⟩
  · rcases mem.mp hi with ⟨hi, -⟩ | ⟨rfl, rfl⟩
    · refine (h.asked c i hi new w hw).imp_right fun ⟨v, hv⟩ => ⟨v, ?_⟩
      have both := hv.map (refill r pairs)
      rw [← body, List.map_cons, List.map_singleton, (kind _ (hv.subset (by simp))).2 rfl,
        (kind i hi).2 (by rw [hw]; rfl)] at both
      exact both
    · cases hw
  · rw [Merges, re.predecessors]
    rcases mem.mp hi with ⟨hi, hr⟩ | ⟨rfl, rfl⟩
    · refine h.merges c hc i hi fun r' hr' e => ?_
      refine free r' (TreeSet.mem_erase_iff.2 ⟨fun e' => hr (e' ▸ e), hr'⟩) e
    · intro qs hop
      cases hop
      exact perm
  · rcases mem.mp hi with ⟨hi, -⟩ | ⟨rfl, rfl⟩
    · exact h.merging c i hi phi
    · exact h.merging c _ defines.2 rfl
  · rw [body, head?_dropWhile_map kind] at hi
    exact h.first c hc ne i hi

theorem Defines.setIncoming {op : Op} (h : f.Defines c v op) (defines : f.Defines b r (.phi old))
    (co : f.Coherent) (shaped : f.Shaped) (ne : v ≠ r) :
    (f.setIncoming b r pairs).Defines c v op :=
  ⟨h.1, (mem_body_setIncoming_iff defines co shaped).mpr
    (.inl ⟨h.2, fun e => ne (Option.some.inj e)⟩)⟩

theorem Defines.setIncoming_self (defines : f.Defines b r (.phi old)) (co : f.Coherent)
    (shaped : f.Shaped) : (f.setIncoming b r pairs).Defines b r (.phi pairs) :=
  ⟨defines.1, (mem_body_setIncoming_iff defines co shaped).mpr (.inr ⟨rfl, rfl⟩)⟩

theorem Widened.setIncoming {x y : Operand} (h : f.Widened x y)
    (defines : f.Defines b r (.phi old)) (co : f.Coherent) (shaped : f.Shaped) :
    (f.setIncoming b r pairs).Widened x y := by
  cases h with
  | const => exact .const
  | same t => exact .same t
  | cast d =>
    refine .cast (d.setIncoming defines co shaped ?_)
    rintro rfl
    exact nomatch (defines.unique shaped d.1 d.2 rfl).2

theorem settled_setIncoming {x : Extent} (h : x.Settled f₀ f v)
    (defines : f.Defines b r (.phi old)) (co : f.Coherent) (shaped : f.Shaped) :
    x.Settled f₀ (f.setIncoming b r pairs) v := by
  refine ⟨?_, h.pointer, fun w hw => ?_⟩
  · cases h.origin with
    | parameter params wide => exact .parameter params (wide.setIncoming defines co shaped)
    | alloca d => exact .alloca d
    | malloc d wide => exact .malloc d (wide.setIncoming defines co shaped)
    | merge d => exact .merge d
    | derived d der => exact .derived d der
  · obtain ⟨cover, t⟩ := h.sizes w hw
    exact ⟨cover.relabelled (relabelled_setIncoming defines co shaped), t⟩

theorem Strict.ready_of_covers {n : Nat} {w z : ValueId} {p : BlockId} (strict : f.Strict)
    (hb : b ∈ f.layout) (takes : TakesFrom (f.body b) z p) (cover : f.Covers n w z)
    (lacks : f.Lacks w p) (undefined : w ∉ results (f.body p)) : w ∈ f.params := by
  by_contra given
  obtain ⟨hz, lacks, undefined⟩ := cover.atEnd lacks undefined given
  exact hz (strict.incoming b hb z p takes lacks undefined)

end Function

/-! ## Merged pointers -/

namespace ExtentMap

/-- A size of what comes in with a merged operand. The null pointer has none. -/
def sizeOf (map : ExtentMap) (size : Extent → Operand) : Operand → Operand
  | .value v => ((map[v]?).map size).getD (.i64 0)
  | .const _ => .i64 0

/-- What a merge of sizes takes in where a merge of pointers takes in `incoming`. -/
def sizesIn (map : ExtentMap) (size : Extent → Operand) (incoming : List (Operand × BlockId)) :
    List (Operand × BlockId) :=
  incoming.map fun (x, p) => (map.sizeOf size x, p)

variable {map : ExtentMap} {size : Extent → Operand} {incoming : List (Operand × BlockId)}

theorem mem_sizesIn {w : ValueId} {p : BlockId} (h : (.value w, p) ∈ map.sizesIn size incoming) :
    ∃ z x, (.value z, p) ∈ incoming ∧ map[z]? = some x ∧ size x = .value w := by
  obtain ⟨⟨y, q⟩, hy, e⟩ := List.mem_map.mp h
  obtain ⟨hs, rfl⟩ := Prod.mk.inj e
  cases y with
  | const k => cases hs
  | value z =>
    rw [sizeOf] at hs
    cases hz : map[z]? with
    | none =>
      rw [hz] at hs
      cases hs
    | some x =>
      rw [hz] at hs
      exact ⟨z, x, hy, hz, hs⟩

theorem Sound.setIncoming {b : BlockId} {r : ValueId} {old pairs : List (Operand × BlockId)}
    (h : map.Sound f₀ f) (defines : f.Defines b r (.phi old)) (co : f.Coherent)
    (shaped : f.Shaped) : map.Sound f₀ (f.setIncoming b r pairs) :=
  ⟨fun v x hx => settled_setIncoming (h.settled v x hx) defines co shaped, h.derived⟩

theorem Sound.fill {b : BlockId} {r v : ValueId} {old : List (Operand × BlockId)}
    {pending : ValueSet} (sound : map.Sound f₀ f) (size : Extent → Operand)
    (draft : f₀.Draft f pending)
    (merged : f₀.Defines b v (.phi incoming)) (defines : f.Defines b r (.phi old))
    (new : f₀.values.size ≤ r.index) (later : ∀ r ∈ pending, f₀.values.size ≤ r.index)
    (hsize : ∀ x w, size x = .value w → w ∈ x.sizeValues) :
    f₀.Draft (f.setIncoming b r (map.sizesIn size incoming)) (pending.erase r) := by
  have now : ⟨some v, .phi incoming⟩ ∈ f.body b := (draft.mem_body_iff.1 merged.2).1
  have original := (draft.mem_body_iff.1 merged.2).2
  have covered : ∀ w p, (.value w, p) ∈ map.sizesIn size incoming → ∃ z,
      TakesFrom (f.body b) z p ∧ f.Covers f₀.values.size w z ∧ f.valueType w = .i64 := by
    intro w p hw
    obtain ⟨z, x, hz, hx, hs⟩ := mem_sizesIn hw
    exact ⟨z, ⟨_, now, _, rfl, hz⟩, (sound.settled z x hx).sizes w (hsize x w hs)⟩
  refine draft.setIncoming defines new (fun w p hw => ?_) ?_ fun w p hw lacks undefined => ?_
  · obtain ⟨z, -, -, t⟩ := covered w p hw
    exact t
  · have blocks : (map.sizesIn size incoming).map (·.2) = incoming.map (·.2) := by
      simp [sizesIn]
    rw [blocks]
    refine draft.merges b defines.1 _ now (fun r hr e => ?_) incoming rfl
    exact absurd (original r e) (Nat.not_lt.mpr (later r hr))
  · obtain ⟨z, takes, cover, -⟩ := covered w p hw
    exact draft.strict.ready_of_covers defines.1 takes cover lacks undefined

end ExtentMap

theorem incomingSizes_run {map : ExtentMap} {merged : ValueId} {x : Operand}
    {sizes : Operand × Operand} (run : incomingSizes map merged x f = .ok sizes f') :
    f' = f ∧ sizes = (map.sizeOf (·.width) x, map.sizeOf (·.count) x) ∧
      ∀ z, x = .value z → z ∈ map := by
  cases x with
  | const c =>
    obtain ⟨rfl, rfl⟩ := run_pure_eq_ok_iff.1 run
    exact ⟨rfl, rfl, fun z hz => nomatch hz⟩
  | value v =>
    rw [incomingSizes] at run
    cases hv : map[v]? with
    | none =>
      rw [hv] at run
      simp only [Edit.unsupported, run_get_bind] at run
      exact absurd run run_throw_ne_ok
    | some e =>
      rw [hv] at run
      obtain ⟨rfl, rfl⟩ := run_pure_eq_ok_iff.1 run
      refine ⟨rfl, by simp [ExtentMap.sizeOf, hv], fun z hz => ?_⟩
      cases hz
      rw [Std.ExtTreeMap.mem_iff_isSome_getElem?, hv]
      rfl

theorem fillPlaceholders_run {map : ExtentMap} {m : MergeSeed}
    (run : fillPlaceholders map m f = .ok ⟨⟩ f') :
    (∀ z p, (.value z, p) ∈ m.incoming → z ∈ map) ∧
    f' = (f.setIncoming m.block m.width (map.sizesIn (·.width) m.incoming)).setIncoming m.block
      m.count (map.sizesIn (·.count) m.incoming) := by
  rw [fillPlaceholders, run_bind_eq_ok_iff] at run
  obtain ⟨sizes, g, read, write⟩ := run
  obtain ⟨rfl, rfl, known⟩ := mapM_run_eq_ok
    (fun (x, p) => (map.sizeOf (·.width) x, map.sizeOf (·.count) x, p))
    (fun (x, _) => ∀ z, x = .value z → z ∈ map) (by
      rintro ⟨x, p⟩ s y s' step
      obtain ⟨pair, t, inner, done⟩ := run_bind_eq_ok_iff.1 step
      obtain ⟨rfl, rfl, hz⟩ := incomingSizes_run inner
      obtain ⟨rfl, rfl⟩ := run_pure_eq_ok_iff.1 done
      exact ⟨rfl, rfl, hz⟩) read
  obtain ⟨-, rfl⟩ := run_modify_eq_ok_iff.1 write
  refine ⟨fun z p hz => known _ hz z rfl, ?_⟩
  simp only [List.map_map]
  rfl

/-- The placeholders of a merged pointer take in the sizes of what is merged. -/
structure MergeSeed.Filled (f : Function) (map : ExtentMap) (m : MergeSeed) : Prop where
  known : ∀ z p, (.value z, p) ∈ m.incoming → z ∈ map
  width : f.Defines m.block m.width (.phi (map.sizesIn (·.width) m.incoming))
  count : f.Defines m.block m.count (.phi (map.sizesIn (·.count) m.incoming))

/-- The placeholders of the merges in `front` are filled, those in `back` are pending. -/
structure Filling (f₀ f : Function) (map : ExtentMap) (front back : List MergeSeed) : Prop where
  draft : ∃ pending, f₀.Draft f pending ∧ ∀ r ∈ pending, ∃ m ∈ back, r = m.width ∨ r = m.count
  sound : map.Sound f₀ f
  seeds : ∀ m ∈ front ++ back, m.Sound f₀ f
  filled : ∀ m ∈ front, m.Filled f map
  added : ∀ b, ∀ i ∈ f.body b, ¬ Original f₀.values.size i → i.op.isPhi = true →
    ∃ m ∈ front ++ back, m.block = b ∧ (i.result = some m.width ∨ i.result = some m.count)

theorem MergeSeed.Filled.setIncoming {map : ExtentMap} {m : MergeSeed} {b : BlockId} {r : ValueId}
    {old pairs : List (Operand × BlockId)} (h : m.Filled f map) (defines : f.Defines b r (.phi old))
    (co : f.Coherent) (shaped : f.Shaped) (width : m.width ≠ r) (count : m.count ≠ r) :
    m.Filled (f.setIncoming b r pairs) map :=
  ⟨h.known, h.width.setIncoming defines co shaped width, h.count.setIncoming defines co shaped count⟩

theorem MergeSeed.Sound.setIncoming {m : MergeSeed} {b : BlockId} {r : ValueId}
    {old pairs : List (Operand × BlockId)} (h : m.Sound f₀ f) (defines : f.Defines b r (.phi old))
    (co : f.Coherent) (shaped : f.Shaped) : m.Sound f₀ (f.setIncoming b r pairs) := by
  have keep : ∀ {v}, (∃ ps, f.Defines m.block v (.phi ps)) →
      ∃ ps, (f.setIncoming b r pairs).Defines m.block v (.phi ps) := by
    rintro v ⟨ps, hv⟩
    by_cases e : v = r
    · subst e
      obtain ⟨hb, -⟩ := defines.unique shaped hv.1 hv.2 rfl
      exact ⟨pairs, hb ▸ defines.setIncoming_self co shaped⟩
    · exact ⟨ps, hv.setIncoming defines co shaped e⟩
  exact ⟨h.merged, h.pointer, keep h.width, keep h.count, h.ne, h.new⟩

/-- One merged pointer gets its placeholders filled. -/
theorem Filling.step {map : ExtentMap} {front back : List MergeSeed} {m : MergeSeed}
    (h : Filling f₀ f map front (m :: back))
    (distinct : ((front ++ m :: back).flatMap fun m => [m.width, m.count]).Nodup)
    (run : fillPlaceholders map m f = .ok ⟨⟩ f') : Filling f₀ f' map (front ++ [m]) back := by
  obtain ⟨known, rfl⟩ := fillPlaceholders_run run
  obtain ⟨pending, draft, open_⟩ := h.draft
  have seed := h.seeds m (by simp)
  obtain ⟨ps, width⟩ := seed.width
  obtain ⟨qs, count⟩ := seed.count
  have later : ∀ r ∈ pending, f₀.values.size ≤ r.index := by
    intro r hr
    obtain ⟨m', hm', e⟩ := open_ r hr
    have new := (h.seeds m' (by simpa using .inr (List.mem_cons.mp hm'))).new
    rcases e with rfl | rfl
    · exact new.1
    · exact new.2
  -- the widths
  let g := f.setIncoming m.block m.width (map.sizesIn (·.width) m.incoming)
  have draft₁ : f₀.Draft g _ := h.sound.fill (·.width) draft seed.merged width seed.new.1 later
    fun x w hw => by simp [Extent.sizeValues, hw, Operand.value?]
  have sound₁ : map.Sound f₀ g := h.sound.setIncoming width draft.coherent draft.shaped
  have count₁ : g.Defines m.block m.count (.phi qs) :=
    count.setIncoming width draft.coherent draft.shaped (Ne.symm seed.ne)
  -- the counts
  have later₁ : ∀ r ∈ pending.erase m.width, f₀.values.size ≤ r.index :=
    fun r hr => later r (TreeSet.mem_erase_iff.1 hr).2
  have draft₂ := sound₁.fill (·.count) draft₁ seed.merged count₁ seed.new.2 later₁ fun x w hw => by
    cases hx : x.width <;> simp [Extent.sizeValues, hw, hx, Operand.value?]
  have sound₂ : map.Sound f₀ (g.setIncoming m.block m.count (map.sizesIn (·.count) m.incoming)) :=
    sound₁.setIncoming count₁ draft₁.coherent draft₁.shaped
  refine ⟨⟨_, draft₂, fun r hr => ?_⟩, sound₂, fun m' hm' => ?_, fun m' hm' => ?_,
    fun b i hi new phi => ?_⟩
  · obtain ⟨not_count, hr⟩ := TreeSet.mem_erase_iff.1 hr
    obtain ⟨not_width, hr⟩ := TreeSet.mem_erase_iff.1 hr
    obtain ⟨m', hm', e⟩ := open_ r hr
    rcases List.mem_cons.mp hm' with rfl | hm'
    · grind
    · exact ⟨m', hm', e⟩
  · refine ((h.seeds m' (by simpa using hm')).setIncoming width draft.coherent
      draft.shaped).setIncoming count₁ draft₁.coherent draft₁.shaped
  · rcases List.mem_append.mp hm' with hm' | hm'
    · have apart : ∀ r ∈ [m'.width, m'.count], ∀ r' ∈ [m.width, m.count], r ≠ r' := by
        rw [List.flatMap_append, List.nodup_append] at distinct
        intro r hr r' hr'
        exact distinct.2.2 r (List.mem_flatMap.mpr ⟨m', hm', hr⟩) r'
          (List.mem_flatMap.mpr ⟨m, List.mem_cons_self, hr'⟩)
      refine ((h.filled m' hm').setIncoming width draft.coherent draft.shaped ?_ ?_).setIncoming
        count₁ draft₁.coherent draft₁.shaped ?_ ?_
      all_goals exact apart _ (by simp) _ (by simp)
    · obtain rfl := List.mem_singleton.mp hm'
      refine ⟨known, ?_, count₁.setIncoming_self draft₁.coherent draft₁.shaped⟩
      exact (width.setIncoming_self draft.coherent draft.shaped).setIncoming count₁ draft₁.coherent
        draft₁.shaped seed.ne
  · rw [List.append_assoc, List.singleton_append]
    rcases (mem_body_setIncoming_iff count₁ draft₁.coherent draft₁.shaped).mp hi with ⟨hi, -⟩ | ⟨rfl, rfl⟩
    · rcases (mem_body_setIncoming_iff width draft.coherent draft.shaped).mp hi with ⟨hi, -⟩ | ⟨rfl, rfl⟩
      · exact h.added b i hi new phi
      · exact ⟨m, by simp, rfl, .inl rfl⟩
    · exact ⟨m, by simp, rfl, .inr rfl⟩

theorem filling_forM {s : Seeds} {seen : List ValueId} {map : ExtentMap} (h : s.Sound f₀ f seen)
    (settling : ExtentMap.Settling f₀ f s.map map [])
    (run : s.merges.forM (fillPlaceholders map) f = .ok ⟨⟩ f') : Filling f₀ f' map s.merges [] := by
  have start : ∀ back, [] ++ back = s.merges → Filling f₀ f map [] back := by
    rintro back rfl
    exact ⟨⟨s.placeholders, h.draft, fun r hr => (h.placeholders r).mp hr⟩, settling.sound,
      fun m hm => (h.merges m hm).1, by simp, h.added⟩
  refine forM_run_induction
    (fun front g => ∀ back, front ++ back = s.merges → Filling f₀ g map front back)
    (fun front m back split g g' filling step back' split' => ?_) start run [] (by simp)
  obtain rfl : back' = back := by
    rw [split, List.append_assoc] at split'
    simpa using split'
  exact (filling (m :: back') split.symm).step (split ▸ h.distinct) step

end CheckpointRestart
