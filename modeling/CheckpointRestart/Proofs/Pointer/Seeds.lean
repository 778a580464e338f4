import CheckpointRestart.Pointer.Analysis
import CheckpointRestart.Proofs.Collections
import CheckpointRestart.Proofs.Effects
import CheckpointRestart.Proofs.Pointer.Draft

/-! # What one look at every pointer gives

The extents of allocations and of the argument vector are settled at once, merged pointers get
pending merges of sizes, and derived pointers are put off. Whatever sizes an extent names cover its
pointer.
-/

namespace CheckpointRestart

namespace Function

/-- `v` gets its value from `op` in block `b`. -/
def Defines (f : Function) (b : BlockId) (v : ValueId) (op : Op) : Prop :=
  b ∈ f.layout ∧ ⟨some v, op⟩ ∈ f.body b

theorem Defines.mem_results {f : Function} {b : BlockId} {v : ValueId} {op : Op}
    (h : f.Defines b v op) : v ∈ results (f.body b) :=
  mem_results_iff.2 ⟨_, h.2, rfl⟩

theorem Defines.mem_defined {f : Function} {b : BlockId} {v : ValueId} {op : Op}
    (h : f.Defines b v op) : v ∈ f.defined :=
  mem_defined_iff.2 ⟨b, h.1, h.mem_results⟩

/-- `count` is `size` as a 64-bit operand. -/
inductive Widened (f : Function) : Operand → Operand → Prop
  | const {bits : Nat} {value : Int64} : Widened f (.const (.int bits value)) (.i64 value)
  | same {v : ValueId} : f.valueType v = .i64 → Widened f (.value v) (.value v)
  | cast {v wide : ValueId} {b : BlockId} : f.Defines b wide (.cast (.value v) .i64) →
    Widened f (.value v) (.value wide)

end Function

/-- An operation that computes a pointer from another one, and the index it takes from there. -/
inductive Derives : Op → ValueId → Option ValueId → Prop
  | gep {source : ValueId} {index : Operand} :
    Derives (.gep (.value source) index) source index.value?
  | load {source : ValueId} : Derives (.load (.value source)) source none
  | cast {source : ValueId} {t : Ty} : Derives (.cast (.value source) t) source none

namespace Derives

variable {op : Op} {source : ValueId} {index : Option ValueId}

theorem isPhi (h : Derives op source index) : op.isPhi = false := by
  cases h <;> rfl

theorem source_mem (h : Derives op source index) : source ∈ op.usedValues := by
  cases h <;> simp [Op.mem_usedValues_iff, Op.operands]

theorem index_mem (h : Derives op source index) {i : ValueId} (hi : index = some i) :
    i ∈ op.usedValues := by
  cases h with
  | @gep _ y =>
    cases y with
    | value w =>
      cases hi
      simp [Op.mem_usedValues_iff, Op.operands]
    | const c => cases hi
  | load => cases hi
  | cast => cases hi

end Derives

namespace Extent

/-- Where the extent of `v` comes from: an instruction of `f₀`, and for the sizes `f`, which has
the additions. -/
inductive From (f₀ f : Function) (v : ValueId) : Extent → Prop
  | parameter {argc : ValueId} {count : Operand} : f₀.params = [argc, v] →
    f.Widened (.value argc) count → From f₀ f v ⟨.parameter, .i64 64, count, {v}, none⟩
  | alloca {b : BlockId} {t : Ty} {n : UInt64} : f₀.Defines b v (.alloca t n) →
    From f₀ f v ⟨.allocation, .i64 (.ofNat t.storeBits), .i64 n.toInt64, {v}, none⟩
  | malloc {b : BlockId} {bytes count : Operand} : f₀.Defines b v (.malloc bytes) →
    f.Widened bytes count → From f₀ f v ⟨.allocation, .i64 8, count, {v}, none⟩
  | merge {b : BlockId} {pairs : List (Operand × BlockId)} {width count : Operand}
    {aliases : ValueSet} : f₀.Defines b v (.phi pairs) →
    From f₀ f v ⟨.merge, width, count, aliases, none⟩
  | derived {b : BlockId} {op : Op} {source : ValueId} {index : Option ValueId}
    {width count : Operand} : f₀.Defines b v op → Derives op source index →
    From f₀ f v ⟨.derived source, width, count, {source}, index⟩

/-- An extent whose origin is known and whose sizes are at hand wherever its pointer is. -/
structure Settled (f₀ f : Function) (v : ValueId) (x : Extent) : Prop where
  origin : From f₀ f v x
  pointer : (f₀.valueType v).isPointer = true
  sizes : ∀ c ∈ x.sizeValues, f.Covers f₀.values.size c v ∧ f.valueType c = .i64

end Extent

/-- The pointer merged, and its placeholders in front of it. -/
structure MergeSeed.Sound (f₀ f : Function) (m : MergeSeed) : Prop where
  merged : f₀.Defines m.block m.pointer (.phi m.incoming)
  pointer : (f₀.valueType m.pointer).isPointer = true
  width : ∃ pairs, f.Defines m.block m.width (.phi pairs)
  count : ∃ pairs, f.Defines m.block m.count (.phi pairs)
  ne : m.width ≠ m.count
  new : f₀.values.size ≤ m.width.index ∧ f₀.values.size ≤ m.count.index

structure DerivedSeed.Sound (f₀ : Function) (d : DerivedSeed) : Prop where
  derives : ∃ b op, f₀.Defines b d.pointer op ∧ Derives op d.source d.index
  pointer : (f₀.valueType d.pointer).isPointer = true

/-- The state of the search after the pointers `seen`. -/
structure Seeds.Sound (f₀ f : Function) (s : Seeds) (seen : List ValueId) : Prop where
  draft : f₀.Draft f s.placeholders
  extents : ∀ v (x : Extent), s.map[v]? = some x → x.Settled f₀ f v
  keys : ∀ v ∈ s.map, v ∈ seen
  derived : ∀ d ∈ s.derived, d.Sound f₀ ∧ d.pointer ∈ seen ∧ d.pointer ∉ s.map
  derived_nodup : (s.derived.map (·.pointer)).Nodup
  merges : ∀ m ∈ s.merges, m.Sound f₀ f ∧ ∃ aliases,
    s.map[m.pointer]? = some ⟨.merge, .value m.width, .value m.count, aliases, none⟩
  placeholders : ∀ r, r ∈ s.placeholders ↔ ∃ m ∈ s.merges, r = m.width ∨ r = m.count
  distinct : (s.merges.flatMap fun m => [m.width, m.count]).Nodup
  merged : ∀ v (x : Extent), s.map[v]? = some x → x.provenance = .merge →
    ∃ m ∈ s.merges, m.pointer = v
  direct : ∀ (v : ValueId) (x : Extent) source, s.map[v]? = some x → x.provenance ≠ .derived source
  added : ∀ b, ∀ i ∈ f.body b, ¬ Function.Original f₀.values.size i → i.op.isPhi = true →
    ∃ m ∈ s.merges, m.block = b ∧ (i.result = some m.width ∨ i.result = some m.count)

/-! ## What additions keep -/

namespace Function

variable {f₀ f f' f'' : Function} {n k : Nat} {v : ValueId}

/-- What is known of `f`, as far as it is about the first `k` values, is true of `f'`. -/
structure Grown (n k : Nat) (f f' : Function) : Prop where
  defines : ∀ {b v op}, f.Defines b v op → f'.Defines b v op
  types : ∀ v, v.index < k → f'.valueType v = f.valueType v
  covers : ∀ {c v}, c.index < k → v.index < k → f.Covers n c v → f'.Covers n c v

theorem Grown.refl : Grown n k f f :=
  ⟨id, fun _ _ => rfl, fun _ _ => id⟩

theorem Grown.trans (h : Grown n k f f') (h' : Grown n k f' f'') : Grown n k f f'' :=
  ⟨h'.defines ∘ h.defines, fun v hv => (h'.types v hv).trans (h.types v hv),
    fun hc hv cover => h'.covers hc hv (h.covers hc hv cover)⟩

theorem grown_newValue (name : String) (t : Ty) (hk : k ≤ f.values.size) :
    Grown n k f (f.newValue name t).2 := by
  have re := relabelled_newValue (f := f) name t
  exact ⟨id, fun v hv => re.types v (hv.trans_le hk), fun _ _ cover => cover.relabelled re⟩

theorem Inserted.grown {b : BlockId} {is js : List Instruction} {j : Instruction} {r : ValueId}
    (h : Inserted f f' b is js j) (hr : j.result = some r) (new : n ≤ r.index)
    (hk : k ≤ r.index) : Grown n k f f' := by
  have ne : ∀ c : ValueId, c.index < k → j.result ≠ some c := by
    intro c hc e
    rw [hr] at e
    cases e
    omega
  refine ⟨fun ⟨hb, hi⟩ => ⟨h.layout ▸ hb, h.mem_body_iff.2 (.inr hi)⟩, fun _ _ => h.valueType,
    fun hc hv cover => cover.inserted h (fun o => ?_) (ne _ hc) (ne _ hv)⟩
  exact absurd (o r hr) (by omega)

theorem Widened.grown {size count : Operand} (h : f.Widened size count) (grown : Grown n k f f')
    (hk : k = f.values.size) : f'.Widened size count := by
  cases h with
  | const => exact .const
  | same t =>
    exact .same ((grown.types _ (hk ▸ index_lt_of_int t)).trans t)
  | cast d => exact .cast (grown.defines d)

theorem settled_grown {x : Extent} (h : x.Settled f₀ f v)
    (grown : Grown f₀.values.size k f f') (hk : k = f.values.size) (hn : f₀.values.size ≤ k) :
    x.Settled f₀ f' v := by
  refine ⟨?_, h.pointer, fun c hc => ?_⟩
  · cases h.origin with
    | parameter params wide => exact .parameter params (wide.grown grown hk)
    | alloca d => exact .alloca d
    | malloc d wide => exact .malloc d (wide.grown grown hk)
    | merge d => exact .merge d
    | derived d der => exact .derived d der
  · obtain ⟨cover, t⟩ := h.sizes c hc
    have lt : c.index < k := hk ▸ index_lt_of_int t
    have lt_v := index_lt_of_isPointer h.pointer
    exact ⟨grown.covers lt (lt_v.trans_le hn) cover, (grown.types c lt).trans t⟩

theorem mergeSeed_grown {m : MergeSeed} (h : m.Sound f₀ f) (grown : Grown n k f f') :
    m.Sound f₀ f' := by
  obtain ⟨p, hp⟩ := h.width
  obtain ⟨q, hq⟩ := h.count
  exact ⟨h.merged, h.pointer, ⟨p, grown.defines hp⟩, ⟨q, grown.defines hq⟩, h.ne, h.new⟩

theorem seeds_grown {s : Seeds} {seen seen' : List ValueId} (h : s.Sound f₀ f seen)
    (grown : Grown f₀.values.size f.values.size f f') (draft : f₀.Draft f' s.placeholders)
    (phis : ∀ b, ∀ i ∈ f'.body b, i.op.isPhi = true → i ∈ f.body b)
    (sub : ∀ v ∈ seen, v ∈ seen') : s.Sound f₀ f' seen' where
  draft := draft
  extents v x hx := settled_grown (h.extents v x hx) grown rfl h.draft.size
  keys v hv := sub v (h.keys v hv)
  derived d hd := ⟨(h.derived d hd).1, sub _ (h.derived d hd).2.1, (h.derived d hd).2.2⟩
  derived_nodup := h.derived_nodup
  merges m hm := ⟨mergeSeed_grown (h.merges m hm).1 grown, (h.merges m hm).2⟩
  placeholders := h.placeholders
  distinct := h.distinct
  merged := h.merged
  direct := h.direct
  added b i hi new phi := h.added b i (phis b i hi phi) new phi

end Function

namespace Seeds

variable {f₀ f f' : Function} {s : Seeds} {seen : List ValueId} {v : ValueId}

/-- What has been collected is not about a pointer that comes now. -/
theorem Sound.insert (h : s.Sound f₀ f seen) (fresh : v ∉ seen) (x : Extent) :
    (∀ w ∈ s.map.insert v x, w ∈ seen ++ [v]) ∧
    (∀ d ∈ s.derived, d.Sound f₀ ∧ d.pointer ∈ seen ++ [v] ∧ d.pointer ∉ s.map.insert v x) ∧
    ∀ m ∈ s.merges, m.pointer ≠ v := by
  refine ⟨fun w hw => ?_, fun d hd => ?_, ?_⟩
  · rcases TreeMap.mem_insert_iff.1 hw with rfl | hw
    · simp
    · exact List.mem_append_left _ (h.keys w hw)
  · obtain ⟨sound, hseen, free⟩ := h.derived d hd
    refine ⟨sound, List.mem_append_left _ hseen, fun hd' => ?_⟩
    rcases TreeMap.mem_insert_iff.1 hd' with e | hd'
    · exact fresh (e ▸ hseen)
    · exact free hd'
  · rintro m hm rfl
    obtain ⟨aliases, ha⟩ := (h.merges m hm).2
    exact fresh (h.keys _ (by rw [Std.ExtTreeMap.mem_iff_isSome_getElem?, ha]; rfl))

theorem Sound.addExtent (h : s.Sound f₀ f seen) {x : Extent} (settled : x.Settled f₀ f v)
    (fresh : v ∉ seen) (kind : x.provenance = .allocation ∨ x.provenance = .parameter) :
    (s.addExtent v x).Sound f₀ f (seen ++ [v]) := by
  obtain ⟨keys, derived, old⟩ := h.insert fresh x
  have lookup : ∀ w, (s.map.insert v x)[w]? = if w = v then some x else s.map[w]? :=
    fun w => TreeMap.getElem?_insert_iff
  refine ⟨h.draft, fun w y hy => ?_, keys, derived, h.derived_nodup,
    fun m hm => ⟨(h.merges m hm).1, ?_⟩, h.placeholders, h.distinct, fun w y hy merge => ?_,
    fun w y source hy derived => ?_, h.added⟩
  · rw [Seeds.addExtent, lookup] at hy
    split at hy
    · next e =>
      cases hy
      exact e ▸ settled
    · exact h.extents w y hy
  · obtain ⟨aliases, ha⟩ := (h.merges m hm).2
    exact ⟨aliases, by rw [Seeds.addExtent, lookup, if_neg (old m hm), ha]⟩
  · rw [Seeds.addExtent, lookup] at hy
    split at hy
    · cases hy
      simp [merge] at kind
    · exact h.merged w y hy merge
  · rw [Seeds.addExtent, lookup] at hy
    split at hy
    · cases hy
      simp [derived] at kind
    · exact h.direct w y source hy derived

theorem Sound.addDerived (h : s.Sound f₀ f seen) {d : DerivedSeed} (sound : d.Sound f₀)
    (fresh : d.pointer ∉ seen) : (s.addDerived d).Sound f₀ f (seen ++ [d.pointer]) := by
  refine ⟨h.draft, h.extents, fun w hw => List.mem_append_left _ (h.keys w hw), fun d' hd' => ?_,
    ?_, h.merges, h.placeholders, h.distinct, h.merged, h.direct, h.added⟩
  · rcases List.mem_append.mp hd' with hd' | hd'
    · obtain ⟨sound', hseen, free⟩ := h.derived d' hd'
      exact ⟨sound', List.mem_append_left _ hseen, free⟩
    · obtain rfl := List.mem_singleton.mp hd'
      exact ⟨sound, by simp, fun hd => fresh (h.keys _ hd)⟩
  · rw [Seeds.addDerived, List.map_append, List.nodup_append]
    refine ⟨h.derived_nodup, by simp, fun a ha b hb => ?_⟩
    obtain ⟨d', hd', rfl⟩ := List.mem_map.mp ha
    rintro rfl
    exact fresh ((by simpa using hb : d'.pointer = d.pointer) ▸ (h.derived d' hd').2.1)

end Seeds

theorem run_newValue_bind {α : Type} {name : String} {t : Ty} {k : ValueId → Edit α} {f : Function} :
    (Edit.newValue name t >>= k) f = k ⟨f.values.size⟩ (f.newValue name t).2 := rfl

theorem Edit.run_of_perform {α : Type} {m : Edit α} {f : Function} {a : α}
    (h : (m.perform f).1.toOption = some a) : m f = .ok a (m.perform f).2 := by
  unfold Edit.perform at h ⊢
  cases run : m.run f with
  | ok b g =>
    rw [run] at h
    cases h
    exact run
  | error e g =>
    rw [run] at h
    cases h

/-! ## Widening a size -/

namespace Function

variable {f₀ f f' : Function} {b : BlockId} {w : ValueId} {position : Nat}

def widening (f : Function) (w : ValueId) : Instruction :=
  .define ⟨f.values.size⟩ (.cast (.value w) .i64)

theorem Inserted.mem_body_of_isPhi {is js : List Instruction} {i j : Instruction} {c : BlockId}
    (ins : Inserted f f' b is js j) (inner : j.op.isPhi = false) (hi : i ∈ f'.body c)
    (phi : i.op.isPhi = true) : i ∈ f.body c := by
  rcases ins.mem_body_iff.1 hi with ⟨-, rfl⟩ | hi
  · rw [inner] at phi
    cases phi
  · exact hi

/-- The function with that cast at a place. -/
def addWidening (f : Function) (w : ValueId) (b : BlockId) (position : Nat) (name : String) :
    Function :=
  (f.newValue name .i64).2.insertAt b position (f.widening w)

theorem widen_run {size x : Operand} {name : String}
    (run : Edit.widen size b position name f = .ok x f') :
    (f' = f ∧ f.Widened size x ∧ ∀ c, x = .value c → size = .value c ∧ f.valueType c = .i64) ∨
      ∃ w bits, size = .value w ∧ f.valueType w = .int bits ∧ x = .value ⟨f.values.size⟩ ∧
        f' = f.addWidening w b position name := by
  cases size with
  | const c =>
    cases c with
    | int bits value =>
      obtain ⟨rfl, rfl⟩ := run_pure_eq_ok_iff.1 run
      exact .inl ⟨rfl, .const, fun c h => by cases h⟩
    | f32 _ => exact absurd run run_throw_ne_ok
    | f64 _ => exact absurd run run_throw_ne_ok
    | null _ => exact absurd run run_throw_ne_ok
  | value w =>
    rw [Edit.widen, run_get_bind] at run
    generalize ht : f.valueType w = t at run
    split at run
    · obtain ⟨rfl, rfl⟩ := run_pure_eq_ok_iff.1 run
      refine .inl ⟨rfl, .same ht, fun c h => ?_⟩
      cases h
      exact ⟨rfl, ht⟩
    · rw [run_newValue_bind, run_modify_bind] at run
      obtain ⟨rfl, rfl⟩ := run_pure_eq_ok_iff.1 run
      exact .inr ⟨w, _, rfl, ht, rfl, rfl⟩
    · exact absurd run run_throw_ne_ok

/-- A cast that widens a size keeps everything known if it stands behind the merges of its block
and its operand is at hand. -/
theorem Draft.addWidening {pending : ValueSet} {bits : Nat} (h : f₀.Draft f pending)
    (name : String) (hb : b ∈ f.layout) (hw : f.valueType w = .int bits)
    (old : w.index < f₀.values.size) (inside : position < (f.body b).length)
    (behind : ∀ i ∈ (f.body b).drop position, i.op.isPhi = false)
    (first : b ≠ f.entry → ∃ i ∈ (f.body b).take position, i.op.isPhi = false)
    (hand : f.Lacks w b → w ∉ results ((f.body b).take position) → w ∈ f.params)
    (asked : w ∈ f₀.params ∨ ∃ v, ⟨some v, .malloc (.value w)⟩ ∈ (f.body b).take position) :
    f₀.Draft (f.addWidening w b position name) pending ∧
      Inserted (f.newValue name .i64).2 (f.addWidening w b position name) b
        ((f.body b).take position) ((f.body b).drop position) (f.widening w) ∧
      Grown f₀.values.size f.values.size f (f.addWidening w b position name) := by
  have hv := h.newValue name .i64
  have ins : Inserted (f.newValue name .i64).2 (f.addWidening w b position name) b
      ((f.body b).take position) ((f.body b).drop position) (f.widening w) :=
    hv.coherent.inserted_insertAt hb inside (f.widening w)
  refine ⟨?_, ins, (grown_newValue name .i64 (Nat.le_refl _)).trans
    (ins.grown rfl h.size (Nat.le_refl _))⟩
  refine hv.insert ins ⟨⟨_, rfl, valueType_newValue_self⟩, .inl ⟨w, bits, rfl, old, ?_⟩⟩ rfl h.size
    ?_ ?_ ?_ ?_ (fun w' hw' => ?_) (fun _ => id) ?_ (nomatch ·) (fun ne i hi => ?_) (.inr ⟨rfl, ?_⟩)
  · rw [valueType_newValue_of_lt (index_lt_of_int hw), hw]
  · intro hd
    obtain ⟨c, hc, hd⟩ := mem_defined_iff.1 hd
    obtain ⟨i, hi, hr⟩ := mem_results_iff.1 hd
    exact absurd (index_lt_of_typed ((h.shaped.fits c hc i hi).typed _ hr)) (Nat.lt_irrefl _)
  · exact fun hp => absurd (h.coherent.params _ hp) (Nat.lt_irrefl _)
  · exact h.coherent.unused_of_le h.shaped (Nat.le_refl _)
  · intro v hv
    obtain rfl : v = w := by simpa [widening, Instruction.define, Op.mem_usedValues_iff,
      Op.operands] using hv
    have := index_lt_of_int hw
    refine ⟨fun e => ?_, by simp; omega⟩
    rw [e] at this
    exact absurd this (Nat.lt_irrefl _)
  · cases hw'
    exact asked
  · refine PhisLead.insert ?_ rfl behind
    rw [List.take_append_drop]
    exact h.shaped.phisLead b hb
  · have found := first ne
    rw [dropWhile_append_of_exists found] at hi
    refine h.first b hb ne i ?_
    rw [← List.take_append_drop position (f.body b), dropWhile_append_of_exists found]
    obtain ⟨k, hk, phi⟩ := found
    have : ((f.body b).take position).dropWhile (·.op.isPhi) ≠ [] := by
      rw [ne_eq, List.dropWhile_eq_nil_iff]
      exact fun all => by simp [all k hk] at phi
    rwa [List.head?_append_of_ne_nil _ this] at hi ⊢
  · intro v hv lacks
    obtain rfl : v = w := by simpa [widening, Instruction.define, Op.mem_usedValues_iff,
      Op.operands] using hv
    exact hand ((relabelled_newValue name .i64).lacks_iff.mp lacks)

theorem covers_of_entry {n : Nat} {r v : ValueId} {j : Instruction} {js : List Instruction}
    (hbody : f.body f.entry = j :: js) (hr : j.result = some r) (new : n ≤ r.index) :
    f.Covers n r v := by
  have only : ∀ {b}, f.Lacks r b → b = f.entry := by
    intro b lacks
    induction lacks with
    | entry => rfl
    | step _ undefined _ ih =>
      subst ih
      exact absurd (by rw [hbody, results_cons, hr]; simp) undefined
  refine .inr fun b is js' split original lacks => ?_
  obtain rfl := only lacks.1
  rw [hbody] at split
  cases is with
  | nil =>
    obtain rfl : j :: js = js' := split
    exact absurd (original j rfl r hr) (by omega)
  | cons i is =>
    obtain ⟨rfl, _⟩ := List.cons.inj split
    exact absurd (by rw [results_cons, hr]; simp) lacks.2

theorem Shaped.exists_split_at (shaped : f.Shaped) {op : Op} {v : ValueId}
    (h : f.Defines b v op) : ∃ is js, f.body b = is ++ ⟨some v, op⟩ :: js ∧
      position? (f.body b) v = some is.length ∧ v ∉ results is ∧ v ∉ results js := by
  obtain ⟨is, js, split⟩ := List.append_of_mem h.2
  have unique : ∀ (k : Instruction) m, (f.body b)[m]? = some k → k.result = some v →
      m = is.length := by
    intro k m hk hr
    have at_k : f.DefinedAt v ⟨b, m⟩ := ⟨h.1, k, hk, hr⟩
    have here : f.DefinedAt v ⟨b, is.length⟩ := ⟨h.1, ⟨some v, op⟩, by rw [split]; simp, rfl⟩
    exact congrArg Location.position (at_k.unique shaped here)
  have before : v ∉ results is := by
    intro hv
    obtain ⟨k, hk, hr⟩ := mem_results_iff.1 hv
    obtain ⟨m, hm⟩ := List.getElem?_of_mem hk
    have lt : m < is.length := (List.getElem?_eq_some_iff.mp hm).1
    have := unique k m (by rw [split, List.getElem?_append_left lt, hm]) hr
    omega
  have behind : v ∉ results js := by
    intro hv
    obtain ⟨k, hk, hr⟩ := mem_results_iff.1 hv
    obtain ⟨m, hm⟩ := List.getElem?_of_mem hk
    have := unique k (is.length + 1 + m) (by
      rw [split, List.append_cons, List.getElem?_append_right (by simp)]
      simpa [Nat.add_sub_cancel_left] using hm) hr
    omega
  refine ⟨is, js, split, ?_, before, behind⟩
  rw [position?, split, List.findIdx?_append, List.findIdx?_cons]
  have : is.findIdx? (·.result == some v) = none := by
    rw [List.findIdx?_eq_none_iff]
    exact fun k hk => by simpa using fun hr => before (mem_results_iff.2 ⟨k, hk, hr⟩)
  simp [this]

theorem Shaped.ne_nil_of_not_isTerminator (shaped : f.Shaped) (hb : b ∈ f.layout)
    {is js : List Instruction} {i : Instruction} (split : f.body b = is ++ i :: js)
    (inner : i.op.isTerminator = false) : js ≠ [] := by
  rintro rfl
  obtain ⟨xs, t, hbody, ht, _⟩ := terminated_iff.1 (shaped.terminated b hb)
  rw [split] at hbody
  obtain ⟨_, h⟩ := List.append_inj' hbody rfl
  cases h
  simp [inner] at ht

end Function

namespace Seeds

variable {f₀ f f' : Function} {s s' : Seeds} {seen : List ValueId} {v : ValueId}

open CheckpointRestart.Function

theorem unsupported_ne_ok {α : Type} {reason : PointerFault} {a : α} :
    Edit.unsupported v reason f ≠ .ok a f' := by
  rw [Edit.unsupported, run_get_bind]
  exact run_throw_ne_ok

theorem Sound.parameter (h : s.Sound f₀ f seen) (co : f₀.Coherent)
    (plain : ∀ i ∈ f₀.body f₀.entry, i.op.isPhi = false)
    (fresh : ∀ argc, f₀.params = [argc, v] → argc ≠ v → v ∉ seen)
    (run : s.parameter v f = .ok s' f') : s'.Sound f₀ f' (seen ++ [v]) := by
  rw [Seeds.parameter, run_get_bind] at run
  by_cases pointer : (f.valueType v).isPointer = true
  · simp only [pointer, Bool.not_true, Bool.false_eq_true, if_false] at run
    generalize hp : f.params = params at run
    split at run
    · next argc argv =>
      split at run
      · next args =>
        rw [Bool.and_eq_true, beq_iff_eq] at args
        obtain ⟨takes, rfl⟩ := args
        have hp₀ : f₀.params = [argc, v] := h.draft.params ▸ hp
        rw [takesArguments, hp, Bool.and_eq_true] at takes
        have ne : argc ≠ v := by
          rintro rfl
          cases t : f.valueType argc <;> simp_all [Ty.isInt, Ty.isPointer]
        have mem : argc ∈ f.params := by simp [hp]
        have lt : ∀ w ∈ f₀.params, w.index < f₀.values.size := co.params
        have lt_argc := lt argc (by simp [hp₀])
        have pointer₀ : (f₀.valueType v).isPointer = true :=
          h.draft.types v (lt v (by simp [hp₀])) ▸ pointer
        rw [run_bind_eq_ok_iff] at run
        obtain ⟨count, g, widen, run⟩ := run
        obtain ⟨rfl, rfl⟩ := run_pure_eq_ok_iff.1 run
        rcases widen_run widen with ⟨rfl, wide, same⟩ | ⟨w, bits, hw, tw, rfl, rfl⟩
        · refine h.addExtent ⟨.parameter hp₀ wide, pointer₀, fun c hc => ?_⟩ (fresh argc hp₀ ne)
            (by simp)
          obtain rfl : count = .value c := by
            cases count <;> simp_all [Extent.sizeValues, Operand.i64, Operand.value?]
          obtain ⟨e, t⟩ := same c rfl
          cases e
          exact ⟨.inl mem, t⟩
        · cases hw
          have nonempty : 0 < (f.body f.entry).length := by
            obtain ⟨is, t, split, _⟩ := terminated_iff.1
              (h.draft.shaped.terminated _ h.draft.shaped.entry_mem)
            simp [split]
          obtain ⟨draft, ins, grown⟩ := h.draft.addWidening (f.valueName argc ++ ".wide")
            h.draft.shaped.entry_mem tw lt_argc nonempty
            (fun i hi => h.draft.entry_isPhi plain (by simpa using hi)) (absurd rfl)
            (fun _ _ => mem) (.inl (by simp [hp₀]))
          have start : (f.addWidening argc f.entry 0 (f.valueName argc ++ ".wide")).body
              (f.addWidening argc f.entry 0 (f.valueName argc ++ ".wide")).entry =
                f.widening argc :: (f.body f.entry).drop 0 := by
            rw [ins.entry]
            exact ins.after
          refine (seeds_grown h grown draft (fun c i hi phi => ?_) fun _ => id).addExtent
            ⟨.parameter hp₀ (.cast (b := f.entry) ⟨?_, ?_⟩), pointer₀, fun c hc => ?_⟩
            (fresh argc hp₀ ne) (by simp)
          · exact ins.mem_body_of_isPhi rfl hi phi
          · exact ins.layout ▸ h.draft.shaped.entry_mem
          · exact ins.mem_body_iff.2 (.inl ⟨rfl, rfl⟩)
          · obtain rfl : (⟨f.values.size⟩ : ValueId) = c := by
              simpa [Extent.sizeValues, Operand.i64, Operand.value?] using hc
            exact ⟨covers_of_entry start rfl h.draft.size, ins.valueType.trans
              valueType_newValue_self⟩
      · exact absurd run unsupported_ne_ok
    · exact absurd run unsupported_ne_ok
  · simp only [pointer, Bool.not_false, if_true] at run
    obtain ⟨rfl, rfl⟩ := run_pure_eq_ok_iff.1 run
    exact seeds_grown h .refl h.draft (fun _ _ hi _ => hi) fun w hw => List.mem_append_left _ hw

theorem Sound.malloc (h : s.Sound f₀ f seen) {b : BlockId} {bytes count : Operand}
    (shaped : f₀.Shaped) (defines : f₀.Defines b v (.malloc bytes))
    (pointer : (f₀.valueType v).isPointer = true) (fresh : v ∉ seen)
    (run : Edit.widen bytes b (((position? (f.body b) v).map (· + 1)).getD 0)
      (f.valueName v ++ ".bytes") f = .ok count f') :
    (s.addExtent v ⟨.allocation, .i64 8, count, {v}, none⟩).Sound f₀ f' (seen ++ [v]) := by
  obtain ⟨hb₀, hi₀⟩ := id defines
  have original := (h.draft.mem_body_iff.1 hi₀).2
  have now : f.Defines b v (.malloc bytes) :=
    ⟨h.draft.layout ▸ hb₀, (h.draft.mem_body_iff.1 hi₀).1⟩
  have hb := now.1
  obtain ⟨is, js, split, position, before, -⟩ := h.draft.shaped.exists_split_at now
  have inside := h.draft.shaped.ne_nil_of_not_isTerminator hb split rfl
  have take : (f.body b).take (is.length + 1) = is ++ [⟨some v, .malloc bytes⟩] := by
    rw [split, List.append_cons, List.take_left' (by simp)]
  have drop : (f.body b).drop (is.length + 1) = js := by
    rw [split, List.append_cons, List.drop_left' (by simp)]
  rw [position] at run
  simp only [Option.map_some, Option.getD_some] at run
  rcases widen_run run with ⟨rfl, wide, same⟩ | ⟨w, bits, rfl, tw, rfl, rfl⟩
  · refine h.addExtent ⟨.malloc defines wide, pointer, fun c hc => ?_⟩ fresh (by simp)
    obtain rfl : count = .value c := by
      cases count <;> simp_all [Extent.sizeValues, Operand.i64, Operand.value?]
    obtain ⟨rfl, t⟩ := same c rfl
    exact ⟨h.draft.strict.covers_operand h.draft.shaped hb now.2 rfl rfl
      (by simp [Op.mem_usedValues_iff, Op.operands]), t⟩
  · have use : w ∈ (Op.malloc (.value w)).usedValues := by
      simp [Op.mem_usedValues_iff, Op.operands]
    have room : is.length + 1 < (f.body b).length := by
      have := List.length_pos_iff.mpr inside
      rw [split]
      simp
      omega
    have behind : ∀ i ∈ (f.body b).drop (is.length + 1), i.op.isPhi = false := by
      rw [drop]
      have lead := h.draft.shaped.phisLead b hb
      rw [split, List.append_cons] at lead
      exact lead.behind ⟨⟨some v, .malloc (.value w)⟩, by simp, rfl⟩
    have hand : f.Lacks w b → w ∉ results ((f.body b).take (is.length + 1)) → w ∈ f.params := by
      intro lacks undefined
      refine h.draft.strict.operands b w ?_ lacks
      rw [take, results_append, List.mem_append, not_or] at undefined
      rw [split, exposed_append_iff]
      exact .inr ⟨undefined.1, .inl ⟨rfl, use⟩⟩
    obtain ⟨draft, ins, grown⟩ := h.draft.addWidening (f.valueName v ++ ".bytes") hb tw
      ((shaped.fits b hb₀ _ hi₀).operands w use) room behind
      (fun _ => ⟨⟨some v, .malloc (.value w)⟩, by rw [take]; simp, rfl⟩) hand
      (.inr ⟨v, by rw [take]; simp⟩)
    refine (seeds_grown h grown draft (fun c i hi phi => ?_) fun _ => id).addExtent ⟨.malloc defines
      (.cast (b := b) ⟨?_, ?_⟩), pointer, fun c hc => ?_⟩ fresh (by simp)
    · exact ins.mem_body_of_isPhi rfl hi phi
    · exact ins.layout ▸ hb
    · exact ins.mem_body_iff.2 (.inl ⟨rfl, rfl⟩)
    · obtain rfl : (⟨f.values.size⟩ : ValueId) = c := by
        simpa [Extent.sizeValues, Operand.i64, Operand.value?] using hc
      refine ⟨?_, ins.valueType.trans valueType_newValue_self⟩
      refine draft.shaped.covers_of_block (d := b) (ins.layout ▸ hb)
        (grown.defines now).mem_results (ins.mem_results_iff.2 (.inl ⟨rfl, rfl⟩)) ?_
      intro is' js' cut head
      rw [ins.after, take, drop, List.append_assoc] at cut
      exact mem_results_of_adjacent before rfl h.draft.size cut head

end Seeds

namespace Function

variable {f₀ f f' : Function} {b : BlockId} {r v : ValueId} {pending : ValueSet}

/-- A merge of sizes without incoming values yet. -/
def placeholder (r : ValueId) : Instruction :=
  .define r (.phi [])

theorem Draft.addPlaceholder (h : f₀.Draft f pending) (co : f₀.Coherent) (hb : b ∈ f.layout)
    (typed : f.valueType r = .i64) (new : f₀.values.size ≤ r.index) (fresh : r ∉ f.defined)
    (unused : f.Unused r) (merging : ∃ k ∈ f₀.body b, k.op.isPhi = true) :
    f₀.Draft (f.insertFront b (placeholder r)) (pending.insert r) ∧
      Inserted f (f.insertFront b (placeholder r)) b [] (f.body b) (placeholder r) := by
  have ins := h.coherent.inserted_insertFront h.shaped hb (placeholder r)
  refine ⟨h.insert ins ⟨⟨r, rfl, typed⟩, .inr ⟨[], rfl, by simp⟩⟩ rfl new fresh (fun hp => ?_) unused
    (by simp [placeholder, Instruction.define, Op.mem_usedValues_iff, Op.operands])
    (fun _ cast => nomatch cast)
    (fun v hv => TreeSet.mem_insert_iff.2 (.inr hv)) ?_ (fun _ => merging) (fun ne => ?_)
    (.inl ⟨rfl, TreeSet.mem_insert_iff.2 (.inl rfl)⟩), ins⟩
  · have := co.params r (h.params ▸ hp)
    omega
  · simpa [PhisLead, placeholder, Instruction.define, Op.isPhi] using h.shaped.phisLead b hb
  · simpa [placeholder, Instruction.define, Op.isPhi] using h.first b hb ne

/-- A placeholder covers whatever its block defines. -/
theorem Inserted.covers_placeholder (ins : Inserted f f' b [] (f.body b) (placeholder r))
    (shaped : f'.Shaped) {n : Nat} (hv : v ∈ results (f.body b)) : f'.Covers n r v := by
  refine shaped.covers_of_block (ins.layout ▸ ins.mem) (ins.mem_results_iff.2 (.inr hv))
    (ins.mem_results_iff.2 (.inl ⟨rfl, rfl⟩)) fun is js split _ hv' => ?_
  rw [ins.after] at split
  cases is with
  | nil => cases hv'
  | cons i is =>
    obtain ⟨rfl, -⟩ := List.cons.inj split
    simp [results_cons, placeholder, Instruction.define]

/-- The function with two placeholders at the front of a block. -/
def addPlaceholders (f : Function) (b : BlockId) (name : String) : Function :=
  let g := ((f.newValue (name ++ ".bits") .i64).2.newValue (name ++ ".count") .i64).2
  (g.insertFront b (placeholder ⟨f.values.size + 1⟩)).insertFront b (placeholder ⟨f.values.size⟩)

theorem Draft.addPlaceholders (h : f₀.Draft f pending) (co : f₀.Coherent) (name : String)
    (hb : b ∈ f.layout) (merging : ∃ k ∈ f₀.body b, k.op.isPhi = true) :
    f₀.Draft (f.addPlaceholders b name)
        ((pending.insert ⟨f.values.size + 1⟩).insert ⟨f.values.size⟩) ∧
      Grown f₀.values.size f.values.size f (f.addPlaceholders b name) ∧
      (∀ r : ValueId, r.index = f.values.size ∨ r.index = f.values.size + 1 →
        (f.addPlaceholders b name).Defines b r (.phi []) ∧
        (f.addPlaceholders b name).valueType r = .i64 ∧
        ∀ v ∈ results (f.body b), v.index < f.values.size →
          (f.addPlaceholders b name).Covers f₀.values.size r v) ∧
      ∀ c, ∀ i ∈ (f.addPlaceholders b name).body c, i ∈ f.body c ∨
        b = c ∧ (i.result = some ⟨f.values.size⟩ ∨ i.result = some ⟨f.values.size + 1⟩) := by
  -- the two values, then the merge of counts, then in front of it the merge of widths
  let g₁ := (f.newValue (name ++ ".bits") .i64).2
  let g := (g₁.newValue (name ++ ".count") .i64).2
  have size₁ : g₁.values.size = f.values.size + 1 := size_values_newValue
  have hg : f₀.Draft g pending := (h.newValue _ _).newValue _ _
  have old : ∀ r ∈ f.defined, r.index < f.values.size := by
    intro r hr
    obtain ⟨c, hc, hr⟩ := mem_defined_iff.1 hr
    obtain ⟨i, hi, hr⟩ := mem_results_iff.1 hr
    exact index_lt_of_typed ((h.shaped.fits c hc i hi).typed r hr)
  have type_count : g.valueType ⟨f.values.size + 1⟩ = .i64 := by
    rw [← size₁]
    exact valueType_newValue_self
  have type_width : g.valueType ⟨f.values.size⟩ = .i64 := by
    refine (valueType_newValue_of_lt ?_).trans valueType_newValue_self
    rw [size₁]
    exact Nat.lt_succ_self _
  obtain ⟨draft₁, ins₁⟩ := hg.addPlaceholder co (b := b) hb type_count (Nat.le_succ_of_le h.size)
    (fun hr => absurd (old _ hr) (by simp))
    (h.coherent.unused_of_le h.shaped (Nat.le_succ _)) merging
  let g₂ := g.insertFront b (placeholder ⟨f.values.size + 1⟩)
  have fresh : (⟨f.values.size⟩ : ValueId) ∉ g₂.defined := by
    intro hr
    obtain ⟨c, hc, hr⟩ := mem_defined_iff.1 hr
    rcases ins₁.mem_results_iff.1 hr with ⟨_, e⟩ | hr
    · simp [placeholder, Instruction.define] at e
    · exact absurd (old _ (mem_defined_iff.2 ⟨c, hc, hr⟩)) (by simp)
  have unused : g₂.Unused ⟨f.values.size⟩ := by
    intro c i hi
    rcases ins₁.mem_body_iff.1 hi with ⟨_, rfl⟩ | hi
    · simp [placeholder, Instruction.define, Op.mem_usedValues_iff, Op.operands]
    · exact h.coherent.unused_of_le h.shaped (Nat.le_refl _) c i hi
  obtain ⟨draft, ins⟩ := draft₁.addPlaceholder co (b := b) hb
    (ins₁.valueType.trans type_width) h.size fresh unused merging
  have grown : Grown f₀.values.size f.values.size f (f.addPlaceholders b name) :=
    ((grown_newValue _ _ (Nat.le_refl _)).trans (grown_newValue _ _ (by simp))).trans
      ((ins₁.grown rfl (Nat.le_succ_of_le h.size) (Nat.le_succ _)).trans
        (ins.grown rfl h.size (Nat.le_refl _)))
  refine ⟨draft, grown, fun r hr => ?_, fun c i hi => ?_⟩
  swap
  · rcases ins.mem_body_iff.1 hi with ⟨rfl, rfl⟩ | hi
    · exact .inr ⟨rfl, .inl rfl⟩
    · rcases ins₁.mem_body_iff.1 hi with ⟨rfl, rfl⟩ | hi
      · exact .inr ⟨rfl, .inr rfl⟩
      · exact .inl hi
  obtain ⟨r⟩ := r
  simp only at hr
  rcases hr with rfl | rfl
  · refine ⟨⟨hb, ins.mem_body_iff.2 (.inl ⟨rfl, rfl⟩)⟩, ins.valueType.trans
      (ins₁.valueType.trans type_width), fun v hv _ => ins.covers_placeholder draft.shaped ?_⟩
    exact ins₁.mem_results_iff.2 (.inr hv)
  · refine ⟨⟨hb, ins.mem_body_iff.2 (.inr (ins₁.mem_body_iff.2 (.inl ⟨rfl, rfl⟩)))⟩,
      ins.valueType.trans (ins₁.valueType.trans type_count), fun v hv lt => ?_⟩
    refine (ins₁.covers_placeholder draft₁.shaped hv).inserted ins ?_ ?_ ?_
    · exact fun o => absurd (o _ rfl) (by simpa using h.size)
    · simp [placeholder, Instruction.define]
    · intro e
      cases e
      simp at lt

end Function

namespace Seeds

variable {f₀ f f' : Function} {s s' : Seeds} {seen : List ValueId} {v : ValueId}

open CheckpointRestart.Function

theorem Sound.merge (h : s.Sound f₀ f seen) (co : f₀.Coherent) {b : BlockId}
    {incoming : List (Operand × BlockId)} (defines : f₀.Defines b v (.phi incoming))
    (pointer : (f₀.valueType v).isPointer = true) (fresh : v ∉ seen)
    (run : s.merge b v incoming f = .ok s' f') : s'.Sound f₀ f' (seen ++ [v]) := by
  rw [Seeds.merge, run_get_bind, run_newValue_bind, run_newValue_bind, run_modify_bind,
    size_values_newValue] at run
  obtain ⟨rfl, hf⟩ := run_pure_eq_ok_iff.1 run
  obtain rfl : f.addPlaceholders b (f.valueName v) = f' := hf
  have hb : b ∈ f.layout := h.draft.layout ▸ defines.1
  have now : v ∈ results (f.body b) :=
    mem_results_iff.2 ⟨_, (h.draft.mem_body_iff.1 defines.2).1, rfl⟩
  have lt_v : v.index < f.values.size := (index_lt_of_isPointer pointer).trans_le h.draft.size
  obtain ⟨draft, grown, both, added⟩ := h.draft.addPlaceholders co (f.valueName v) hb
    ⟨_, defines.2, rfl⟩
  obtain ⟨width_def, width_type, width_cover⟩ := both ⟨f.values.size⟩ (.inl rfl)
  obtain ⟨count_def, count_type, count_cover⟩ := both ⟨f.values.size + 1⟩ (.inr rfl)
  obtain ⟨keys, derived, old⟩ := h.insert fresh _
  have lookup : ∀ w x, (s.map.insert v x)[w]? = if w = v then some x else s.map[w]? :=
    fun w x => TreeMap.getElem?_insert_iff
  refine ⟨draft, fun w x hx => ?_, keys, derived, h.derived_nodup, fun m hm => ?_,
    fun r => ?_, ?_, fun w x hx merge => ?_, fun w x source hx derived => ?_, fun c i hi new phi => ?_⟩
  · rw [lookup] at hx
    split at hx
    · next e =>
      subst e
      cases hx
      refine ⟨.merge defines, pointer, fun c hc => ?_⟩
      simp only [Extent.sizeValues, List.filterMap_cons, List.filterMap_nil, Operand.value?,
        List.mem_cons, List.not_mem_nil, or_false] at hc
      rcases hc with rfl | rfl
      · exact ⟨width_cover w now lt_v, width_type⟩
      · exact ⟨count_cover w now lt_v, count_type⟩
    · exact settled_grown (h.extents w x hx) grown rfl h.draft.size
  · rcases List.mem_append.mp hm with hm | hm
    · obtain ⟨sound, aliases, ha⟩ := h.merges m hm
      exact ⟨mergeSeed_grown sound grown, aliases, by rw [lookup, if_neg (old m hm), ha]⟩
    · obtain rfl := List.mem_singleton.mp hm
      exact ⟨⟨defines, pointer, ⟨[], width_def⟩, ⟨[], count_def⟩, by simp, h.draft.size,
        Nat.le_succ_of_le h.draft.size⟩, _, (lookup v _).trans (if_pos rfl)⟩
  · rw [TreeSet.mem_insert_iff, TreeSet.mem_insert_iff, h.placeholders]
    simp only [List.mem_append, List.mem_singleton, or_and_right, exists_or, exists_eq_left]
    rw [← or_assoc, or_comm]
  · rw [List.flatMap_append, List.nodup_append]
    refine ⟨h.distinct, by simp, fun r hr r' hr' => ?_⟩
    have lt : r.index < f.values.size := by
      obtain ⟨m, hm, hr⟩ := List.mem_flatMap.mp hr
      obtain ⟨⟨_, _, ⟨p, hw⟩, ⟨q, hc⟩, _, _⟩, _⟩ := h.merges m hm
      simp only [List.mem_cons, List.not_mem_nil, or_false] at hr
      rcases hr with rfl | rfl
      · exact index_lt_of_typed ((h.draft.shaped.fits _ hw.1 _ hw.2).typed _ rfl)
      · exact index_lt_of_typed ((h.draft.shaped.fits _ hc.1 _ hc.2).typed _ rfl)
    rintro rfl
    simp only [List.flatMap_cons, List.flatMap_nil, List.append_nil, List.mem_cons,
      List.not_mem_nil, or_false] at hr'
    rcases hr' with rfl | rfl
    · exact absurd lt (Nat.lt_irrefl _)
    · exact absurd lt (Nat.not_lt.mpr (Nat.le_succ _))
  · rw [lookup] at hx
    split at hx
    · next e => exact ⟨_, List.mem_append_right _ (List.mem_singleton_self _), e.symm⟩
    · obtain ⟨m, hm, e⟩ := h.merged w x hx merge
      exact ⟨m, List.mem_append_left _ hm, e⟩
  · rw [lookup] at hx
    split at hx
    · cases hx
      cases derived
    · exact h.direct w x source hx derived
  · rcases added c i hi with hi | ⟨rfl, hr⟩
    · obtain ⟨m, hm, here⟩ := h.added c i hi new phi
      exact ⟨m, List.mem_append_left _ hm, here⟩
    · exact ⟨_, List.mem_append_right _ (List.mem_singleton_self _), rfl, hr⟩

/-- What the seed of a pointer adds, for the operations that have a rule. -/
inductive Seeding (s : Seeds) (f : Function) (b : BlockId) (v : ValueId) :
    Op → Seeds → Function → Prop
  | alloca {t : Ty} {n : UInt64} : Seeding s f b v (.alloca t n)
      (s.addExtent v ⟨.allocation, .i64 (.ofNat t.storeBits), .i64 n.toInt64, {v}, none⟩) f
  | malloc {bytes count : Operand} {f' : Function} :
    Edit.widen bytes b (((position? (f.body b) v).map (· + 1)).getD 0) (f.valueName v ++ ".bytes") f =
      .ok count f' →
    Seeding s f b v (.malloc bytes) (s.addExtent v ⟨.allocation, .i64 8, count, {v}, none⟩) f'
  | merge {incoming : List (Operand × BlockId)} {s' : Seeds} {f' : Function} :
    s.merge b v incoming f = .ok s' f' → Seeding s f b v (.phi incoming) s' f'
  | derived {op : Op} {source : ValueId} {index : Option ValueId} : Derives op source index →
    Seeding s f b v op (s.addDerived ⟨v, source, index⟩) f

theorem definition_run {b : BlockId} {op : Op} (run : s.definition (b, v, op) f = .ok s' f') :
    s.Seeding f b v op s' f' := by
  cases op with
  | alloca t n =>
    obtain ⟨rfl, rfl⟩ := run_pure_eq_ok_iff.1 run
    exact .alloca
  | malloc bytes =>
    rw [Seeds.definition, run_get_bind, run_bind_eq_ok_iff] at run
    obtain ⟨count, g, widen, run⟩ := run
    obtain ⟨rfl, rfl⟩ := run_pure_eq_ok_iff.1 run
    exact .malloc widen
  | phi incoming => exact .merge run
  | gep x y =>
    cases x with
    | value source =>
      obtain ⟨rfl, rfl⟩ := run_pure_eq_ok_iff.1 run
      exact .derived .gep
    | const c => exact absurd run unsupported_ne_ok
  | load x =>
    cases x with
    | value source =>
      obtain ⟨rfl, rfl⟩ := run_pure_eq_ok_iff.1 run
      exact .derived .load
    | const c => exact absurd run unsupported_ne_ok
  | cast x t =>
    simp only [Seeds.definition] at run
    rw [run_get_bind] at run
    split at run
    · rw [run_bind_eq_ok_iff] at run
      obtain ⟨_, _, run, _⟩ := run
      exact absurd run unsupported_ne_ok
    · cases x with
      | value source =>
        obtain ⟨rfl, rfl⟩ := run_pure_eq_ok_iff.1 run
        exact .derived .cast
      | const c => exact absurd run unsupported_ne_ok
  | session c => cases c <;> exact absurd run unsupported_ne_ok
  | _ => exact absurd run unsupported_ne_ok

theorem Sound.definition (h : s.Sound f₀ f seen) (co : f₀.Coherent) (shaped : f₀.Shaped)
    {b : BlockId} {op : Op} (defines : f₀.Defines b v op)
    (pointer : (f₀.valueType v).isPointer = true) (fresh : v ∉ seen)
    (run : s.definition (b, v, op) f = .ok s' f') : s'.Sound f₀ f' (seen ++ [v]) := by
  cases definition_run run with
  | alloca =>
    refine h.addExtent ⟨.alloca defines, pointer, ?_⟩ fresh (by simp)
    simp [Extent.sizeValues, Operand.i64, Operand.value?]
  | malloc widen => exact h.malloc shaped defines pointer fresh widen
  | merge run => exact h.merge co defines pointer fresh run
  | derived derives => exact h.addDerived ⟨⟨b, op, defines, derives⟩, pointer⟩ fresh

theorem mem_pointerDefinitions_iff {b : BlockId} {op : Op} :
    (b, v, op) ∈ f.pointerDefinitions ↔
      f.Defines b v op ∧ (f.valueType v).isPointer = true := by
  simp only [pointerDefinitions, instructions, List.mem_filterMap, List.mem_flatMap, List.mem_map,
    Option.bind_eq_some_iff, Prod.exists, Prod.mk.injEq, Option.ite_none_right_eq_some,
    Option.some.injEq, Defines]
  constructor
  · rintro ⟨c, i, ⟨d, hd, k, hk, rfl, rfl⟩, w, hr, pointer, rfl, rfl, rfl⟩
    refine ⟨⟨hd, ?_⟩, pointer⟩
    rwa [← hr]
  · rintro ⟨⟨hb, hi⟩, pointer⟩
    exact ⟨b, _, ⟨b, hb, _, hi, rfl, rfl⟩, v, rfl, pointer, rfl, rfl, rfl⟩

theorem nodup_pointerDefinitions (shaped : f.Shaped) :
    (f.pointerDefinitions.map (·.2.1)).Nodup := by
  have whole : f.instructions.filterMap (·.2.result) = f.defined := by
    simp only [instructions, Function.defined, List.filterMap_flatMap, List.filterMap_map, results]
    rfl
  refine (whole ▸ shaped.once).sublist ?_
  rw [pointerDefinitions]
  induction f.instructions with
  | nil => exact .slnil
  | cons x xs ih =>
    obtain ⟨b, i⟩ := x
    cases hr : i.result with
    | none => simpa [hr] using ih
    | some v =>
      by_cases pointer : (f.valueType v).isPointer = true
      · simpa [hr, pointer] using ih
      · simpa [hr, pointer] using ih.cons v

theorem sound_params (co : f.Coherent) (wf : f.WellFormed) (strict : f.Strict)
    (plain : ∀ i ∈ f.body f.entry, i.op.isPhi = false)
    (run : f.params.foldlM parameter ⟨∅, ∅, [], []⟩ f = .ok s f') : s.Sound f f' f.params := by
  have start : Sound f f ⟨∅, ∅, [], []⟩ [] := by
    have draft := Draft.start co wf strict
    refine ⟨draft, ?_, ?_, ?_, ?_, ?_, ?_, ?_, ?_, ?_, fun b i hi new => ?_⟩
    any_goals simp
    exact absurd (draft.mem_body_iff.1 hi).2 new
  refine foldlM_run_induction (fun front s g => Sound f g s front) ?_ start run
  intro front p back split s g s' g' sound step
  refine sound.parameter co plain (fun argc hp ne hmem => ?_) step
  -- the argument vector comes second, so it is not among what comes before it
  rw [hp] at split
  cases front with
  | nil => cases hmem
  | cons a front =>
    obtain ⟨rfl, split⟩ := List.cons.inj split
    cases front with
    | nil => exact ne (List.mem_singleton.mp hmem).symm
    | cons a front =>
      have := congrArg List.length split
      simp at this

/-- The search over all pointers of a function. -/
theorem sound_collect (co : f.Coherent) (wf : f.WellFormed) (strict : f.Strict)
    (plain : ∀ i ∈ f.body f.entry, i.op.isPhi = false) (run : collect f = .ok s f') :
    ∃ seen, s.Sound f f' seen := by
  rw [collect, run_get_bind, run_bind_eq_ok_iff] at run
  obtain ⟨s₁, f₁, params, run⟩ := run
  rw [run_get_bind] at run
  have after_params := sound_params co wf strict plain params
  have pointers : ∀ b v op, (b, v, op) ∈ f₁.pointerDefinitions → f.Defines b v op ∧
      (f.valueType v).isPointer = true := by
    intro b v op hd
    obtain ⟨⟨hb, hi⟩, pointer⟩ := mem_pointerDefinitions_iff.1 hd
    have draft := after_params.draft
    have original : Original f.values.size ⟨some v, op⟩ := by
      by_contra new
      obtain ⟨r, hr, t⟩ := (draft.added b _ hi new).result
      cases hr
      simp [t, Ty.i64, Ty.isPointer] at pointer
    exact ⟨⟨draft.layout ▸ hb, draft.mem_body_iff.2 ⟨hi, original⟩⟩,
      draft.types v (original v rfl) ▸ pointer⟩
  refine ⟨f.params ++ f₁.pointerDefinitions.map (·.2.1), ?_⟩
  refine foldlM_run_induction (fun front s g => Sound f g s (f.params ++ front.map (·.2.1))) ?_
    (by simpa using after_params) run
  intro front d back split s g s' g' sound step
  obtain ⟨b, v, op⟩ := d
  obtain ⟨defines, pointer⟩ := pointers b v op (by simp [split])
  have nodup := nodup_pointerDefinitions after_params.draft.shaped
  have fresh : v ∉ f.params ++ front.map (·.2.1) := by
    rw [List.mem_append, not_or]
    refine ⟨wf.params v defines.mem_defined, fun hv => ?_⟩
    rw [split, List.map_append, List.map_cons, List.nodup_append] at nodup
    exact nodup.2.2 v hv v (by simp) rfl
  have := sound.definition co wf.toShaped defines pointer fresh step
  simpa [List.append_assoc] using this

end Seeds

end CheckpointRestart
