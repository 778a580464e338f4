import CheckpointRestart.Proofs.Machine.Steps
import CheckpointRestart.Proofs.Pointer.Keys
import CheckpointRestart.Proofs.Pointer.Roots
import CheckpointRestart.Storage.InMemory

/-! # Extents are exact

Wherever a pointer into an allocation of the function itself is at hand, the sizes in its extent say
how many bytes that allocation has. The pointer and its sizes are not computed at the same time and
may be computed again in a loop. What keeps them together is that a value cannot be defined anew as
long as something computed from it is at hand.
-/

namespace CheckpointRestart

theorem Word.signExtend_64 (a : Int64) : Word.signExtend a 64 = a :=
  if_pos (.inr (Nat.le_refl 64))

namespace Env

variable {env env' : Env} {x : Operand}

/-- The integer that an operand stands for. -/
def integer? (env : Env) (x : Operand) : Option Int64 :=
  (env.operand? x).bind Value.int?

theorem integer?_congr (h : ∀ v, x = .value v → env'[v]? = env[v]?) :
    env'.integer? x = env.integer? x := by
  cases x with
  | const c => rfl
  | value v => exact congrArg (Option.bind · Value.int?) (h v rfl)

theorem integer?_i64 {n : Int64} : env.integer? (.i64 n) = some n :=
  congrArg some (Word.signExtend_64 n)

end Env

namespace Function

variable {f : Function} {b c d : BlockId} {done rest : List Instruction} {i : Instruction}
  {v w r : ValueId} {op : Op} {n : Nat}

/-! ## Values at hand -/

/-- Control cannot have passed `done` in `b` without a definition of the value. -/
def AtHand (f : Function) (v : ValueId) (b : BlockId) (done : List Instruction) : Prop :=
  v ∈ f.params ∨ ¬ f.LacksAfter v b done

namespace AtHand

theorem of_snoc (h : f.AtHand v b (done ++ [i])) (ne : i.result ≠ some v) : f.AtHand v b done := by
  refine h.imp_right fun hand lacks => hand ⟨lacks.1, ?_⟩
  simp [lacks.2, ne]

theorem of_jump {phis : List Instruction} (h : f.AtHand v b phis) (fresh : v ∉ results phis)
    (body : f.body c = done ++ [i]) (edge : b ∈ f.successors c) (ne : i.result ≠ some v) :
    f.AtHand v c done := by
  refine h.imp_right fun hand lacks => hand ⟨.step lacks.1 ?_ edge, fresh⟩
  rw [body]
  simp [lacks.2, ne]

theorem operand (h : f.AtHand v b done) (strict : f.Strict) (shaped : f.Shaped)
    (def_ : f.Defines d v op) (plain : op.isPhi = false) (use : w ∈ op.usedValues)
    (body : f.body b = done ++ rest) : f.AtHand w b done := by
  by_cases given : w ∈ f.params
  · exact .inl given
  · refine .inr fun lacks => ?_
    rcases h with h | h
    · exact shaped.params v def_.mem_defined h
    · exact h (strict.lacksAfter_of_operand shaped def_.1 def_.2 rfl plain use given body lacks)

theorem covered (h : f.AtHand v b done) (cover : f.Covers n w v) (body : f.body b = done ++ rest)
    (original : ∀ i ∈ rest.head?, Original n i) : f.AtHand w b done := by
  refine cover.imp_right fun cover lacks => ?_
  obtain ⟨given, lacks⟩ := cover b done rest body original lacks
  exact h.elim given fun hand => hand lacks

end AtHand

theorem Shaped.not_atHand (shaped : f.Shaped) (reach : f.Reachable b) (hr : r ∈ results (f.body b))
    (fresh : r ∉ results done) : ¬ f.AtHand r b done := by
  have mem := reach.inside_end
  rintro (given | hand)
  · exact shaped.params r (mem_defined_iff.2 ⟨b, mem, hr⟩) given
  · exact hand ⟨lacks_of_reachable reach fun c hc hv => shaped.defining_block hc hv mem hr, fresh⟩

namespace Place

theorem not_atHand (h : f.Place b done (i :: rest)) (shaped : f.Shaped) (hr : i.result = some r) :
    ¬ f.AtHand r b done := by
  have nodup : (results (f.body b)).Nodup := (List.nodup_flatMap.mp shaped.once).1 b h.mem_layout
  refine shaped.not_atHand h.reachable (mem_results_iff.2 ⟨i, h.mem_body, hr⟩) fun before => ?_
  rw [h.body, results_append, results_cons, hr, List.nodup_append] at nodup
  exact nodup.2.2 r before r (by simp) rfl

end Place

theorem Strict.atHand (strict : f.Strict) (body : f.body b = done ++ i :: rest)
    (phi : i.op.isPhi = false) (use : w ∈ i.op.usedValues) : f.AtHand w b done := by
  by_cases given : w ∈ f.params
  · exact .inl given
  · refine .inr fun lacks => given (strict.operands b w ?_ lacks.1)
    rw [body, exposed_append_iff]
    exact .inr ⟨lacks.2, .inl ⟨phi, use⟩⟩

/-- What flows into a merge is at hand where it comes from. -/
theorem Strict.atHand_incoming (strict : f.Strict) (hb : b ∈ f.layout)
    (takes : TakesFrom (f.body b) v c) (body : f.body c = done ++ [i]) (ne : i.result ≠ some v) :
    f.AtHand v c done := by
  by_cases given : v ∈ f.params
  · exact .inl given
  · refine .inr fun lacks => given (strict.incoming b hb v c takes lacks.1 ?_)
    rw [body]
    simp [lacks.2, ne]

/-- A merge takes in values of its own type, a pointer that a cast gives is cast to a pointer, and
an allocation asks for a constant in the range of its width. Of another constant the machine keeps
the bits of its width, while the extent counts the whole number. -/
def WellTyped (f : Function) (v : ValueId) : Op → Prop
  | .phi pairs => ∀ x ∈ pairs, f.operandType x.1 = f.valueType v
  | .cast _ t => (f.valueType v).isPointer = true → t.isPointer = true
  | .malloc (.const (.int bits n)) => Word.signExtend n bits = n
  | _ => True

instance (f : Function) (v : ValueId) : (op : Op) → Decidable (f.WellTyped v op)
  | .phi pairs => inferInstanceAs (Decidable (∀ x ∈ pairs, f.operandType x.1 = f.valueType v))
  | .cast _ t => inferInstanceAs (Decidable ((f.valueType v).isPointer = true → t.isPointer = true))
  | .malloc (.const (.int bits n)) => inferInstanceAs (Decidable (Word.signExtend n bits = n))
  | .malloc (.const (.f32 _)) | .malloc (.const (.f64 _)) | .malloc (.const (.null _))
  | .malloc (.value _) | .alloca _ _ | .free _ | .gep _ _ | .load _ | .store _ _ | .binary _ _ _ | .compare _ _ _
  | .call _ _ | .br _ | .condBr _ _ _ | .switch _ _ _ | .ret _ | .session _ => .isTrue trivial

def Typed (f : Function) : Prop :=
  ∀ b ∈ f.layout, ∀ i ∈ f.body b, ∀ v ∈ i.result.toList, f.WellTyped v i.op

instance : Decidable f.Typed :=
  inferInstanceAs (Decidable (∀ b ∈ f.layout, ∀ i ∈ f.body b, ∀ v ∈ i.result.toList, f.WellTyped v i.op))

-- 44 bytes are allocated, and the extent counts 300
example : Env.operand? ∅ (.const (.int 8 300)) = some (.int 8 44) := by decide

theorem Typed.of_defines (h : f.Typed) (def_ : f.Defines d v op) : f.WellTyped v op :=
  h d def_.1 _ def_.2 v (List.mem_singleton_self v)

theorem Draft.defines {f₀ : Function} {pending : ValueSet} (h : f₀.Draft f pending)
    (def_ : f₀.Defines d v op) : f.Defines d v op :=
  ⟨h.layout ▸ def_.1, (h.mem_body_iff.1 def_.2).1⟩

end Function

open CheckpointRestart.Function

namespace Extent

variable {x y : Extent} {env env' : Env} {m m' : Memory} {p q : Pointer}

theorem mem_sizeValues_iff {c : ValueId} :
    c ∈ x.sizeValues ↔ x.width = .value c ∨ x.count = .value c := by
  have value : ∀ z : Operand, z.value? = some c ↔ z = .value c := by
    intro z
    cases z <;> simp [Operand.value?]
  simp only [sizeValues, List.mem_filterMap, List.mem_cons, List.not_mem_nil, or_false, value]
  constructor
  · rintro ⟨_, rfl | rfl, e⟩
    · exact .inl e
    · exact .inr e
  · rintro (e | e)
    · exact ⟨_, .inl rfl, e⟩
    · exact ⟨_, .inr rfl, e⟩

/-- The allocation that a pointer points into has as many bytes as the extent says. -/
def Measures (x : Extent) (env : Env) (m : Memory) (p : Pointer) : Prop :=
  p.allocation ≠ 0 → ∃ (w c : Int64) (n : Nat), env.integer? x.width = some w ∧
    env.integer? x.count = some c ∧ 0 ≤ w.toInt ∧ 0 ≤ c.toInt ∧
    m.length? p.allocation.toNat = some n ∧ w.toInt * c.toInt = 8 * n

/-- A measure holds of another pointer into the same allocation, and later on, as long as the sizes
have the same values. -/
theorem Measures.transfer (h : x.Measures env m p) (same : q.allocation = p.allocation)
    (later : m.Extends m') (width : env'.integer? y.width = env.integer? x.width)
    (count : env'.integer? y.count = env.integer? x.count) : y.Measures env' m' q := by
  rw [Measures, same, width, count]
  intro nonnull
  obtain ⟨w, c, n, hw, hc, w_pos, c_pos, length, exact_⟩ := h nonnull
  exact ⟨w, c, n, hw, hc, w_pos, c_pos, later _ _ length, exact_⟩

theorem Measures.mono (h : x.Measures env m p) (later : m.Extends m')
    (same : ∀ c ∈ x.sizeValues, env'[c]? = env[c]?) : x.Measures env' m' p :=
  h.transfer rfl later
    (Env.integer?_congr fun c hc => same c (mem_sizeValues_iff.2 (.inl hc)))
    (Env.integer?_congr fun c hc => same c (mem_sizeValues_iff.2 (.inr hc)))

end Extent

/-! ## What holds along a run -/

/-- What is at hand is as it was computed: pointers have the sizes in their extents, allocations
have as many bytes as were asked for, and widened sizes are what they were widened from. -/
structure Faithful (f₀ f : Function) (map : ExtentMap) (b : BlockId) (done : List Instruction)
    (env : Env) (m : Memory) : Prop where
  sizes : ∀ (v : ValueId) (x : Extent), map[v]? = some x → f₀.OwnRoots v → f.AtHand v b done →
    (∀ c ∈ x.sizeValues, f.AtHand c b done) → ∀ a, env[v]? = some a →
    ∃ p, a = .ptr p ∧ x.Measures env m p
  requests : ∀ d v bytes, f₀.Defines d v (.malloc bytes) → f.AtHand v b done → ∀ a,
    env[v]? = some a → ∃ p, a = .ptr p ∧ (p.allocation ≠ 0 → ∃ n : Int64,
      env.integer? bytes = some n ∧ 0 ≤ n.toInt ∧ m.length? p.allocation.toNat = some n.toInt.toNat)
  casts : ∀ d r w, f.Defines d r (.cast (.value w) .i64) → f.AtHand r b done →
    ∃ a, env[r]? = some a ∧ ∀ n, env.integer? (.value w) = some n → a.int? = some n

namespace Prepared

variable {f₀ f : Function} {map : ExtentMap} {b c d : BlockId} {done rest : List Instruction}
  {i : Instruction} {v w r : ValueId} {x : Extent} {op : Op}

theorem eq_of_defines (prep : Prepared f₀ f map) (def_ : f₀.Defines d v op) (hb : b ∈ f.layout)
    (hi : i ∈ f.body b) (hr : i.result = some v) : b = d ∧ i = ⟨some v, op⟩ :=
  (prep.draft.defines def_).unique prep.draft.shaped hb hi hr

variable (prep : Prepared f₀ f map) (shaped₀ : f₀.Shaped)
  (plain : ∀ i ∈ f₀.body f₀.entry, i.op.isPhi = false)

include prep shaped₀ plain

/-- While a pointer is at hand, none of its sizes is defined anew; only a size that is widened
comes right behind its allocation. -/
theorem size_defined (known : map[v]? = some x) (own : f₀.OwnRoots v)
    (place : f.Place b done (i :: rest)) (hand : f.AtHand v b done) (hr : r ∈ x.sizeValues)
    (result : i.result = some r) :
    ∃ d w, f₀.Defines d v (.malloc (.value w)) ∧ i = ⟨some r, .cast (.value w) .i64⟩ ∧
      x.width = .i64 8 ∧ x.count = .value r := by
  have draft := prep.draft
  have settled := prep.sound.settled v x known
  have cover := (settled.sizes r hr).1
  have missing := place.not_atHand draft.shaped result
  have lacks : f.LacksAfter r b done := by
    by_contra there
    exact missing (.inr there)
  have given : r ∉ f.params := fun h => missing (.inl h)
  have added : ¬ Original f₀.values.size i := fun original =>
    missing (hand.covered cover place.body (by simpa using original))
  -- the pointer can only be defined in front of the size in the same block
  have before : v ∈ results done := by
    by_contra fresh
    have not_given := own.not_mem_params shaped₀ settled.pointer
    rcases hand with h | h
    · exact not_given (draft.params ▸ h)
    · exact h ⟨cover.atStart given lacks.1, fresh⟩
  have here : ∀ {d op}, f₀.Defines d v op → d = b ∧ ⟨some v, op⟩ ∈ done := by
    intro d op def_
    have now := draft.defines def_
    obtain ⟨e, mem⟩ := draft.shaped.mem_of_mem_results now.1 now.2 rfl place.mem_layout place.body before
    exact ⟨e.symm, mem⟩
  cases settled.origin with
  | parameter params => exact absurd (by simp [params]) (own.not_mem_params shaped₀ settled.pointer)
  | alloca => simp [Extent.sizeValues, Operand.value?, Operand.i64] at hr
  | @malloc d bytes count def_ wide =>
    obtain rfl : count = .value r := by simpa [Extent.mem_sizeValues_iff, Operand.i64] using hr
    cases wide with
    | same =>
      refine absurd (fun q hq => ?_) added
      rw [result] at hq
      cases hq
      exact (shaped₀.fits d def_.1 _ def_.2).operands r (by simp [Op.mem_usedValues_iff, Op.operands])
    | @cast w _ c cast_ =>
      exact ⟨d, w, def_, (cast_.unique draft.shaped place.mem_layout place.mem_body result).2, rfl, rfl⟩
  | @merge d pairs width count aliases def_ =>
    -- merges come first, and what follows them is original
    obtain ⟨rfl, -⟩ := here def_
    have now := draft.defines def_
    have inner : d ≠ f.entry := by
      rintro rfl
      have phi := draft.entry_isPhi plain now.2
      cases phi
    have split : f.body d = (f.block d).phis ++ (f.block d).afterPhis :=
      List.takeWhile_append_dropWhile.symm
    have fresh : r ∉ results (f.block d).phis := by
      intro hr
      have mem := (draft.shaped.mem_of_mem_results place.mem_layout place.mem_body result
        place.mem_layout split hr).2
      have phi := isPhi_of_mem_takeWhile mem
      rw [place.plain i List.mem_cons_self] at phi
      cases phi
    have merged : v ∈ results (f.block d).phis :=
      mem_results_iff.2 ⟨_, mem_phis_of_isPhi (draft.shaped.phisLead d now.1) now.2 rfl, rfl⟩
    have hand : f.AtHand v d (f.block d).phis := .inr fun lacks => lacks.2 merged
    refine absurd (hand.covered cover split (draft.first d now.1 inner)) ?_
    exact draft.shaped.not_atHand place.reachable (mem_results_iff.2 ⟨i, place.mem_body, result⟩) fresh
  | @derived d op source index width count def_ der =>
    -- the source has the same sizes, and is at hand in front of the pointer
    obtain ⟨rfl, mem⟩ := here def_
    obtain ⟨front, back, rfl⟩ := List.append_of_mem mem
    obtain ⟨y, hy, hw, hc⟩ := prep.sound.derived v _ source known rfl
    have size : r ∈ y.sizeValues := by
      rw [Extent.mem_sizeValues_iff] at hr ⊢
      rwa [hw, hc]
    have body : f.body d = front ++ ⟨some v, op⟩ :: (back ++ i :: rest) := by
      rw [place.body, List.append_assoc, List.cons_append]
    have original : Original f₀.values.size ⟨some v, op⟩ := (draft.mem_body_iff.1 def_.2).2
    have source := draft.strict.atHand body der.isPhi der.source_mem
    have fresh : r ∉ results front := fun hr => lacks.2 (by simp [hr])
    refine absurd (source.covered ((prep.sound.settled _ y hy).sizes r size).1 body
      (by simpa using original)) ?_
    exact draft.shaped.not_atHand place.reachable (mem_results_iff.2 ⟨i, place.mem_body, result⟩) fresh

end Prepared

/-! ## One step -/

theorem Memory.length?_allocate_self {m : Memory} {n : Nat}
    (few : (m.allocate n).2.allocations.size ≤ 2 ^ 32) :
    (m.allocate n).2.length? (m.allocate n).1.allocation.toNat = some n := by
  rw [allocation_allocate few, length?_allocate, if_pos rfl]

/-- Variables have less than `2 ^ 60` bytes, and so do their elements; the number of elements is one
that an integer can be. The number of bytes would wrap around. To bound it is not enough: there can
be no elements of a great size, or a great number of elements without bytes, and in the extent
such a number is negative. -/
def Op.Modest : Op → Prop
  | .alloca t n => t.storeSize < 2 ^ 60 ∧ n.toNat < 2 ^ 63 ∧ t.storeSize * n.toNat < 2 ^ 60
  | _ => True

namespace Extent

theorem measures_alloca {m : Memory} {env : Env} {t : Ty} {n : UInt64} {aliases : ValueSet}
    (modest : (Op.alloca t n).Modest)
    (few : (m.allocate (UInt64.ofNat t.storeSize * n).toNat).2.allocations.size ≤ 2 ^ 32) :
    Extent.Measures ⟨.allocation, .i64 (.ofNat t.storeBits), .i64 n.toInt64, aliases, none⟩ env
      (m.allocate (UInt64.ofNat t.storeSize * n).toNat).2
      (m.allocate (UInt64.ofNat t.storeSize * n).toNat).1 := by
  obtain ⟨element, count, small⟩ := modest
  have width_eq : (Int64.ofNat t.storeBits).toInt = t.storeSize * 8 := by
    rw [Int64.toInt_ofNat_of_lt (by simp only [Ty.storeBits]; omega), Ty.storeBits]
    simp
  have count_eq : n.toInt64.toInt = n.toNat := by
    have : n.toInt64 = Int64.ofNat n.toNat := by
      simp [Int64.ofNat, UInt64.toInt64]
    rw [this, Int64.toInt_ofNat_of_lt (by omega)]
  have bytes : (UInt64.ofNat t.storeSize * n).toNat = t.storeSize * n.toNat := by
    rw [UInt64.toNat_mul, UInt64.toNat_ofNat', Nat.mod_eq_of_lt (by omega : t.storeSize < 2 ^ 64),
      Nat.mod_eq_of_lt (by omega)]
  refine fun _ => ⟨_, _, _, Env.integer?_i64, Env.integer?_i64, ?_, ?_,
    Memory.length?_allocate_self few, ?_⟩
  · rw [width_eq]
    positivity
  · rw [count_eq]
    positivity
  · rw [width_eq, count_eq, bytes]
    push_cast
    ring

example : (UInt64.ofNat (Ty.int 64).storeSize * 2 ^ 61).toNat = 0 := by decide +kernel

example : (Int64.ofNat (Ty.int (2 ^ 63)).storeBits).toInt < 0 ∧ (2 ^ 63 : UInt64).toInt64.toInt < 0 := by
  decide +kernel

theorem measures_bytes {x : Extent} {env : Env} {m : Memory} {p : Pointer} (width : x.width = .i64 8)
    (request : p.allocation ≠ 0 → ∃ n : Int64, env.integer? x.count = some n ∧ 0 ≤ n.toInt ∧
      m.length? p.allocation.toNat = some n.toInt.toNat) : x.Measures env m p := by
  intro nonnull
  obtain ⟨n, hn, pos, length⟩ := request nonnull
  refine ⟨8, n, _, width ▸ Env.integer?_i64, hn, by decide, pos, length, ?_⟩
  rw [Int.toNat_of_nonneg pos]
  rfl

end Extent

namespace Faithful

variable {f₀ f : Function} {map : ExtentMap} {b c d : BlockId} {done rest : List Instruction}
  {i : Instruction} {v w r : ValueId} {x : Extent} {op : Op}

variable {σ : Type} [Storage σ] {s t : State σ} {haltAfter : Option Nat} {result : Option Value}

section Next

variable (prep : Prepared f₀ f map) (h : Faithful f₀ f map b done s.env s.memory)
  (place : f.Place b done (i :: rest)) (run : execOp f haltAfter i s = .ok (.next result) t)

include prep place

theorem result_ne (def_ : f.Defines d v op) (phi : op.isPhi = false) (use : w ∈ op.usedValues)
    (hand : f.AtHand v b done) : i.result ≠ some w := fun hr =>
  place.not_atHand prep.draft.shaped hr
    (hand.operand prep.draft.strict prep.draft.shaped def_ phi use place.body)

theorem result_ne_of_use (use : w ∈ i.op.usedValues) : i.result ≠ some w := fun hr =>
  place.not_atHand prep.draft.shaped hr
    (prep.draft.strict.atHand place.body (place.plain i List.mem_cons_self) use)

include h run

theorem requests_next (few : t.memory.allocations.size ≤ 2 ^ 32) :
    ∀ d v bytes, f₀.Defines d v (.malloc bytes) → f.AtHand v b (done ++ [i]) → ∀ a,
      ((Flow.next result).define i.result s.env)[v]? = some a → ∃ p, a = .ptr p ∧
        (p.allocation ≠ 0 → ∃ n : Int64,
          ((Flow.next result).define i.result s.env).integer? bytes = some n ∧ 0 ≤ n.toInt ∧
            t.memory.length? p.allocation.toNat = some n.toInt.toNat) := by
  intro d v bytes def_ hand a ha
  have later := Exec.extends_execOp haltAfter s _ t run
  by_cases hr : i.result = some v
  · obtain ⟨rfl, rfl⟩ := prep.eq_of_defines def_ place.mem_layout place.mem_body hr
    obtain ⟨n, hn, pos, e, hm⟩ := Exec.execOp_malloc rfl run
    cases e
    rw [Flow.define_self] at ha
    cases ha
    refine ⟨_, rfl, fun _ => ⟨n, ?_, Int64.le_iff_toInt_le.mp pos, ?_⟩⟩
    · refine (Env.integer?_congr fun w hw => Flow.define_of_ne ?_ _).trans hn
      exact result_ne_of_use prep place (by simp [hw, Op.mem_usedValues_iff, Op.operands])
    · rw [hm] at few ⊢
      rw [Memory.length?_allocate_self few, Int64.toNat_toUInt64_of_le pos]
      rfl
  · rw [Flow.define_of_ne hr] at ha
    obtain ⟨p, rfl, length⟩ := h.requests d v bytes def_ (hand.of_snoc hr) a ha
    refine ⟨p, rfl, fun nonnull => ?_⟩
    obtain ⟨n, hn, pos, hm⟩ := length nonnull
    refine ⟨n, ?_, pos, later _ _ hm⟩
    refine (Env.integer?_congr fun w hw => Flow.define_of_ne ?_ _).trans hn
    exact result_ne prep place (prep.draft.defines def_) rfl
      (by simp [hw, Op.mem_usedValues_iff, Op.operands]) (hand.of_snoc hr)

theorem casts_next :
    ∀ d r w, f.Defines d r (.cast (.value w) .i64) → f.AtHand r b (done ++ [i]) →
      ∃ a, ((Flow.next result).define i.result s.env)[r]? = some a ∧ ∀ n,
        ((Flow.next result).define i.result s.env).integer? (.value w) = some n → a.int? = some n := by
  intro d r w def_ hand
  by_cases hr : i.result = some r
  · obtain ⟨rfl, rfl⟩ := def_.unique prep.draft.shaped place.mem_layout place.mem_body hr
    obtain ⟨a, b, found, cast, e, -⟩ := Exec.execOp_cast rfl run
    cases e
    refine ⟨b, Flow.define_self, fun n hn => ?_⟩
    have same : ((Flow.next (some b)).define (some r) s.env).integer? (.value w) =
        s.env.integer? (.value w) :=
      Env.integer?_congr fun v hv => Flow.define_of_ne
        (result_ne_of_use prep place (by simp [hv, Op.mem_usedValues_iff, Op.operands])) _
    rw [same, Env.integer?, found, Option.bind_some] at hn
    cases a with
    | int bits k =>
      cases hn
      cases cast
      exact congrArg some (Word.signExtend_64 _)
    | _ => cases hn
  · obtain ⟨a, ha, widened⟩ := h.casts d r w def_ (hand.of_snoc hr)
    refine ⟨a, (Flow.define_of_ne hr _).trans ha, fun n hn => widened n ?_⟩
    refine (Env.integer?_congr fun v hv => (Flow.define_of_ne ?_ _).symm).trans hn
    exact result_ne prep place def_ rfl (by simp [hv, Op.mem_usedValues_iff, Op.operands])
      (hand.of_snoc hr)

/-- Where a pointer is defined, it has the sizes in its extent. -/
theorem sizes_defined (shaped₀ : f₀.Shaped) (typed : f₀.Typed)
    (few : t.memory.allocations.size ≤ 2 ^ 32)
    (modest : i.op.Modest)
    (known : map[v]? = some x) (own : f₀.OwnRoots v) (hr : i.result = some v)
    (sizes : ∀ c ∈ x.sizeValues, f.AtHand c b (done ++ [i])) {a : Value}
    (ha : ((Flow.next result).define i.result s.env)[v]? = some a) :
    ∃ p, a = .ptr p ∧ x.Measures ((Flow.next result).define i.result s.env) t.memory p := by
  have draft := prep.draft
  have later := Exec.extends_execOp haltAfter s _ t run
  have settled := prep.sound.settled v x known
  have other : ∀ c ∈ x.sizeValues, i.result ≠ some c := by
    intro c hc e
    have pointer := settled.pointer
    rw [hr] at e
    cases e
    rw [← draft.types v (index_lt_of_isPointer pointer), (settled.sizes v hc).2] at pointer
    cases pointer
  have before : ∀ c ∈ x.sizeValues, f.AtHand c b done := fun c hc => (sizes c hc).of_snoc (other c hc)
  have same : ∀ c ∈ x.sizeValues, ((Flow.next result).define i.result s.env)[c]? = s.env[c]? :=
    fun c hc => Flow.define_of_ne (other c hc) _
  cases settled.origin with
  | parameter params => exact absurd (by simp [params]) (own.not_mem_params shaped₀ settled.pointer)
  | @alloca d t n def_ =>
    obtain ⟨rfl, rfl⟩ := prep.eq_of_defines def_ place.mem_layout place.mem_body hr
    obtain ⟨e, hm⟩ := Exec.execOp_alloca rfl run
    cases e
    rw [Flow.define_self] at ha
    cases ha
    rw [hm] at few ⊢
    exact ⟨_, rfl, Extent.measures_alloca modest few⟩
  | @malloc d bytes count def_ wide =>
    obtain ⟨p, rfl, request⟩ := h.requests_next prep place run few d v bytes def_
      (.inr fun lacks => lacks.2 (by simp [hr])) a ha
    refine ⟨p, rfl, Extent.measures_bytes rfl fun nonnull => ?_⟩
    obtain ⟨n, hn, rest⟩ := request nonnull
    refine ⟨n, ?_, rest⟩
    cases wide with
    | @const bits value =>
      cases hn
      have exact_ : Word.signExtend value bits = value := typed.of_defines def_
      rw [exact_]
      exact Env.integer?_i64
    | same => exact hn
    | @cast w r c cast_ =>
      have size : r ∈ Extent.sizeValues ⟨.allocation, .i64 8, .value r, {v}, none⟩ :=
        Extent.mem_sizeValues_iff.2 (.inr rfl)
      obtain ⟨a, ha, widened⟩ := h.casts_next prep place run c r w cast_ (sizes r size)
      exact (congrArg (Option.bind · Value.int?) ha).trans (widened n hn)
  | merge def_ =>
    obtain ⟨rfl, rfl⟩ := prep.eq_of_defines def_ place.mem_layout place.mem_body hr
    have phi := place.plain _ List.mem_cons_self
    cases phi
  | @derived d op source index width count def_ der =>
    obtain ⟨rfl, rfl⟩ := prep.eq_of_defines def_ place.mem_layout place.mem_body hr
    obtain ⟨y, hy, hw, hc⟩ := prep.sound.derived v _ source known rfl
    obtain ⟨ownSource, kind⟩ := own.source shaped₀ settled.pointer def_ der
    have hand := draft.strict.atHand place.body der.isPhi der.source_mem
    have measured := h.sizes source y hy ownSource hand fun c hc' => by
      refine before c ?_
      rw [Extent.mem_sizeValues_iff] at hc' ⊢
      rwa [hw, hc] at hc'
    -- the pointer goes into the allocation of its source
    have into : ∀ p q : Pointer, s.env[source]? = some (.ptr p) → q.allocation = p.allocation →
        Extent.Measures ⟨.derived source, width, count, {source}, index⟩
          ((Flow.next result).define (some v) s.env) t.memory q := by
      intro p q found alloc
      obtain ⟨_, e, measures⟩ := measured _ found
      cases e
      refine measures.transfer alloc later ?_ ?_
      · rw [hw]
        exact Env.integer?_congr fun c hc' => same c (Extent.mem_sizeValues_iff.2 (.inl hc'))
      · rw [hc]
        exact Env.integer?_congr fun c hc' => same c (Extent.mem_sizeValues_iff.2 (.inr hc'))
    rcases kind with ⟨z, rfl⟩ | ⟨target, rfl⟩
    · obtain ⟨p, n, found, e, -⟩ := Exec.execOp_gep rfl run
      cases e
      rw [Flow.define_self] at ha
      cases ha
      exact ⟨_, rfl, into p _ found rfl⟩
    · obtain ⟨a₀, a₁, found, cast, e, -⟩ := Exec.execOp_cast rfl run
      cases e
      rw [Flow.define_self] at ha
      cases ha
      obtain ⟨p, rfl, -⟩ := measured _ found
      have pointer : target.isPointer = true := typed.of_defines def_ settled.pointer
      cases target with
      | ptr t =>
        cases cast
        exact ⟨p, rfl, into p p found rfl⟩
      | _ => cases pointer

theorem sizes_kept (shaped₀ : f₀.Shaped) (plain : ∀ i ∈ f₀.body f₀.entry, i.op.isPhi = false)
    (few : t.memory.allocations.size ≤ 2 ^ 32)
    (known : map[v]? = some x) (own : f₀.OwnRoots v) (hr : i.result ≠ some v)
    (hand : f.AtHand v b (done ++ [i])) (sizes : ∀ c ∈ x.sizeValues, f.AtHand c b (done ++ [i]))
    {a : Value} (ha : ((Flow.next result).define i.result s.env)[v]? = some a) :
    ∃ p, a = .ptr p ∧ x.Measures ((Flow.next result).define i.result s.env) t.memory p := by
  have later := Exec.extends_execOp haltAfter s _ t run
  by_cases anew : ∃ r ∈ x.sizeValues, i.result = some r
  · obtain ⟨r, size, result_⟩ := anew
    obtain ⟨d, w, def_, rfl, width, count⟩ :=
      prep.size_defined shaped₀ plain known own place (hand.of_snoc hr) size result_
    obtain ⟨p, rfl, request⟩ := h.requests_next prep place run few d v _ def_ hand a ha
    refine ⟨p, rfl, Extent.measures_bytes width fun nonnull => ?_⟩
    obtain ⟨n, hn, rest⟩ := request nonnull
    refine ⟨n, ?_, rest⟩
    obtain ⟨a, ha, widened⟩ := h.casts_next prep place run b r w
      ⟨place.mem_layout, place.mem_body⟩ (sizes r size)
    rw [count]
    exact (congrArg (Option.bind · Value.int?) ha).trans (widened n hn)
  · have other : ∀ c ∈ x.sizeValues, i.result ≠ some c := fun c hc e => anew ⟨c, hc, e⟩
    rw [Flow.define_of_ne hr] at ha
    obtain ⟨p, rfl, measures⟩ := h.sizes v x known own (hand.of_snoc hr)
      (fun c hc => (sizes c hc).of_snoc (other c hc)) a ha
    exact ⟨p, rfl, measures.mono later fun c hc => Flow.define_of_ne (other c hc) _⟩

theorem next (shaped₀ : f₀.Shaped) (typed : f₀.Typed)
    (plain : ∀ i ∈ f₀.body f₀.entry, i.op.isPhi = false) (few : t.memory.allocations.size ≤ 2 ^ 32)
    (modest : i.op.Modest) :
    Faithful f₀ f map b (done ++ [i]) ((Flow.next result).define i.result s.env) t.memory where
  sizes v x known own hand sizes a ha := by
    by_cases hr : i.result = some v
    · exact h.sizes_defined prep place run shaped₀ typed few modest known own hr sizes ha
    · exact h.sizes_kept prep place run shaped₀ plain few known own hr hand sizes ha
  requests := h.requests_next prep place run few
  casts := h.casts_next prep place run

end Next

end Faithful

/-! ## Entering a block -/

namespace Function

variable {f : Function} {b c d : BlockId} {phis done : List Instruction} {i : Instruction}
  {v w : ValueId} {op : Op}

theorem AtHand.at_start (h : f.AtHand v b phis) (fresh : v ∉ results phis) : f.AtHand v b [] :=
  h.imp_right fun hand lacks => hand ⟨lacks.1, fresh⟩

theorem AtHand.not_mem_phis (h : f.AtHand w b []) (shaped : f.Shaped) (reach : f.Reachable b) :
    w ∉ results (f.block b).phis := fun hw =>
  shaped.not_atHand reach (((List.takeWhile_sublist _).filterMap _).subset hw) (by simp) h

theorem Defines.not_mem_phis (def_ : f.Defines d v op) (shaped : f.Shaped) (hb : b ∈ f.layout)
    (phi : op.isPhi = false) : v ∉ results (f.block b).phis := by
  intro hv
  obtain ⟨j, hj, hr⟩ := mem_results_iff.1 hv
  obtain ⟨-, rfl⟩ := def_.unique shaped hb ((List.takeWhile_sublist _).subset hj) hr
  rw [show op.isPhi = true from isPhi_of_mem_takeWhile hj] at phi
  cases phi

theorem Defines.result_ne (def_ : f.Defines d v op) (shaped : f.Shaped) (hc : c ∈ f.layout)
    (hi : i ∈ f.body c) (last : i.op.isTerminator = true) (inner : op.isTerminator = false) :
    i.result ≠ some v := by
  intro hr
  obtain ⟨-, rfl⟩ := def_.unique shaped hc hi hr
  rw [inner] at last
  cases last

end Function

theorem Extent.Settled.exists_defines {f₀ f : Function} {v : ValueId} {x : Extent}
    (h : x.Settled f₀ f v) (given : v ∉ f₀.params) :
    ∃ d op, f₀.Defines d v op ∧ op.isTerminator = false := by
  cases h.origin with
  | parameter params => exact absurd (by simp [params]) given
  | alloca def_ => exact ⟨_, _, def_, rfl⟩
  | malloc def_ => exact ⟨_, _, def_, rfl⟩
  | merge def_ => exact ⟨_, _, def_, rfl⟩
  | derived def_ der => exact ⟨_, _, def_, by cases der <;> rfl⟩

namespace Prepared

variable {f₀ f : Function} {map : ExtentMap} {b c : BlockId} {done : List Instruction}
  {i : Instruction} {v : ValueId} {x : Extent} {env : Env} {pairs : List (Operand × BlockId)}

theorem size_not_mem_phis (prep : Prepared f₀ f map) (reach : f.Reachable b) (inner : b ≠ f.entry)
    (def_ : f₀.Defines b v (.phi pairs)) {size : Extent → Operand}
    (hsize : ∀ x w, size x = .value w → w ∈ x.sizeValues) {q : ValueId}
    (same : ∀ x p, (x, p) ∈ pairs → map.sizeOf size x = .value q) :
    q ∉ results (f.block b).phis := by
  have draft := prep.draft
  have now := draft.defines def_
  intro hq
  have missing : ¬ f.AtHand q b [] := draft.shaped.not_atHand reach
    (((List.takeWhile_sublist _).filterMap _).subset hq) (by simp)
  have given : q ∉ f.params := fun h => missing (.inl h)
  have lacks : f.Lacks q b := by
    by_contra there
    exact missing (.inr fun h => there h.1)
  -- the first time control comes to the block, something comes in that lacks the size
  cases lacks with
  | entry => exact inner rfl
  | @step p _ way undefined edge =>
    have pred : p ∈ f.predecessors b := mem_predecessors_iff.2 ⟨way.mem_layout draft.shaped, edge⟩
    obtain ⟨⟨z, p'⟩, mem, rfl⟩ :=
      List.mem_map.mp ((prep.wellFormed.merges b now.1 _ now.2 pairs rfl).mem_iff.mpr pred)
    have into : (.value q, p') ∈ map.sizesIn size pairs :=
      List.mem_map.mpr ⟨_, mem, congrArg (·, p') (same z p' mem)⟩
    obtain ⟨u, y, hu, hy, hs⟩ := ExtentMap.mem_sizesIn into
    obtain ⟨cover, -⟩ := (prep.sound.settled u y hy).sizes q (hsize y q hs)
    obtain ⟨not_given, lacks, fresh⟩ := cover.atEnd way undefined given
    exact not_given (draft.strict.incoming b now.1 u p' ⟨_, now.2, pairs, rfl, hu⟩ lacks fresh)

/-- A size of a merged pointer is, after the merge, what the size of the pointer that came in was
before. -/
theorem operand?_mergedSize (prep : Prepared f₀ f map) (reach : f.Reachable b) (inner : b ≠ f.entry)
    (def_ : f₀.Defines b v (.phi pairs))
    (ready : ∀ j ∈ (f.block b).phis, ∃ a, env.incoming? c j = some a) {size : Extent → Operand}
    (hsize : ∀ x w, size x = .value w → w ∈ x.sizeValues) {z u : Operand}
    (merged : map.MergedSize f b pairs size z) (found : pairs.find? (·.2 == c) = some (u, c)) :
    (env.merge c (f.block b).phis).operand? z = env.operand? (map.sizeOf size u) := by
  have draft := prep.draft
  rcases merged with ⟨r, rfl, now⟩ | same
  · have nodup : (results (f.block b).phis).Nodup :=
      ((List.nodup_flatMap.mp draft.shaped.once).1 b now.1).sublist
        ((List.takeWhile_sublist _).filterMap _)
    have mem := mem_phis_of_isPhi (draft.shaped.phisLead b now.1) now.2 rfl
    refine (Env.merge_of_mem ready nodup mem rfl).trans ?_
    have taken : (map.sizesIn size pairs).find? (·.2 == c) = some (map.sizeOf size u, c) := by
      rw [ExtentMap.sizesIn, List.find?_map]
      exact congrArg (Option.map _) found
    simp only [Env.incoming?, Instruction.incoming?, taken, Option.map_some, Option.bind_some]
  · rw [same u c (List.mem_of_find?_eq_some found)]
    cases z with
    | const k => rfl
    | value q => exact Env.merge_of_not_mem ready (prep.size_not_mem_phis reach inner def_ hsize same)

end Prepared

namespace Faithful

variable {f₀ f : Function} {map : ExtentMap} {b c : BlockId} {done : List Instruction}
  {i : Instruction} {v : ValueId} {x : Extent} {env : Env} {m m' : Memory}

section Jump

variable (prep : Prepared f₀ f map) (h : Faithful f₀ f map c done env m) (place : f.Place c done [i])
  (last : i.op.isTerminator = true) (edge : b ∈ f.successors c)
  (ready : ∀ j ∈ (f.block b).phis, ∃ a, env.incoming? c j = some a) (later : m.Extends m')

include prep place edge

theorem reachable_next : f.Reachable b :=
  .step place.reachable edge (prep.draft.shaped.successor_mem place.mem_layout edge)

theorem kept_jump (last : i.op.isTerminator = true) {d : BlockId} {op : Op}
    (ready : ∀ j ∈ (f.block b).phis, ∃ a, env.incoming? c j = some a)
    (def_ : f.Defines d v op) (phi : op.isPhi = false) (inner : op.isTerminator = false)
    (hand : f.AtHand v b (f.block b).phis) :
    f.AtHand v c done ∧ (env.merge c (f.block b).phis)[v]? = env[v]? ∧
      ∀ w ∈ op.usedValues, (env.merge c (f.block b).phis)[w]? = env[w]? := by
  have shaped := prep.draft.shaped
  have reach := reachable_next prep place edge
  have fresh := def_.not_mem_phis shaped reach.inside_end phi
  refine ⟨hand.of_jump fresh place.body edge
    (def_.result_ne shaped place.mem_layout place.mem_body last inner),
    Env.merge_of_not_mem ready fresh, fun w hw => Env.merge_of_not_mem ready ?_⟩
  have split : f.body b = [] ++ f.body b := rfl
  exact ((hand.at_start fresh).operand prep.draft.strict shaped def_ phi hw split).not_mem_phis
    shaped reach

include h last ready later

theorem sizes_merged (shaped₀ : f₀.Shaped) (typed : f₀.Typed) (known : map[v]? = some x)
    (own : f₀.OwnRoots v) (merged : v ∈ results (f.block b).phis) {a : Value}
    (ha : (env.merge c (f.block b).phis)[v]? = some a) :
    ∃ p, a = .ptr p ∧ x.Measures (env.merge c (f.block b).phis) m' p := by
  have draft := prep.draft
  have reach := reachable_next prep place edge
  have hb := reach.inside_end
  have settled := prep.sound.settled v x known
  -- the merge is one of the function as it was
  obtain ⟨j, hj, hr⟩ := mem_results_iff.1 merged
  obtain ⟨result, op⟩ := j
  obtain ⟨pairs, rfl⟩ := Op.isPhi_iff.1 (isPhi_of_mem_takeWhile hj)
  obtain rfl : result = some v := hr
  have mem : ⟨some v, .phi pairs⟩ ∈ f.body b := (List.takeWhile_sublist _).subset hj
  have def_ : f₀.Defines b v (.phi pairs) := by
    refine ⟨draft.layout ▸ hb, draft.mem_body_iff.2 ⟨mem, fun r e => ?_⟩⟩
    cases e
    exact index_lt_of_isPointer settled.pointer
  have inner : b ≠ f.entry := by
    rintro rfl
    have pred := mem_predecessors_iff.2 ⟨place.mem_layout, edge⟩
    rw [draft.shaped.entry_free] at pred
    cases pred
  obtain ⟨b', incoming, def', all, width, count⟩ :=
    (prep.merged v x known (settled.provenance_of_phi shaped₀ def_)).merge
  obtain ⟨rfl, e⟩ := def'.unique shaped₀ def_.1 def_.2 rfl
  obtain rfl : pairs = incoming := by simpa using e
  -- what came in
  have pred : c ∈ f.predecessors b := mem_predecessors_iff.2 ⟨place.mem_layout, edge⟩
  obtain ⟨u, taken, into⟩ := prep.wellFormed.exists_incoming hb mem rfl pred
  obtain ⟨⟨u', c'⟩, found, e⟩ := Option.map_eq_some_iff.mp taken
  have same : c' = c := by simpa using List.find?_some found
  obtain rfl := same.symm
  obtain rfl : u = u' := e.symm
  have nodup : (results (f.block b).phis).Nodup :=
    ((List.nodup_flatMap.mp draft.shaped.once).1 b hb).sublist
      ((List.takeWhile_sublist _).filterMap _)
  rw [Env.merge_of_mem ready nodup hj rfl, Env.incoming?, taken, Option.bind_some] at ha
  have sizes : ∀ {size : Extent → Operand} {z : Operand},
      (∀ x w, size x = .value w → w ∈ x.sizeValues) → map.MergedSize f b pairs size z →
      (env.merge c (f.block b).phis).integer? z = env.integer? (map.sizeOf size u) :=
    fun hsize merged => congrArg (Option.bind · Value.int?)
      (prep.operand?_mergedSize reach inner def_ ready hsize merged found)
  have width := sizes (fun x w hw => Extent.mem_sizeValues_iff.2 (.inl hw)) width
  have count := sizes (fun x w hw => Extent.mem_sizeValues_iff.2 (.inr hw)) count
  cases u with
  | const k =>
    -- only the null pointer is a constant
    have pointer := settled.pointer
    have type := typed.of_defines def_ _ into
    rw [← type] at pointer
    cases k with
    | null t =>
      cases ha
      exact ⟨.null, rfl, fun nonnull => absurd rfl nonnull⟩
    | _ => cases pointer
  | value u =>
    obtain ⟨y, hy⟩ := Option.isSome_iff_exists.mp
      (Std.ExtTreeMap.mem_iff_isSome_getElem?.mp (all u c into))
    have ownIn := own.incoming shaped₀ settled.pointer def_ into
    have settledIn := prep.sound.settled u y hy
    obtain ⟨d, op, defIn, plainIn⟩ :=
      settledIn.exists_defines (ownIn.not_mem_params shaped₀ settledIn.pointer)
    have hand : f.AtHand u c done := draft.strict.atHand_incoming hb ⟨_, mem, pairs, rfl, into⟩
      place.body ((draft.defines defIn).result_ne draft.shaped place.mem_layout place.mem_body last plainIn)
    have original := draft.original_of_isTerminator place.mem_body last
    obtain ⟨p, rfl, measures⟩ := h.sizes u y hy ownIn hand
      (fun r hr => hand.covered (settledIn.sizes r hr).1 place.body (by simpa using original)) a ha
    refine ⟨p, rfl, measures.transfer rfl later ?_ ?_⟩
    · simpa [ExtentMap.sizeOf, hy] using width
    · simpa [ExtentMap.sizeOf, hy] using count

theorem sizes_passed (shaped₀ : f₀.Shaped) (known : map[v]? = some x) (own : f₀.OwnRoots v)
    (fresh : v ∉ results (f.block b).phis) (hand : f.AtHand v b (f.block b).phis) {a : Value}
    (ha : (env.merge c (f.block b).phis)[v]? = some a) :
    ∃ p, a = .ptr p ∧ x.Measures (env.merge c (f.block b).phis) m' p := by
  have draft := prep.draft
  have reach := reachable_next prep place edge
  have settled := prep.sound.settled v x known
  have given := own.not_mem_params shaped₀ settled.pointer
  obtain ⟨d, op, def_, inner⟩ := settled.exists_defines given
  have before : f.AtHand v c done := hand.of_jump fresh place.body edge
    ((draft.defines def_).result_ne draft.shaped place.mem_layout place.mem_body last inner)
  have original := draft.original_of_isTerminator place.mem_body last
  have same : ∀ r ∈ x.sizeValues, (env.merge c (f.block b).phis)[r]? = env[r]? := by
    intro r hr
    refine Env.merge_of_not_mem ready (AtHand.not_mem_phis ?_ draft.shaped reach)
    by_cases param : r ∈ f.params
    · exact .inl param
    · refine .inr fun lacks => ?_
      have lacks := (settled.sizes r hr).1.atStart param lacks.1
      exact (hand.at_start fresh).elim (fun h => given (draft.params ▸ h)) fun there =>
        there ⟨lacks, by simp⟩
  rw [Env.merge_of_not_mem ready fresh] at ha
  obtain ⟨p, rfl, measures⟩ := h.sizes v x known own before
    (fun r hr => before.covered (settled.sizes r hr).1 place.body (by simpa using original)) a ha
  exact ⟨p, rfl, measures.mono later same⟩

theorem jump (shaped₀ : f₀.Shaped) (typed : f₀.Typed) :
    Faithful f₀ f map b (f.block b).phis (env.merge c (f.block b).phis) m' where
  sizes v x known own hand _ a ha := by
    by_cases merged : v ∈ results (f.block b).phis
    · exact h.sizes_merged prep place last edge ready later shaped₀ typed known own merged ha
    · exact h.sizes_passed prep place last edge ready later shaped₀ known own merged hand ha
  requests d v bytes def_ hand a ha := by
    obtain ⟨before, same, operands⟩ :=
      kept_jump prep place edge last ready (prep.draft.defines def_) rfl rfl hand
    rw [same] at ha
    obtain ⟨p, rfl, request⟩ := h.requests d v bytes def_ before a ha
    refine ⟨p, rfl, fun nonnull => ?_⟩
    obtain ⟨n, hn, pos, length⟩ := request nonnull
    refine ⟨n, ?_, pos, later _ _ length⟩
    refine (Env.integer?_congr fun w hw => operands w ?_).trans hn
    simp [hw, Op.mem_usedValues_iff, Op.operands]
  casts d r w def_ hand := by
    obtain ⟨before, same, operands⟩ := kept_jump prep place edge last ready def_ rfl rfl hand
    obtain ⟨a, ha, widened⟩ := h.casts d r w def_ before
    refine ⟨a, same.trans ha, fun n hn => widened n ?_⟩
    refine (Env.integer?_congr fun v hv => (operands v ?_).symm).trans hn
    simp [hv, Op.mem_usedValues_iff, Op.operands]

end Jump

end Faithful

/-! ## Whole runs -/

namespace Prepared

variable {f₀ f : Function} {map : ExtentMap} {σ : Type} {s t : State σ} {c c' : Control}
  {config : RunConfig} {args : List String}

variable (prep : Prepared f₀ f map) (shaped₀ : f₀.Shaped) (typed : f₀.Typed)
  (plain : ∀ i ∈ f₀.body f₀.entry, i.op.isPhi = false)

include prep shaped₀

theorem faithful_entry {env : Env} {m : Memory} : Faithful f₀ f map f.entry [] env m := by
  have draft := prep.draft
  have given : ∀ {v}, f.AtHand v f.entry [] → v ∈ f.params := fun hand =>
    hand.resolve_right fun there => there ⟨.entry, by simp⟩
  have not_given : ∀ {d v op}, f.Defines d v op → ¬ f.AtHand v f.entry [] := fun def_ hand =>
    draft.shaped.params _ def_.mem_defined (given hand)
  refine ⟨?_, ?_, ?_⟩
  · intro v x known own hand
    exact absurd (draft.params ▸ given hand)
      (own.not_mem_params shaped₀ (prep.sound.settled v x known).pointer)
  · intro d v bytes def_ hand
    exact absurd hand (not_given (draft.defines def_))
  · intro d r w def_ hand
    exact absurd hand (not_given def_)

include plain

theorem faithful_beginMain (run : beginMain f args s = .running c t) :
    ∃ done, f.Place c.block done c.todo ∧ Faithful f₀ f map c.block done t.env t.memory := by
  have draft := prep.draft
  have plain : ∀ i ∈ f.body f.entry, i.op.isPhi = false := fun i hi => draft.entry_isPhi plain hi
  have none : (f.block f.entry).phis = [] := takeWhile_of_plain plain
  have rest : (f.block f.entry).afterPhis = f.body f.entry := by
    have split : (f.block f.entry).phis ++ (f.block f.entry).afterPhis = f.body f.entry :=
      List.takeWhile_append_dropWhile
    rwa [none] at split
  unfold beginMain at run
  cases h : mainArguments f args s.memory with
  | error fault =>
    rw [h] at run
    cases run
  | ok given =>
    obtain ⟨values, memory⟩ := given
    rw [h] at run
    simp only [beginRun] at run
    split at run
    · cases run
    · rw [Exec.enter_none_run, none] at run
      cases run
      exact ⟨[], ⟨.refl draft.shaped.entry_mem, rest.symm, rest ▸ plain⟩, prep.faithful_entry shaped₀⟩

include typed

/-- What holds of a run before a step holds after it. -/
theorem faithful_advance [Storage σ] {done : List Instruction} (place : f.Place c.block done c.todo)
    (h : Faithful f₀ f map c.block done s.env s.memory) (run : Advanced f config c s c' t)
    (few : t.memory.allocations.size ≤ 2 ^ 32)
    (modest : ∀ i ∈ c.todo.head?, i.op.Modest) :
    ∃ done, f.Place c'.block done c'.todo ∧ Faithful f₀ f map c'.block done t.env t.memory := by
  obtain ⟨b, todo⟩ := c
  cases run with
  | @next i rest result t todo_eq exec =>
    obtain rfl : todo = i :: rest := todo_eq
    have after := h.next prep place exec shaped₀ typed plain few (modest i rfl)
    refine ⟨done ++ [i], ⟨place.reachable, ?_, fun j hj => place.plain j (List.mem_cons_of_mem _ hj)⟩, after⟩
    rw [List.append_assoc]
    exact place.body
  | @jump i rest d t todo_eq exec ready =>
    obtain rfl : todo = i :: rest := todo_eq
    have shaped := prep.draft.shaped
    have fits := (Exec.execOp_env exec).2
    obtain rfl := shaped.rest_eq_nil place.mem_layout place.body fits.1
    have edge : d ∈ f.successors b := mem_successors_of_target place.body fits.2
    have reach := Faithful.reachable_next prep place edge
    have later := Exec.extends_execOp config.haltAfter s _ t exec
    have after := h.jump prep place fits.1 edge ready later shaped₀ typed
    exact ⟨(f.block d).phis, ⟨reach, List.takeWhile_append_dropWhile.symm,
      shaped.phisLead d reach.inside_end⟩, after⟩

end Prepared

namespace Progress

variable {σ : Type} [Storage σ]

/-- The first `n` steps execute modest operations only. -/
def Modest (f : Function) (config : RunConfig) (n : Nat) (start : Progress σ) : Prop :=
  ∀ k < n, ∀ c s, (advance f config)^[k] start = .running c s → ∀ i ∈ c.todo.head?, i.op.Modest

end Progress

theorem Prepared.faithful_run {f₀ f : Function} {map : ExtentMap} (prep : Prepared f₀ f map)
    (shaped₀ : f₀.Shaped) (typed : f₀.Typed) (plain : ∀ i ∈ f₀.body f₀.entry, i.op.isPhi = false)
    {σ : Type} [Storage σ] {s t : State σ} {c : Control} {config : RunConfig} {args : List String}
    {n : Nat} (run : (Progress.advance f config)^[n] (beginMain f args s) = .running c t)
    (few : t.memory.allocations.size ≤ 2 ^ 32) (modest : (beginMain f args s).Modest f config n) :
    ∃ done, f.Place c.block done c.todo ∧ Faithful f₀ f map c.block done t.env t.memory := by
  induction n generalizing c t with
  | zero => exact prep.faithful_beginMain shaped₀ plain run
  | succ n ih =>
    obtain ⟨c₀, u, before, step⟩ := exists_advanced run
    have grown : u.memory.allocations.size ≤ t.memory.allocations.size := by
      cases step with
      | next _ exec => exact (Exec.extends_execOp _ _ _ _ exec).size_le
      | jump _ exec _ => exact (Exec.extends_execOp _ _ _ _ exec).size_le
    obtain ⟨done, place, faithful⟩ :=
      ih before (grown.trans few) fun k hk => modest k (Nat.lt_succ_of_lt hk)
    exact prep.faithful_advance shaped₀ typed plain place faithful step few
      (modest n (Nat.lt_succ_self n) c₀ u before)

/-- Where a pointer that stems from the allocations of its function is defined, the sizes in its
extent say how many bytes are in the allocation that it points into. Variables have to be modest, and
constants in the range of their width, for the numbers in the extent to be those of the machine. -/
theorem length_allocation_of_extent {f f' : Function} {e : Extents} (co : f.Coherent)
    (valid : f.validate = .ok ()) (passes : f.checkScoping = .ok ())
    (plain : ∀ i ∈ f.body f.entry, i.op.isPhi = false) (typed : f.Typed)
    (found : findExtents (.ofRoots f.roots) f = .ok e f')
    {σ : Type} [Storage σ] {s t : State σ} {c : Control} {config : RunConfig} {args : List String}
    {n : Nat} (run : (Progress.advance f' config)^[n] (beginMain f' args s) = .running c t)
    (few : t.memory.allocations.size ≤ 2 ^ 32) (modest : (beginMain f' args s).Modest f' config n)
    {v : ValueId} (pointer : (f.valueType v).isPointer = true) {roots : ValueSet}
    (known : f.roots[v]? = some roots) (own : ∀ r ∈ roots, r ∉ f.params)
    {d : BlockId} (defined : v ∈ results (f'.body d))
    (dominated : (Dominators.compute f').dominates d c.block = true) (strictly : c.block ≠ d)
    {p : Pointer} (current : t.env[v]? = some (.ptr p)) (nonnull : p.allocation ≠ 0) :
    ∃ x, e.get? v = some x ∧ ∃ (width count : Int64) (bytes : Nat),
      t.env.integer? x.width = some width ∧ t.env.integer? x.count = some count ∧
        0 ≤ width.toInt ∧ 0 ≤ count.toInt ∧ t.memory.length? p.allocation.toNat = some bytes ∧
          width.toInt * count.toInt = 8 * bytes := by
  have wf : f.WellFormed := validate_eq_ok_iff.1 valid
  have strict : f.Strict := (checkScoping_eq_ok_iff wf).mp passes
  have prep := prepared_findExtents co wf strict plain found
  have shaped := prep.draft.shaped
  obtain ⟨done, place, faithful⟩ := prep.faithful_run wf.toShaped typed plain run few modest
  obtain ⟨hd, -, always⟩ := Dominators.dominates_compute_iff.1 dominated
  have missing : ¬ f'.Lacks v c.block := fun lacks =>
    always (lacks.reachableAvoiding shaped defined strictly)
  -- the pointer is one of the function as it was, so it has an extent
  obtain ⟨⟨r, op⟩, mem, rfl : r = some v⟩ := mem_results_iff.1 defined
  have def_ : f.Defines d v op := by
    refine ⟨prep.draft.layout ▸ hd, prep.draft.mem_body_iff.2 ⟨mem, fun r e => ?_⟩⟩
    cases e
    exact index_lt_of_isPointer pointer
  obtain ⟨x, hx⟩ := Option.isSome_iff_exists.mp (Std.ExtTreeMap.mem_iff_isSome_getElem?.mp
    (mem_findExtents found (.inr ⟨d, op, def_⟩) pointer))
  have sizes : ∀ r ∈ x.sizeValues, f'.AtHand r c.block done := by
    intro r hr
    by_cases given : r ∈ f'.params
    · exact .inl given
    · have cover := ((prep.sound.settled v x hx).sizes r hr).1
      exact .inr fun lacks => missing (cover.atStart given lacks.1)
  obtain ⟨q, same, measures⟩ := faithful.sizes v x hx ⟨roots, known, own⟩
    (.inr fun lacks => missing lacks.1) sizes _ current
  cases same
  exact ⟨x, hx, measures nonnull⟩

/-- Allocates one byte more in every round. -/
def growing : Function where
  name := "growing"
  params := []
  returns := .void
  values := #[⟨"i", .int 32⟩, ⟨"p", .bytePtr⟩, ⟨"next", .int 32⟩, ⟨"more", .int 1⟩]
  blocks := #[
    ⟨"entry", [.effect (.br ⟨1⟩)]⟩,
    ⟨"loop", [
      .define ⟨0⟩ (.phi [(.const (.int 32 1), ⟨0⟩), (.value ⟨2⟩, ⟨1⟩)]),
      .define ⟨1⟩ (.malloc (.value ⟨0⟩)),
      .define ⟨2⟩ (.binary .add (.value ⟨0⟩) (.const (.int 32 1))),
      .define ⟨3⟩ (.compare .lt (.value ⟨2⟩) (.const (.int 32 3))),
      .effect (.condBr (.value ⟨3⟩) ⟨1⟩ ⟨2⟩)]⟩,
    ⟨"exit", [.effect (.ret none)]⟩]
  layout := [⟨0⟩, ⟨1⟩, ⟨2⟩]

/-- `growing` with the number of bytes widened. -/
def growingMeasured : Function :=
  { growing with
    values := growing.values.push ⟨"p.bytes", .i64⟩
    blocks := growing.blocks.modify 1 fun b =>
      { b with body := b.body.insertIdx 2 (.define ⟨4⟩ (.cast (.value ⟨0⟩) .i64)) } }

def growingStart : Progress InMemory :=
  beginMain growingMeasured [] (.initial (.new .default ∅ (.still 5)))

theorem length_allocation_of_growing :
    ∃ e, findExtents (.ofRoots growing.roots) growing = .ok e growingMeasured ∧
    ∃ c t, (Progress.advance growingMeasured {})^[11] growingStart = .running c t ∧
    c.block = ⟨2⟩ ∧ t.env[(⟨1⟩ : ValueId)]? = some (.ptr ⟨2, 0⟩) ∧
    ∃ x, e.get? ⟨1⟩ = some x ∧ ∃ (width count : Int64) (bytes : Nat),
      t.env.integer? x.width = some width ∧ t.env.integer? x.count = some count ∧
        0 ≤ width.toInt ∧ 0 ≤ count.toInt ∧ t.memory.length? 2 = some bytes ∧
          width.toInt * count.toInt = 8 * bytes := by
  have coherent : growing.Coherent := by decide
  obtain ⟨roots, known⟩ : ∃ rs, growing.roots[(⟨1⟩ : ValueId)]? = some rs :=
    Option.isSome_iff_exists.mp (by decide +kernel)
  have measured : ((findExtents (.ofRoots growing.roots)).perform growing).1.toOption.isSome = true ∧
      ((findExtents (.ofRoots growing.roots)).perform growing).2 = growingMeasured := by
    decide +kernel
  have reached : (match (Progress.advance growingMeasured {})^[11] growingStart with
      | .running c t => some (c.block, t.env[(⟨1⟩ : ValueId)]?, t.memory.allocations.size)
      | .done _ _ => none) = some (⟨2⟩, some (.ptr ⟨2, 0⟩), 3) := by
    decide +kernel
  have none : ∀ k < 11, (match (Progress.advance growingMeasured {})^[k] growingStart with
      | .running c _ => c.todo.head?.any (·.op matches .alloca _ _)
      | .done _ _ => false) = false := by
    decide +kernel
  have modest : growingStart.Modest growingMeasured {} 11 := by
    intro k hk c s at_k i hi
    have none := none k hk
    rw [at_k] at none
    cases hop : i.op with
    | alloca t n => simp [Option.mem_def.mp hi, hop] at none
    | _ => trivial
  obtain ⟨e, found⟩ := Option.isSome_iff_exists.mp measured.1
  have found := Edit.run_of_perform found
  rw [measured.2] at found
  cases run : (Progress.advance growingMeasured {})^[11] growingStart with
  | done r t =>
    rw [run] at reached
    cases reached
  | running c t =>
    rw [run] at reached
    simp only [Option.some.injEq, Prod.mk.injEq] at reached
    obtain ⟨place, current, size⟩ := reached
    refine ⟨e, found, c, t, rfl, place, current, ?_⟩
    refine length_allocation_of_extent (d := ⟨1⟩) coherent (eq_ok_of_toOption (by cbv))
      (eq_ok_of_toOption (by cbv)) (by decide) (by decide) found run (by omega) modest rfl known
      (fun r _ => List.not_mem_nil) (by decide) ?_ (by simp [place]) current (by decide)
    rw [place]
    cbv

/-- Makes an integer of a pointer that is too narrow for it, and declares it a pointer. -/
def truncating : Function where
  name := "truncating"
  params := []
  returns := .void
  values := #[⟨"a", .bytePtr⟩, ⟨"b", .bytePtr⟩, ⟨"c", .bytePtr⟩, ⟨"d", .bytePtr⟩, ⟨"p", .ptr .i64⟩,
    ⟨"x", .bytePtr⟩, ⟨"q", .bytePtr⟩]
  blocks := #[
    ⟨"entry", [
      .define ⟨0⟩ (.alloca (.int 8) 1),
      .define ⟨1⟩ (.alloca (.int 8) 1),
      .define ⟨2⟩ (.alloca (.int 8) 1),
      .define ⟨3⟩ (.alloca (.int 8) 1),
      .define ⟨4⟩ (.alloca .i64 4),
      .define ⟨5⟩ (.cast (.value ⟨4⟩) (.int 34)),
      .define ⟨6⟩ (.cast (.value ⟨5⟩) .bytePtr),
      .effect (.br ⟨1⟩)]⟩,
    ⟨"next", [.effect (.ret none)]⟩]
  layout := [⟨0⟩, ⟨1⟩]

/-- Of the number of an allocation only two bits are left, which are those of another one. -/
theorem length_allocation_of_truncating :
    truncating.validate = .ok () ∧ truncating.checkScoping = .ok () ∧
    (∀ b ∈ truncating.layout, ∀ i ∈ truncating.body b, i.op.isPhi = false) ∧
    (∃ roots, truncating.roots[(⟨6⟩ : ValueId)]? = some roots) ∧
    (Dominators.compute truncating).dominates ⟨0⟩ ⟨1⟩ = true ∧
    ∃ e, findExtents (.ofRoots truncating.roots) truncating = .ok e truncating ∧
    ∃ x, e.get? ⟨6⟩ = some x ∧ x.width = .i64 64 ∧ x.count = .i64 4 ∧
    ∃ (c : Control) (t : State InMemory), (Progress.advance truncating {})^[8]
        (beginMain truncating [] (.initial (.new .default ∅ (.still 5)))) = .running c t ∧
      c.block = ⟨1⟩ ∧ t.env[(⟨6⟩ : ValueId)]? = some (.ptr ⟨1, 0⟩) ∧ t.memory.length? 1 = some 1 := by
  have known : truncating.roots[(⟨6⟩ : ValueId)]?.isSome = true := by decide +kernel
  have measured : ((findExtents (.ofRoots truncating.roots)).perform truncating).1.toOption.any (fun e =>
        (e.get? ⟨6⟩).any fun x => x.width = .i64 64 ∧ x.count = .i64 4) = true ∧
      ((findExtents (.ofRoots truncating.roots)).perform truncating).2 = truncating := by
    decide +kernel
  have reached : (match (Progress.advance truncating {})^[8]
        (beginMain truncating [] (.initial (.new .default (∅ : InMemory) (.still 5)))) with
      | .running c t => some (c.block, t.env[(⟨6⟩ : ValueId)]?, t.memory.length? 1)
      | .done _ _ => none) = some (⟨1⟩, some (.ptr ⟨1, 0⟩), some 1) := by
    decide +kernel
  refine ⟨eq_ok_of_toOption (by cbv), eq_ok_of_toOption (by cbv), by decide,
    Option.isSome_iff_exists.mp known, by cbv, ?_⟩
  obtain ⟨e, found, held⟩ := (Option.any_eq_true _ _).mp measured.1
  obtain ⟨x, hx, sizes⟩ := (Option.any_eq_true _ _).mp held
  obtain ⟨width, count⟩ := of_decide_eq_true sizes
  have found := Edit.run_of_perform found
  rw [measured.2] at found
  refine ⟨e, found, x, hx, width, count, ?_⟩
  cases run : (Progress.advance truncating {})^[8]
      (beginMain truncating [] (.initial (.new .default (∅ : InMemory) (.still 5)))) with
  | done r t =>
    rw [run] at reached
    cases reached
  | running c t =>
    rw [run] at reached
    simp only [Option.some.injEq, Prod.mk.injEq] at reached
    exact ⟨c, t, rfl, reached⟩

end CheckpointRestart
