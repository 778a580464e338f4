import CheckpointRestart.Proofs.Program.Reader.Canonical
import CheckpointRestart.Proofs.Program.Regular

/-! # Functions that stay writable

What edits have to keep of a function so that in the end it can be written and read again: the names
are distinct identifiers, the constants can be written, the types follow from one another, and
whatever is used is defined. While a function is edited, some of its values may still be pending:
they have no definition yet. Others are given up; only the values `known` may be used.
-/

namespace CheckpointRestart

open CheckpointRestart.Function

/-- A constant that can be written, or a value that is known. -/
def Operand.Writable (known : ValueId → Prop) : Operand → Prop
  | value v => known v
  | const c => c.Legal

theorem Ty.legal_i64 : Ty.i64.Legal :=
  ⟨by decide, by decide⟩

theorem Operand.writable_i64 {known : ValueId → Prop} (n : Int64) : (Operand.i64 n).Writable known :=
  ⟨Ty.legal_i64, rfl⟩

theorem Operand.Writable.constant {known : ValueId → Prop} {x : Operand} (h : x.Writable known) :
    ∀ c, x = .const c → c.Legal := by
  rintro c rfl
  exact h

theorem Operand.Writable.mono {known known' : ValueId → Prop} {x : Operand} (h : x.Writable known)
    (imp : ∀ v, known v → known' v) : x.Writable known' := by
  cases x with
  | value v => exact imp v h
  | const c => exact h

theorem Operand.Writable.replace {known : ValueId → Prop} {x : ValueId} {y z : Operand}
    (h : z.Writable known) (other : y ≠ .value x) (writable : y.Writable known) :
    (Operand.replace x y z).Writable fun v => known v ∧ v ≠ x := by
  unfold Operand.replace
  split
  · cases y with
    | value w => exact ⟨writable, fun e => other (congrArg _ e)⟩
    | const c => exact writable
  · next ne =>
    cases z with
    | value w => exact ⟨h, fun e => ne (congrArg _ e)⟩
    | const c => exact h

namespace Function

/-- `y` can be put in place of `x` without any change to types that follow from it. -/
structure Stands (rank : ValueId → Nat) (f : Function) (x y : Operand) : Prop where
  type : y.typeIn f.valueType = x.typeIn f.valueType
  precedes : ∀ v, x.Precedes rank v → y.Precedes rank v

theorem Stands.refl {rank : ValueId → Nat} {f : Function} (x : Operand) : f.Stands rank x x :=
  ⟨rfl, fun _ => id⟩

/-- `f'` has all the values of `f`, with their types and ranks. -/
structure Embeds (rank : ValueId → Nat) (f : Function) (rank' : ValueId → Nat) (f' : Function) : Prop where
  size : f.values.size ≤ f'.values.size
  types : ∀ v, v.index < f.values.size → f'.valueType v = f.valueType v
  ranks : ∀ v : ValueId, v.index < f.values.size → rank' v = rank v

namespace Embeds

variable {rank rank' rank'' : ValueId → Nat} {f f' f'' : Function}

theorem of_values (values : f'.values = f.values) : Embeds rank f rank f' := by
  refine ⟨values ▸ Nat.le_refl _, fun v _ => ?_, fun _ _ => rfl⟩
  rw [valueType, valueInfo, values, valueType, valueInfo]

theorem trans (h : Embeds rank f rank' f') (h' : Embeds rank' f' rank'' f'') :
    Embeds rank f rank'' f'' :=
  ⟨h.size.trans h'.size, fun v hv => (h'.types v (hv.trans_le h.size)).trans (h.types v hv),
    fun v hv => (h'.ranks v (hv.trans_le h.size)).trans (h.ranks v hv)⟩

end Embeds

/-- An operand with the type of `v` and, if it is a value, with its rank. -/
structure Like (rank : ValueId → Nat) (f : Function) (v : ValueId) (x : Operand) : Prop where
  index : ∀ w, x = .value w → w.index < f.values.size
  type : x.typeIn f.valueType = f.valueType v
  rank : ∀ w, x = .value w → rank w = rank v

namespace Like

variable {rank rank' : ValueId → Nat} {f f' : Function} {v w : ValueId} {x : Operand}

theorem value (index : w.index < f.values.size) (type : f.valueType w = f.valueType v)
    (same : rank w = rank v) : f.Like rank v (.value w) := by
  refine ⟨?_, type, ?_⟩
  · rintro _ ⟨⟩
    exact index
  · rintro _ ⟨⟩
    exact same

theorem stands (h : f.Like rank v x) : f.Stands rank (.value v) x := by
  refine ⟨h.type, fun u before => ?_⟩
  rintro w rfl
  rw [h.rank w rfl]
  exact before v rfl

theorem mono (h : f.Like rank v x) (lt : v.index < f.values.size) (embeds : Embeds rank f rank' f') :
    f'.Like rank' v x := by
  cases x with
  | value w =>
    have index := h.index w rfl
    refine .value (index.trans_le embeds.size) ?_ ?_
    · rw [embeds.types w index, embeds.types v lt]
      exact h.type
    · rw [embeds.ranks w index, embeds.ranks v lt]
      exact h.rank w rfl
  | const c =>
    refine ⟨nofun, ?_, nofun⟩
    rw [embeds.types v lt]
    exact h.type

end Like

/-- What is restored is known and is restored as something like it. -/
def Restores (known : ValueId → Prop) (rank : ValueId → Nat) (f : Function)
    (restored : Std.ExtTreeMap ValueId Operand) : Prop :=
  ∀ (v : ValueId) (y : Operand), restored[v]? = some y →
    known v ∧ v.index < f.values.size ∧ y.Writable known ∧ f.Like rank v y

theorem Restores.mono {known : ValueId → Prop} {rank rank' : ValueId → Nat} {f f' : Function}
    {restored : Std.ExtTreeMap ValueId Operand} (h : f.Restores known rank restored)
    (embeds : Embeds rank f rank' f') : f'.Restores known rank' restored := by
  intro v y hy
  obtain ⟨hv, lt, writable, like⟩ := h v y hy
  exact ⟨hv, lt.trans_le embeds.size, writable, like.mono lt embeds⟩

theorem mem_body_eraseDefinition {f : Function} {x : ValueId} {b : BlockId} {i : Instruction}
    (hi : i ∈ (f.eraseDefinition x).2.body b) : i ∈ f.body b := by
  unfold eraseDefinition at hi
  split at hi
  · exact hi
  · next n found =>
    dsimp only at hi
    split at hi
    · exact hi
    · by_cases e : b = ⟨n⟩
      · subst e
        rcases mem_body_modifyBody hi with hi | hi
        · exact hi
        · exact (List.eraseIdx_sublist _ _).subset hi
      · rwa [setBody, body_modifyBody_of_ne e] at hi

theorem mem_results_eraseDefinition {f : Function} {x v : ValueId} {b : BlockId}
    (hv : v ∈ results (f.body b)) (ne : v ≠ x) : v ∈ results ((f.eraseDefinition x).2.body b) := by
  unfold eraseDefinition
  split
  · exact hv
  · next n found =>
    dsimp only
    split
    · exact hv
    · next p hp =>
      by_cases e : b = ⟨n⟩
      · subst e
        obtain ⟨lt, -⟩ := Array.findIdx?_eq_some_iff_getElem.mp found
        rw [setBody, body_modifyBody_self lt]
        obtain ⟨i, hi, hr⟩ := mem_results_iff.1 hv
        obtain ⟨q, hq⟩ := List.getElem?_of_mem hi
        refine mem_results_iff.2 ⟨i, List.mem_eraseIdx_iff_getElem?.mpr ⟨q, ?_, hq⟩, hr⟩
        rintro rfl
        obtain ⟨_, here, -⟩ := List.findIdx?_eq_some_iff_getElem.mp hp
        obtain ⟨_, rfl⟩ := List.getElem?_eq_some_iff.mp hq
        have same : (f.body ⟨n⟩)[q].result = some x := by simpa using here
        exact ne (Option.some.inj (hr.symm.trans same))
      · rwa [setBody, body_modifyBody_of_ne e]

/-- An instruction that can be written, and the type of its result inferred. -/
structure WritableInstruction (known : ValueId → Prop) (rank : ValueId → Nat) (f : Function)
    (i : Instruction) : Prop where
  operands : ∀ x ∈ i.op.operands, x.Writable known
  callee : ∀ name args, i.op = .call name args → IsCallee name
  index : ∀ v, i.result = some v → v.index < f.values.size
  follows : ∀ v, i.result = some v → i.op.Follows f.valueType rank v
  scalar : ∀ v, i.result = some v → ∀ o x y, i.op = .binary o x y → (f.valueType v).isPointer = false

namespace WritableInstruction

variable {known known' : ValueId → Prop} {rank rank' : ValueId → Nat} {f f' : Function}
  {i : Instruction}

theorem effect {op : Op} (operands : ∀ x ∈ op.operands, x.Writable known)
    (callee : ∀ name args, op ≠ .call name args) : f.WritableInstruction known rank (.effect op) :=
  ⟨operands, fun name args e => absurd e (callee name args), nofun, nofun, nofun⟩

theorem define {v : ValueId} {op : Op} (operands : ∀ x ∈ op.operands, x.Writable known)
    (lt : v.index < f.values.size) (follows : op.Follows f.valueType rank v)
    (callee : ∀ name args, op ≠ .call name args) (scalar : ∀ o x y, op ≠ .binary o x y) :
    f.WritableInstruction known rank (.define v op) := by
  refine ⟨operands, fun name args e => absurd e (callee name args), ?_, ?_, ?_⟩
  · rintro _ ⟨⟩
    exact lt
  · rintro _ ⟨⟩
    exact follows
  · rintro _ ⟨⟩ o x y e
    exact absurd e (scalar o x y)

theorem phi (h : f.WritableInstruction known rank i) {pairs : List (Operand × BlockId)}
    (operands : ∀ z ∈ pairs, z.1.Writable known') :
    f.WritableInstruction known' rank { i with op := .phi pairs } := by
  refine ⟨fun x hx => ?_, nofun, h.index, fun v _ => rfl, fun v _ o x y e => by cases e⟩
  obtain ⟨z, hz, rfl⟩ := List.mem_map.mp hx
  exact operands z hz

/-- More values, with types and ranks of their own, make no difference. -/
theorem mono (h : f.WritableInstruction known rank i) (embeds : Embeds rank f rank' f') :
    f'.WritableInstruction known rank' i := by
  refine ⟨h.operands, h.callee, fun v hv => (h.index v hv).trans_le embeds.size, fun v hv => ?_,
    fun v hv => ?_⟩
  · have lt := h.index v hv
    refine (h.follows v hv).mono (embeds.types v lt)
      (fun w hw => embeds.types w (index_lt_of_typed hw)) ?_
    intro w hw before
    rwa [embeds.ranks v lt, embeds.ranks w (index_lt_of_typed hw)]
  · rw [embeds.types v (h.index v hv)]
    exact h.scalar v hv

theorem rename {v w : ValueId} {op : Op} (h : f.WritableInstruction known rank ⟨some v, op⟩)
    (like : f.Like rank v (.value w)) : f.WritableInstruction known rank (.define w op) := by
  have type : f.valueType w = f.valueType v := like.type
  have same : rank w = rank v := like.rank w rfl
  have before {x : Operand} (hx : x.Precedes rank v) : x.Precedes rank w := fun u hu =>
    (hx u hu).trans_eq same.symm
  refine ⟨h.operands, h.callee, ?_, ?_, ?_⟩
  · rintro _ ⟨⟩
    exact like.index w rfl
  · rintro _ ⟨⟩
    have follows := h.follows v rfl
    cases op with
    | load x => exact ⟨follows.1.trans (congrArg Ty.ptr type.symm), before follows.2⟩
    | gep x y => exact ⟨type ▸ follows.1, follows.2.1.trans type.symm, before follows.2.2⟩
    | binary o x y => exact follows.imp (And.imp_right before) (And.imp_right before)
    | _ =>
      unfold Op.Follows at follows ⊢
      exact type.symm ▸ follows
  · rintro _ ⟨⟩ o x y e
    rw [type]
    exact h.scalar v rfl o x y e

theorem mapTargets (h : f.WritableInstruction known rank i) (g : BlockId → BlockId) :
    f.WritableInstruction known rank (i.mapOp (Op.mapTargets g)) := by
  obtain ⟨r, op⟩ := i
  cases op with
  | br | condBr | switch => exact ⟨h.operands, nofun, h.index, h.follows, fun v _ o x y e => by cases e⟩
  | _ => exact h

theorem mapPhiBlocks (h : f.WritableInstruction known rank i) (g : BlockId → BlockId) :
    f.WritableInstruction known rank (i.mapOp (Op.mapPhiBlocks g)) := by
  obtain ⟨r, op⟩ := i
  cases op with
  | phi pairs =>
    refine h.phi fun z hz => ?_
    obtain ⟨y, hy, rfl⟩ := List.mem_map.mp hz
    exact h.operands y.1 (List.mem_map_of_mem hy)
  | _ => exact h

theorem mapOperands (h : f.WritableInstruction known rank i) {k : Operand → Operand}
    (writable : ∀ x ∈ i.op.operands, (k x).Writable known')
    (stands : i.op.isPhi = false → ∀ x ∈ i.op.operands, f.Stands rank x (k x)) :
    f.WritableInstruction known' rank (i.mapOp (Op.mapOperands k)) := by
  obtain ⟨r, op⟩ := i
  refine ⟨fun x hx => ?_, fun name args e => ?_, h.index, fun v hv => ?_, fun v hv o x y e => ?_⟩
  · rw [Instruction.mapOp, Op.operands_mapOperands] at hx
    obtain ⟨z, hz, rfl⟩ := List.mem_map.mp hx
    exact writable z hz
  · cases op <;> cases e
    exact h.callee _ _ rfl
  · have follows := h.follows v hv
    cases op with
    | load x =>
      have hx := stands rfl x (by simp [Op.operands])
      exact ⟨hx.type.trans follows.1, hx.precedes v follows.2⟩
    | gep x y =>
      have hx := stands rfl x (by simp [Op.operands])
      exact ⟨follows.1, hx.type.trans follows.2.1, hx.precedes v follows.2.2⟩
    | binary o x y =>
      have hx := stands rfl x (by simp [Op.operands])
      have hy := stands rfl y (by simp [Op.operands])
      rcases follows with ⟨typed, before⟩ | ⟨typed, before⟩
      · exact .inl ⟨by rw [hx.type]; exact typed, hx.precedes v before⟩
      · exact .inr ⟨by rw [hy.type]; exact typed, hy.precedes v before⟩
    | session c => cases c <;> exact follows
    | _ => exact follows
  · cases op <;> cases e
    exact h.scalar v hv _ _ _ rfl

theorem gep {v : ValueId} {x y x' y' : Operand} (h : f.WritableInstruction known rank ⟨some v, .gep x y⟩)
    (base : x'.Writable known') (stands : f.Stands rank x x') (index : y'.Writable known') :
    f.WritableInstruction known' rank ⟨some v, .gep x' y'⟩ := by
  refine ⟨fun z hz => ?_, nofun, h.index, fun w hw => ?_, fun w _ o x y e => by cases e⟩
  · simp only [Op.operands, List.mem_cons, List.not_mem_nil, or_false] at hz
    rcases hz with rfl | rfl
    · exact base
    · exact index
  · obtain ⟨pointer, type, before⟩ := h.follows w hw
    exact ⟨pointer, stands.type.trans type, stands.precedes w before⟩

theorem cast {v : ValueId} {x x' : Operand} {t : Ty} (h : f.WritableInstruction known rank ⟨some v, .cast x t⟩)
    (writable : x'.Writable known') : f.WritableInstruction known' rank ⟨some v, .cast x' t⟩ := by
  refine ⟨fun z hz => ?_, nofun, h.index, h.follows, fun w _ o x y e => by cases e⟩
  rw [List.mem_singleton.mp hz]
  exact writable

theorem producesValue (h : f.WritableInstruction known rank i) {v : ValueId} (hv : i.result = some v) :
    i.op.producesValue = true := by
  have follows := h.follows v hv
  cases e : i.op with
  | load | gep | binary | alloca | malloc | phi | cast | compare => rfl
  | session c =>
    rw [e] at follows
    cases c with
    | restartLabel | readAlias => rfl
    | _ => cases follows
  | _ =>
    rw [e] at follows
    cases follows

end WritableInstruction

structure Writable (known : ValueId → Prop) (pending : List ValueId) (rank : ValueId → Nat)
    (f : Function) : Prop where
  coherent : f.Coherent
  nonempty : f.layout ≠ []
  named : f.Named
  legal : ∀ v, (f.valueType v).Legal
  /-- Only pointers may have the smallest rank. -/
  positive : ∀ v, v.index < f.values.size → (f.valueType v).isPointer = false → 0 < rank v
  code : ∀ b, ∀ i ∈ f.body b, f.WritableInstruction known rank i
  complete : ∀ v, v.index < f.values.size → known v →
    v ∈ f.params ∨ v ∈ pending ∨ ∃ b, v ∈ results (f.body b)

namespace Writable

variable {known known' : ValueId → Prop} {pending pending' : List ValueId} {rank rank' : ValueId → Nat}
  {f f' : Function} {b : BlockId} {v : ValueId}

/-! ## What edits keep -/

theorem settle (h : f.Writable known pending rank)
    (done : ∀ v ∈ pending, v ∈ pending' ∨ ∃ b, v ∈ results (f.body b)) :
    f.Writable known pending' rank := by
  refine { h with complete := fun v lt hv => ?_ }
  rcases h.complete v lt hv with given | waits | defined
  · exact .inl given
  · exact .inr (done v waits)
  · exact .inr (.inr defined)

theorem recognize (h : f.Writable known pending rank) :
    f.Writable (fun v => known v ∨ ∃ b, v ∈ results (f.body b)) pending rank := by
  refine { h with code := fun b i hi => ?_, complete := fun v lt hv => ?_ }
  · refine { h.code b i hi with operands := fun x hx => ?_ }
    exact ((h.code b i hi).operands x hx).mono fun v => .inl
  · rcases hv with hv | defined
    · exact h.complete v lt hv
    · exact .inr (.inr defined)

theorem grows {new : List (ValueId × Ty)} (h : f.Writable known pending rank) (grows : f.Grows f' new)
    (legal : ∀ p ∈ new, p.2.Legal) (agree : ∀ v : ValueId, v.index < f.values.size → rank' v = rank v)
    (positive : ∀ p ∈ new, p.2.isPointer = false → 0 < rank' p.1) :
    f'.Writable known (new.map (·.1) ++ pending) rank' := by
  have split : ∀ v : ValueId, v.index < f'.values.size → v.index < f.values.size ∨
      ∃ p ∈ new, p.1 = v := by
    intro v lt
    by_cases old : v.index < f.values.size
    · exact .inl old
    · have mem : v.index ∈ new.map (·.1.index) := by
        rw [grows.indices, List.mem_range'_1, ← grows.size]
        omega
      obtain ⟨p, hp, e⟩ := List.mem_map.mp mem
      exact .inr ⟨p, hp, by cases v; cases h : p.1; simp_all⟩
  refine ⟨⟨fun b => ?_, grows.layout ▸ h.coherent.nodup, fun p hp => ?_⟩, grows.layout ▸ h.nonempty,
    grows.named h.named, fun v => ?_, fun v lt scalar => ?_, fun b i hi => ?_, fun v lt hv => ?_⟩
  · rw [grows.frame]
    exact h.coherent.mem_layout b
  · exact (h.coherent.params p (grows.params ▸ hp)).trans_le grows.le
  · by_cases lt : v.index < f'.values.size
    · rcases split v lt with old | ⟨p, hp, rfl⟩
      · rw [grows.old v old]
        exact h.legal v
      · rw [grows.types p hp]
        exact legal p hp
    · have none : f'.valueType v = .void := by
        simp [valueType, valueInfo, Array.getD, lt]
      rw [none]
      trivial
  · rcases split v lt with old | ⟨p, hp, rfl⟩
    · rw [agree v old]
      exact h.positive v old (grows.old v old ▸ scalar)
    · exact positive p hp (grows.types p hp ▸ scalar)
  · rw [grows.body] at hi
    exact (h.code b i hi).mono ⟨grows.le, grows.old, agree⟩
  · rw [grows.params]
    simp only [grows.body]
    rcases split v lt with old | ⟨p, hp, rfl⟩
    · exact (h.complete v old hv).imp_right (Or.imp_left (List.mem_append_right _))
    · exact .inr (.inl (List.mem_append_left _ (List.mem_map_of_mem hp)))

/-- An edit of bodies and of the layout alone. Values whose definitions are lost are given up. -/
theorem recode (h : f.Writable known pending rank)
    (frame : f' = { f with blocks := f'.blocks, layout := f'.layout }) (coherent : f'.Coherent)
    (nonempty : f'.layout ≠ []) (named : f'.Named)
    (code : ∀ b, ∀ i ∈ f'.body b, f.WritableInstruction known' rank i)
    (kept : ∀ v, known' v → known v ∧
      ∀ b, v ∈ results (f.body b) → ∃ c, v ∈ results (f'.body c)) :
    f'.Writable known' pending rank := by
  have values : f'.values = f.values := by rw [frame]
  have params : f'.params = f.params := by rw [frame]
  have types : ∀ v, f'.valueType v = f.valueType v := fun v => by
    rw [valueType, valueInfo, values, valueType, valueInfo]
  refine ⟨coherent, nonempty, named, fun v => types v ▸ h.legal v, fun v lt scalar => ?_,
    fun b i hi => (code b i hi).mono (.of_values values), fun v lt hv => ?_⟩
  · exact h.positive v (values ▸ lt) (types v ▸ scalar)
  · obtain ⟨hv, kept⟩ := kept v hv
    rw [params]
    refine (h.complete v (values ▸ lt) hv).imp_right (Or.imp_right ?_)
    rintro ⟨b, mem⟩
    exact kept b mem

theorem edit (h : f.Writable known pending rank)
    (frame : f' = { f with blocks := f'.blocks, layout := f'.layout }) (coherent : f'.Coherent)
    (nonempty : f'.layout ≠ []) (named : f'.Named)
    (code : ∀ b, ∀ i ∈ f'.body b, f.WritableInstruction known rank i)
    (kept : ∀ b, ∀ v ∈ results (f.body b), ∃ c, v ∈ results (f'.body c)) :
    f'.Writable known pending rank :=
  h.recode frame coherent nonempty named code fun v hv => ⟨hv, fun b => kept b v⟩

theorem modifyBody (h : f.Writable known pending rank) (b : BlockId)
    {g : List Instruction → List Instruction}
    (code : ∀ i ∈ g (f.body b), f.WritableInstruction known rank i)
    (kept : ∀ v ∈ results (f.body b), v ∈ results (g (f.body b))) :
    (f.modifyBody b g).Writable known pending rank := by
  refine h.edit rfl h.coherent.modifyBody h.nonempty (h.named.modifyBody b g) (fun c i hi => ?_)
    fun c v hv => ⟨c, ?_⟩
  · rcases mem_body_modifyBody hi with hi | hi
    · exact h.code c i hi
    · exact code i hi
  · by_cases e : c = b
    · subst e
      have mem : c ∈ f.layout := by
        obtain ⟨i, hi, -⟩ := mem_results_iff.1 hv
        exact h.coherent.mem_layout_of_mem_body hi
      rw [body_modifyBody_self ((h.coherent.mem_layout c).mp mem)]
      exact kept v hv
    · rwa [body_modifyBody_of_ne e]

theorem mapBody (h : f.Writable known pending rank) (b : BlockId) {g : Instruction → Instruction}
    (code : ∀ i ∈ f.body b, f.WritableInstruction known rank (g i))
    (same : ∀ i, (g i).result = i.result) :
    (f.modifyBody b (·.map g)).Writable known pending rank := by
  refine h.modifyBody b (fun i hi => ?_) fun v hv => ?_
  · obtain ⟨j, hj, rfl⟩ := List.mem_map.mp hi
    exact code j hj
  · obtain ⟨i, hi, hr⟩ := mem_results_iff.1 hv
    exact mem_results_iff.2 ⟨g i, List.mem_map_of_mem hi, (same i).trans hr⟩

theorem insert {is js : List Instruction} {j : Instruction} {r : ValueId}
    (h : f.Writable known (r :: pending) rank) (hb : b ∈ f.layout)
    (code : f.WritableInstruction known rank j) (hr : j.result = some r)
    {g : List Instruction → List Instruction} (split : f.body b = is ++ js)
    (inserts : g (f.body b) = is ++ j :: js) : (f.modifyBody b g).Writable known pending rank := by
  have body : (f.modifyBody b g).body b = is ++ j :: js := by
    rw [body_modifyBody_self ((h.coherent.mem_layout b).mp hb), inserts]
  refine (h.modifyBody b (fun i hi => ?_) fun v hv => ?_).settle fun v hv => ?_
  · rw [inserts, List.mem_append, List.mem_cons] at hi
    rcases hi with hi | rfl | hi
    · exact h.code b i (by simp [split, hi])
    · exact code
    · exact h.code b i (by simp [split, hi])
  · rw [split, results_append, List.mem_append] at hv
    rw [inserts, results_append, results_cons]
    simp only [List.mem_append]
    exact hv.imp_right .inr
  · rcases List.mem_cons.mp hv with rfl | hv
    · exact .inr ⟨b, by rw [body, results_append, results_cons, hr]; simp⟩
    · exact .inl hv

theorem replacePhiBlock (h : f.Writable known pending rank) (b old new : BlockId) :
    (f.replacePhiBlock b old new).Writable known pending rank :=
  h.mapBody b (fun i hi => (h.code b i hi).mapPhiBlocks _) fun _ => rfl

theorem retarget (h : f.Writable known pending rank) (source old new : BlockId) :
    (f.retarget source old new).Writable known pending rank := by
  refine h.modifyBody source (fun i hi => ?_) fun v hv => ?_
  · split at hi
    · exact h.code source i hi
    · next last found =>
      rcases List.mem_append.mp hi with hi | hi
      · exact h.code source i (List.dropLast_subset _ hi)
      · rw [List.mem_singleton.mp hi]
        exact (h.code source last (List.mem_of_getLast? found)).mapTargets _
  · split
    · exact hv
    · next last found =>
      obtain ⟨is, e⟩ := List.getLast?_eq_some_iff.mp found
      rw [e] at hv ⊢
      simpa [Instruction.mapOp] using hv

theorem insertBlockAfter (h : f.Writable known pending rank) (after : BlockId) {name : String}
    (identifier : Text.isIdentifier name.toList = true) :
    (f.insertBlockAfter after name).2.Writable known pending rank := by
  refine h.edit rfl h.coherent.insertBlockAfter ?_ (h.named.insertBlockAfter after identifier)
    (fun c i hi => ?_) fun c v hv => ⟨c, ?_⟩
  · have mem : (⟨f.blocks.size⟩ : BlockId) ∈ (f.insertBlockAfter after name).2.layout :=
      mem_insertAfter_iff.2 (.inl rfl)
    exact List.ne_nil_of_mem mem
  · rw [body_insertBlockAfter] at hi
    split at hi
    · cases hi
    · exact h.code c i hi
  · obtain ⟨i, hi, -⟩ := mem_results_iff.1 hv
    have old : c ≠ ⟨f.blocks.size⟩ := by
      rintro rfl
      exact h.coherent.new_not_mem (h.coherent.mem_layout_of_mem_body hi)
    rwa [body_insertBlockAfter, if_neg old]

theorem foldl {α : Type} {step : Function → α → Function} (xs : List α)
    (one : ∀ f a, a ∈ xs → f.Writable known pending rank → (step f a).Writable known pending rank)
    (h : f.Writable known pending rank) : (xs.foldl step f).Writable known pending rank :=
  List.foldlRecOn xs step h fun f h a ha => one f a ha h

theorem move {is js : List Instruction} (h : f.Writable known pending rank) (after : BlockId)
    {name : String} (identifier : Text.isIdentifier name.toList = true)
    (code : ∀ i ∈ is ++ js, f.WritableInstruction known rank i)
    (kept : ∀ v ∈ results (f.body b), v ∈ results (is ++ js)) (hb : b ∈ f.layout) :
    (((f.insertBlockAfter after name).2.setBody ⟨f.blocks.size⟩ is).setBody b js).Writable known
      pending rank := by
  have opened := h.insertBlockAfter after identifier
  have lt : ∀ c ∈ f.layout, c.index < f.blocks.size := fun c => (h.coherent.mem_layout c).mp
  have ne : (⟨f.blocks.size⟩ : BlockId) ≠ b := by
    rintro rfl
    exact h.coherent.new_not_mem hb
  have size : (f.insertBlockAfter after name).2.blocks.size = f.blocks.size + 1 := by
    simp [Function.insertBlockAfter, createBlock]
  have rest : ((f.insertBlockAfter after name).2.setBody ⟨f.blocks.size⟩ is).body ⟨f.blocks.size⟩ = is :=
    body_modifyBody_self (by rw [size]; exact Nat.lt_succ_self _)
  have front : (((f.insertBlockAfter after name).2.setBody ⟨f.blocks.size⟩ is).setBody b js).body b = js :=
    body_modifyBody_self (by
      rw [setBody, size_blocks_modifyBody, size]
      exact (lt b hb).trans (Nat.lt_succ_self _))
  refine h.edit rfl opened.coherent.modifyBody.modifyBody opened.nonempty
    ((opened.named.modifyBody _ _).modifyBody _ _) (fun c i hi => ?_) fun c v hv => ?_
  · rcases mem_body_modifyBody hi with hi | hi
    · rcases mem_body_modifyBody hi with hi | hi
      · exact (opened.code c i hi).mono (.of_values rfl)
      · exact code i (List.mem_append_left _ hi)
    · exact code i (List.mem_append_right _ hi)
  · by_cases e : c = b
    · subst e
      rcases List.mem_append.mp (results_append is js ▸ kept v hv) with hv | hv
      · refine ⟨⟨f.blocks.size⟩, ?_⟩
        rwa [setBody, body_modifyBody_of_ne ne, rest]
      · exact ⟨c, by rwa [front]⟩
    · obtain ⟨i, hi, -⟩ := mem_results_iff.1 hv
      have old : c ≠ ⟨f.blocks.size⟩ := by
        rintro rfl
        exact h.coherent.new_not_mem (h.coherent.mem_layout_of_mem_body hi)
      refine ⟨c, ?_⟩
      rwa [setBody, body_modifyBody_of_ne e, setBody, body_modifyBody_of_ne old, body_insertBlockAfter,
        if_neg old]

/-- A value is dropped, and another operand takes its place. -/
theorem collapse {x : ValueId} {y : Operand} (h : f.Writable known pending rank)
    (other : y ≠ .value x) (writable : y.Writable known)
    (stands : ∀ b, ∀ i ∈ f.body b, i.op.isPhi = false → x ∈ i.op.usedValues →
      f.Stands rank (.value x) y) :
    ((f.eraseDefinition x).2.replaceUses x y).Writable (fun v => known v ∧ v ≠ x) pending rank := by
  obtain ⟨frame, coherent, named⟩ : (f.eraseDefinition x).2 =
      { f with blocks := (f.eraseDefinition x).2.blocks } ∧ (f.eraseDefinition x).2.Coherent ∧
      (f.eraseDefinition x).2.Named := by
    unfold Function.eraseDefinition
    split
    · exact ⟨rfl, h.coherent, h.named⟩
    · dsimp only
      split
      · exact ⟨rfl, h.coherent, h.named⟩
      · exact ⟨rfl, h.coherent.modifyBody, h.named.modifyBody _ _⟩
  refine h.recode ?_ coherent.mapInstructions ?_ (named.mapInstructions _) (fun b i hi => ?_) ?_
  · rw [replaceUses, Function.mapInstructions, frame]
  · rw [replaceUses, layout_mapInstructions, frame]
    exact h.nonempty
  · rw [replaceUses, body_mapInstructions] at hi
    obtain ⟨j, hj, rfl⟩ := List.mem_map.mp hi
    have hj := mem_body_eraseDefinition hj
    refine (h.code b j hj).mapOperands
      (fun z hz => ((h.code b j hj).operands z hz).replace other writable) fun phi z hz => ?_
    unfold Operand.replace
    split
    · next e =>
      subst e
      exact stands b j hj phi (Op.mem_usedValues_iff.2 hz)
    · exact .refl z
  · rintro v ⟨hv, ne⟩
    refine ⟨hv, fun b mem => ⟨b, ?_⟩⟩
    rw [replaceUses, body_mapInstructions, results_map fun i _ => SameKind.mapOperands _ i]
    exact mem_results_eraseDefinition mem ne

/-! ## What is writable is read again -/

theorem typable (h : f.Writable known pending rank) : f.Typable rank :=
  ⟨fun b _ i hi => (h.code b i hi).follows, fun b _ i hi => (h.code b i hi).scalar⟩

theorem mem_named_iff (co : f.Coherent) :
    v ∈ f.named ↔ v ∈ f.params ∨ ∃ b, v ∈ results (f.body b) := by
  rw [Function.named, List.mem_append, mem_defined_iff]
  refine or_congr_right ⟨?_, ?_⟩
  · rintro ⟨b, -, hv⟩
    exact ⟨b, hv⟩
  · rintro ⟨b, hv⟩
    obtain ⟨i, hi, -⟩ := mem_results_iff.1 hv
    exact ⟨b, co.mem_layout_of_mem_body hi, hv⟩

theorem index_of_named (h : f.Writable known pending rank) (hv : v ∈ f.named) :
    v.index < f.values.size := by
  rcases (mem_named_iff h.coherent).mp hv with given | ⟨b, defined⟩
  · exact h.coherent.params v given
  · obtain ⟨i, hi, hr⟩ := mem_results_iff.1 defined
    exact (h.code b i hi).index v hr

theorem legibleInstruction (h : f.Writable known [] rank) (wf : f.WellFormed) (hb : b ∈ f.layout)
    {i : Instruction} (hi : i ∈ f.body b) : f.LegibleInstruction i := by
  have code := h.code b i hi
  have fits := wf.fits b hb i hi
  refine ⟨fun v hv => ?_, fun k hk => code.operands _ hk, fun c hc => ?_, fun t ht => ?_, fun _ => ?_,
    code.callee, ?_⟩
  · have use := code.operands _ (Op.mem_usedValues_iff.1 hv)
    rcases h.complete v (fits.operands v hv) use with given | waits | defined
    · exact (mem_named_iff h.coherent).mpr (.inl given)
    · cases waits
    · exact (mem_named_iff h.coherent).mpr (.inr defined)
  · rcases List.mem_append.mp hc with hc | hc
    · exact fits.targets c hc
    · cases e : i.op with
      | phi pairs =>
        rw [e] at hc
        have mem := (wf.merges b hb i hi pairs e).mem_iff.mp hc
        exact (List.mem_filter.mp mem).1
      | _ =>
        rw [e] at hc
        cases hc
  · -- a type that is spelled out is that of the result, or what the result points to
    have result (produces : i.op.producesValue = true) : ∃ v, i.result = some v := by
      rw [← Option.ne_none_iff_exists']
      intro none
      rw [fits.produces none] at produces
      cases produces
    cases e : i.op with
    | alloca t' n =>
      obtain ⟨v, hv⟩ := result (by rw [e]; rfl)
      have follows := code.follows v hv
      have legal := h.legal v
      rw [e] at ht follows
      have type : f.valueType v = .ptr t' := (Option.some.inj follows).symm
      rw [type] at legal
      rw [List.mem_singleton.mp ht]
      exact legal
    | cast x t' =>
      obtain ⟨v, hv⟩ := result (by rw [e]; rfl)
      have follows := code.follows v hv
      rw [e] at ht follows
      have type : t' = f.valueType v := Option.some.inj follows
      rw [List.mem_singleton.mp ht, type]
      exact ⟨h.legal v, fits.typed v hv⟩
    | _ =>
      rw [e] at ht
      cases ht
  · unfold resultType
    cases i.result with
    | none => trivial
    | some v => exact h.legal v
  · cases e : i.result with
    | none => exact (fits.produces e).symm
    | some v => exact (code.producesValue e).symm

theorem legible (h : f.Writable known [] rank) (wf : f.WellFormed)
    (name : Text.isIdentifier f.name.toList = true) (nodup : f.params.Nodup)
    (params : ∀ p ∈ f.params, (f.valueType p).isVoid = false) (returns : f.returns.Legal) :
    f.Legible := by
  have blocks : ∀ b ∈ f.layout, b.index < f.blocks.size := fun b => (h.coherent.mem_layout b).mp
  have distinct : f.named.Nodup := by
    refine List.nodup_append.mpr ⟨nodup, wf.once, ?_⟩
    rintro v given _ defined rfl
    exact wf.params v defined given
  refine ⟨name, fun v hv => h.named.valueName (h.index_of_named hv),
    fun b hb => h.named.blockName (blocks b hb), ?_, ?_, fun p hp => ⟨h.legal p, params p hp⟩, returns,
    fun b hb i hi => h.legibleInstruction wf hb hi⟩
  · exact distinct.map_on fun v hv w hw e => h.named.valueName_inj (h.index_of_named hv) (h.index_of_named hw) e
  · exact h.coherent.nodup.map_on fun b hb c hc e => h.named.blockName_inj (blocks b hb) (blocks c hc) e

end Writable

end Function

end CheckpointRestart
