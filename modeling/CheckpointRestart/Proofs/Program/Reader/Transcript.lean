import CheckpointRestart.Proofs.Program.Reader.Contents
import CheckpointRestart.Proofs.Program.Reader.Inference

/-! # What functions are read as

After the second pass over a function all its instructions are there, and the results whose types
the text spells out have them. The others are listed in the order of the lines and have no type yet.
All that is read can be written again.
-/

namespace CheckpointRestart

open Text

theorem foldlM_ok_induction_on {ε α β : Type} {step : β → α → Except ε β} (inv : β → Prop) {xs : List α}
    (one : ∀ b, ∀ x ∈ xs, ∀ b', inv b → step b x = .ok b' → inv b') {b b' : β} (start : inv b)
    (run : xs.foldlM step b = .ok b') : inv b' := by
  induction xs generalizing b with
  | nil =>
    cases run
    exact start
  | cons x xs ih =>
    rw [List.foldlM_cons, bind_eq_ok_iff] at run
    obtain ⟨c, first, rest⟩ := run
    exact ih (fun b y hy => one b y (List.mem_cons_of_mem _ hy)) (one b x List.mem_cons_self c start first) rest

namespace Function

variable {f : Function} {name : String} {t : Ty}

theorem legal_valueType_newValue (h : ∀ v, (f.valueType v).Legal) (legal : t.Legal) (v : ValueId) :
    ((f.newValue name t).2.valueType v).Legal := by
  rw [valueType_newValue]
  split
  · exact legal
  · exact h v

end Function

namespace Reader

open CheckpointRestart.Function

variable {f f' : Function}

/-! ## The first line -/

/-- What is known of the types that the first line gives. -/
structure Headed (f : Function) : Prop where
  legal : ∀ v, (f.valueType v).Legal
  params : ∀ p ∈ f.params, (f.valueType p).isVoid = false
  returns : f.returns.Legal

theorem Headed.parameter {line : Nat} {s : List Char} (h : Headed f) (declared : Declared f)
    (run : parameter line f s = .ok f') : Headed f' := by
  obtain ⟨name, t, -, value, ⟨u, read⟩, new, rfl⟩ := parameter_eq_ok run
  refine ⟨legal_valueType_newValue h.legal (Ty.legal_of_read? read), fun p hp => ?_, h.returns⟩
  rcases List.mem_append.mp hp with hp | hp
  · have lt : p.index < f.values.size := by
      rw [← mem_valueIds_iff, ← declared.params]
      exact hp
    exact (congrArg Ty.isVoid (valueType_newValue_of_lt lt)).trans (h.params p hp)
  · obtain rfl := List.mem_singleton.mp hp
    exact (congrArg Ty.isVoid valueType_newValue_self).trans value

theorem headed_of_header {line : Line} (run : header line = .ok f) : Headed f := by
  unfold header at run
  simp only [bind_eq_ok_iff, orFail_eq_ok_iff] at run
  obtain ⟨rest, -, ⟨signature, returns⟩, -, ⟨name, params⟩, -, inner, -, run⟩ := run
  split at run
  · exact absurd (bind_eq_ok_iff.1 run) (by simp [Context.fail])
  simp only [bind_eq_ok_iff, orFail_eq_ok_iff] at run
  obtain ⟨t, read, run⟩ := run
  refine (foldlM_ok_induction (fun g => Declared g ∧ Headed g) (fun g s g' h step => ?_)
    ⟨declared_empty _ t, ?_⟩ run).2
  · exact ⟨(h.1.parameter step).1, h.2.parameter h.1 step⟩
  · refine ⟨fun v => ?_, by simp [Function.empty], Ty.legal_of_read? read⟩
    have none : (Function.empty (String.ofList (trim name)) t).valueType v = .void := by
      simp [Function.empty, valueType, valueInfo, Array.getD]
    rw [none]
    trivial

/-! ## The first pass -/

/-- What is known of the lines that are still to be read: a line that defines no value holds no
equals sign between blanks. Types come from the first line alone. -/
structure Queued (f : Function) (o : Outline) : Prop where
  headed : Headed o.function
  params : o.function.params = f.params
  void : ∀ v, v ∉ f.params → (o.function.valueType v).isVoid = true
  lines : ∀ p ∈ o.pending, p.result = none → '\n' ∉ p.text ∧ ¬ [' ', '=', ' '] <:+: p.text

theorem Queued.outline {o o' : Outline} {line : Line} (h : Queued f o) (single : '\n' ∉ line.text) (run : outline o line = .ok o') : Queued f o' := by
  have new {name : String} : Headed (o.function.newValue name .void).2 := by
    refine ⟨legal_valueType_newValue h.headed.legal trivial, fun p hp => ?_, h.headed.returns⟩
    have lt := index_lt_of_typed (h.headed.params p hp)
    exact (congrArg Ty.isVoid (valueType_newValue_of_lt lt)).trans (h.headed.params p hp)
  cases outline_eq_ok run with
  | label => exact ⟨⟨h.headed.legal, h.headed.params, h.headed.returns⟩, h.params, h.void, h.lines⟩
  | @effect b current split =>
    refine ⟨h.headed, h.params, h.void, fun p hp => ?_⟩
    rcases List.mem_append.mp hp with hp | hp
    · exact h.lines p hp
    · rw [List.mem_singleton.mp hp]
      exact fun _ => ⟨single, (splitAt?_eq_none_iff (by decide)).mp split⟩
  | @definition b name text current identifier fresh =>
    refine ⟨new, h.params, fun v hv => ?_, fun p hp => ?_⟩
    · change ((o.function.newValue (String.ofList name) .void).2.valueType v).isVoid = true
      rw [valueType_newValue]
      split
      · rfl
      · exact h.void v hv
    · rcases List.mem_append.mp hp with hp | hp
      · exact h.lines p hp
      · rw [List.mem_singleton.mp hp]
        nofun

/-! ## The second pass -/

/-- An instruction as it is read: it refers to values and blocks of `f`, and can be written. -/
structure Recorded (f : Function) (i : Instruction) : Prop where
  operands : ∀ x ∈ i.op.operands, Holds f x
  blocks : ∀ b ∈ i.op.targets ++ i.op.sources, HasBlock f b
  types : ∀ t ∈ i.op.types, t.Legal ∧ t.isVoid = false
  callee : ∀ name args, i.op = .call name args → IsCallee name
  productive : i.result.isSome = i.op.producesValue

theorem Holds.of_size {x : Operand} (h : Holds f x) (size : f.values.size ≤ f'.values.size) : Holds f' x := by
  cases x with
  | value v => exact Nat.lt_of_lt_of_le h size
  | const k => exact h

theorem Recorded.of_size {i : Instruction} (h : Recorded f i) (values : f.values.size ≤ f'.values.size)
    (blocks : f.blocks.size ≤ f'.blocks.size) : Recorded f' i :=
  ⟨fun x hx => (h.operands x hx).of_size values, fun b hb => Nat.lt_of_lt_of_le (h.blocks b hb) blocks,
    h.types, h.callee, h.productive⟩

/-- The function and the results without a type after some instruction lines. -/
structure Filled (o : Outline) (ps : List Pending) (is : List (BlockId × Instruction))
    (state : Function × List (Nat × ValueId)) : Prop where
  placed : Placed o ps is state.1
  recorded : ∀ x ∈ is, Recorded o.function x.2
  untyped : state.2.map (·.2) = is.filterMap (·.2.inferred?)
  spelled : ∀ x ∈ is, ∀ v, x.2.result = some v →
    state.1.valueType v = (x.2.op.spelled? (state.1.valueType v)).getD .void
  kept : ∀ v, (∀ x ∈ is, x.2.result ≠ some v) → state.1.valueType v = o.function.valueType v
  legal : ∀ v, (state.1.valueType v).Legal

theorem Filled.recorded_of_written {o : Outline} {p : Pending} {op : Op} {t? : Option Ty}
    (queued : Queued f o) (hp : p ∈ o.pending) (frame : SameFrame o.function f')
    (written : Written f' p.text op t?) (produces : p.result.isSome = op.producesValue) :
    Recorded o.function ⟨p.result, op⟩ := by
  refine ⟨fun x hx => (written.operands x hx).of_size (Nat.le_of_eq frame.sizeValues),
    fun b hb => Nat.lt_of_lt_of_le (written.blocks b hb) (Nat.le_of_eq frame.sizeBlocks), written.types,
    fun name args e => ?_, produces⟩
  obtain ⟨trimmed, opening, inside⟩ := written.callee name args e
  have effect : p.result = none := by
    rw [show op = .call name args from e] at produces
    cases result : p.result with
    | none => rfl
    | some v =>
      rw [result] at produces
      cases produces
  obtain ⟨line, single⟩ := queued.lines p hp effect
  exact ⟨trimmed, opening, fun mem => line (inside.subset mem), fun found => single (found.trans inside)⟩

theorem Outlined.nodup {o : Outline} (h : Outlined o) :
    (o.function.params ++ o.pending.filterMap (·.result)).Nodup := by
  rw [h.values]
  exact List.nodup_range.map fun n m e => by cases e; rfl

/-- The result of a line is a value of its own: no parameter, and no result of a line before. -/
theorem Placed.fresh {o : Outline} {ps rest : List Pending} {p : Pending} {is : List (BlockId × Instruction)}
    {v : ValueId} (h : Placed o ps is f) (outlined : Outlined o) (split : o.pending = ps ++ p :: rest)
    (result : p.result = some v) : v.index < o.function.values.size ∧ v ∉ o.function.params ∧
      ∀ x ∈ is, x.2.result ≠ some v := by
  have nodup := outlined.nodup
  have results : is.filterMap (·.2.result) = ps.filterMap (·.result) := by
    simpa [List.filterMap_map, Function.comp_def] using congrArg (List.filterMap Prod.snd) h.lines
  have step : (p :: rest).filterMap (·.result) = v :: rest.filterMap (·.result) :=
    List.filterMap_cons_some result
  have mem : v ∈ o.function.valueIds := by
    rw [← outlined.values, split, List.filterMap_append, step]
    simp
  rw [split, List.filterMap_append, step, ← List.append_assoc] at nodup
  have new := not_mem_of_nodup_append nodup
  rw [List.mem_append, not_or, ← results] at new
  refine ⟨mem_valueIds_iff.1 mem, new.1, fun x hx e => new.2 ?_⟩
  exact List.mem_filterMap.mpr ⟨x, hx, e⟩

theorem Filled.readPending {o : Outline} {ps rest : List Pending} {p : Pending}
    {is : List (BlockId × Instruction)} {state state' : Function × List (Nat × ValueId)}
    (h : Filled o ps is state) (outlined : Outlined o) (queued : Queued f o)
    (split : o.pending = ps ++ p :: rest) (run : readPending state p = .ok state') :
    ∃ op, Filled o (ps ++ [p]) (is ++ [(p.block, ⟨p.result, op⟩)]) state' := by
  obtain ⟨op, t?, read, appends⟩ := readPending_eq_ok run
  have written := Context.written_instruction read
  have hp : p ∈ o.pending := by simp [split]
  have lt := outlined.below p hp
  refine ⟨op, ?_⟩
  have bodies {g : Function} (blocks : g.blocks = (state.1.append p.block ⟨p.result, op⟩).blocks) (b : BlockId) :
      g.body b = (state.1.append p.block ⟨p.result, op⟩).body b := body_of_blocks blocks
  have record (produces : p.result.isSome = op.producesValue) :
      ∀ x ∈ is ++ [(p.block, (⟨p.result, op⟩ : Instruction))], Recorded o.function x.2 := by
    intro x hx
    rcases List.mem_append.mp hx with hx | hx
    · exact h.recorded x hx
    · rw [List.mem_singleton.mp hx]
      exact recorded_of_written queued hp h.placed.frame written produces
  -- a result has no type before its line is read
  have void {v : ValueId} (result : p.result = some v) : state.1.valueType v = .void := by
    obtain ⟨-, local_, fresh⟩ := h.placed.fresh outlined split result
    have none := queued.void v (queued.params ▸ local_)
    rw [h.kept v fresh]
    cases e : o.function.valueType v with
    | void => rfl
    | _ =>
      rw [e] at none
      cases none
  cases appends with
  | effect result produces =>
    have same : p.result.isSome = op.producesValue := by rw [result, produces]; rfl
    have inferred : Instruction.inferred? ⟨p.result, op⟩ = none := by simp [Instruction.inferred?, result]
    refine ⟨h.placed.append lt same (.modifyBody _ _ _) (bodies (by rw [result])), record same, ?_,
      fun x hx v hv => ?_, fun v hv => ?_, h.legal⟩
    · rw [List.filterMap_append, h.untyped]
      simp [inferred]
    · rcases List.mem_append.mp hx with hx | hx
      · exact h.spelled x hx v hv
      · rw [List.mem_singleton.mp hx, result] at hv
        cases hv
    · exact h.kept v fun x hx => hv x (List.mem_append_left _ hx)
  | @typed v t result produces =>
    have same : p.result.isSome = op.producesValue := by rw [result, produces]; rfl
    obtain ⟨range, -, fresh⟩ := h.placed.fresh outlined split result
    obtain ⟨spelled, legal⟩ := written.spelled t rfl
    have inferred : Instruction.inferred? ⟨p.result, op⟩ = none := by
      rw [Instruction.inferred?, op.isNone_spelled? _ t, spelled]
      rfl
    have self : ((state.1.append p.block ⟨some v, op⟩).setValueType v t).valueType v = t :=
      valueType_setValueType_self (by
        change v.index < state.1.values.size
        rwa [h.placed.frame.sizeValues])
    have other {w : ValueId} (ne : w ≠ v) :
        ((state.1.append p.block ⟨some v, op⟩).setValueType v t).valueType w = state.1.valueType w :=
      valueType_setValueType_of_ne ne
    refine ⟨h.placed.append lt same ((SameFrame.modifyBody _ _ _).trans (.setValueType _ _ _))
      (bodies (by rw [result]; rfl)), record same, ?_, fun x hx w hw => ?_, fun w hw => ?_, fun w => ?_⟩
    · rw [List.filterMap_append, h.untyped]
      simp [inferred]
    · rcases List.mem_append.mp hx with hx | hx
      · have ne : w ≠ v := fun e => fresh x hx (e ▸ hw)
        rw [other ne]
        exact h.spelled x hx w hw
      · rw [List.mem_singleton.mp hx, result] at hw
        cases hw
        rw [self, List.mem_singleton.mp hx, spelled]
        rfl
    · have ne : w ≠ v := by
        rintro rfl
        exact hw _ (List.mem_append_right _ List.mem_cons_self) result
      rw [other ne]
      exact h.kept w fun x hx => hw x (List.mem_append_left _ hx)
    · by_cases e : w = v
      · rw [e, self]
        exact legal
      · rw [other e]
        exact h.legal w
  | @untyped v result produces =>
    have same : p.result.isSome = op.producesValue := by rw [result, produces]; rfl
    have none := written.unspelled rfl
    have inferred : Instruction.inferred? ⟨p.result, op⟩ = some v := by
      rw [Instruction.inferred?, none, result]
      rfl
    refine ⟨h.placed.append lt same (.modifyBody _ _ _) (bodies (by rw [result])), record same, ?_,
      fun x hx w hw => ?_, fun w hw => ?_, h.legal⟩
    · rw [List.map_append, List.filterMap_append, h.untyped]
      simp [inferred]
    · rcases List.mem_append.mp hx with hx | hx
      · exact h.spelled x hx w hw
      · rw [List.mem_singleton.mp hx, result] at hw
        cases hw
        have unspelled : op.spelled? (state.1.valueType v) = Option.none := by
          rw [← Option.isNone_iff_eq_none, op.isNone_spelled? _ .void, none]
          rfl
        rw [List.mem_singleton.mp hx]
        change state.1.valueType v = (op.spelled? (state.1.valueType v)).getD .void
        rw [unspelled, void result]
        rfl
    · exact h.kept w fun x hx => hw x (List.mem_append_left _ hx)

theorem Outlined.filled {o : Outline} (h : Outlined o) (queued : Queued f o)
    {state : Function × List (Nat × ValueId)}
    (run : o.pending.foldlM readPending (o.function, []) = .ok state) :
    ∃ is, Filled o o.pending is state := by
  suffices ∀ (todo done : List Pending) start is, o.pending = done ++ todo → Filled o done is start →
      todo.foldlM Reader.readPending start = .ok state → ∃ is, Filled o (done ++ todo) is state from
    this o.pending [] (o.function, []) [] rfl
      ⟨⟨.refl _, rfl, by simpa using h.bodies, by simp⟩, by simp, rfl, by simp, fun _ _ => rfl,
        queued.headed.legal⟩ run
  intro todo
  induction todo with
  | nil =>
    intro done start is _ filled run
    cases run
    exact ⟨is, by simpa using filled⟩
  | cons p todo ih =>
    intro done start is split filled run
    rw [List.foldlM_cons, bind_eq_ok_iff] at run
    obtain ⟨next, first, rest⟩ := run
    obtain ⟨op, filled⟩ := filled.readPending h queued split first
    obtain ⟨is, filled⟩ := ih (done ++ [p]) next _ (by simp [split]) filled rest
    exact ⟨is, by simpa using filled⟩

theorem Placed.instructions {o : Outline} {is : List (BlockId × Instruction)} (h : Outlined o)
    (placed : Placed o o.pending is f) : f.instructions = is := by
  obtain ⟨layout, collected⟩ := placed.collected h
  conv_rhs => rw [← collected]
  rw [Function.instructions, layout, blockIds, List.flatMap_map]
  refine List.flatMap_congr fun n _ => ?_
  rw [placed.bodies, List.map_map]
  refine (List.map_congr_left fun x hx => ?_).trans (List.map_id _)
  have number : x.1 = ⟨n⟩ := by simpa using (List.mem_filter.mp hx).2
  obtain ⟨b, i⟩ := x
  cases number
  rfl

/-- A function after the second pass, with the results that have no type yet. -/
structure Transcript (f : Function) (untyped : List (Nat × ValueId)) : Prop where
  name : isIdentifier f.name.toList = true
  named : f.Named
  numbered : f.Numbered
  recorded : ∀ b, ∀ i ∈ f.body b, Recorded f i
  untyped : untyped.map (·.2) = f.instructions.filterMap (·.2.inferred?)
  spelled : ∀ b, ∀ i ∈ f.body b, ∀ v, i.result = some v →
    f.valueType v = (i.op.spelled? (f.valueType v)).getD .void
  legal : ∀ v, (f.valueType v).Legal
  params : ∀ p ∈ f.params, (f.valueType p).isVoid = false
  returns : f.returns.Legal

theorem Filled.transcript {o : Outline} {is : List (BlockId × Instruction)}
    {state : Function × List (Nat × ValueId)} (h : Filled o o.pending is state) (outlined : Outlined o)
    (queued : Queued f o) (name : isIdentifier o.function.name.toList = true) :
    Transcript state.1 state.2 := by
  have frame := h.placed.frame
  have instructions := h.placed.instructions outlined
  have mem {b : BlockId} {i : Instruction} (hi : i ∈ state.1.body b) : ∃ x ∈ is, x.2 = i := by
    rw [h.placed.bodies] at hi
    obtain ⟨x, hx, e⟩ := List.mem_map.mp hi
    exact ⟨x, (List.mem_filter.mp hx).1, e⟩
  refine ⟨by rw [frame.name]; exact name, frame.named outlined.named, h.placed.numbered outlined, fun b i hi => ?_,
    by rw [h.untyped, instructions], fun b i hi v hv => ?_, h.legal, fun p hp => ?_,
    frame.returns.symm ▸ queued.headed.returns⟩
  · obtain ⟨x, hx, rfl⟩ := mem hi
    exact (h.recorded x hx).of_size (Nat.le_of_eq frame.sizeValues.symm) (Nat.le_of_eq frame.sizeBlocks.symm)
  · obtain ⟨x, hx, rfl⟩ := mem hi
    exact h.spelled x hx v hv
  · rw [frame.params] at hp
    rw [h.kept p fun x hx e => ?_]
    · exact queued.headed.params p hp
    · have results : is.filterMap (·.2.result) = o.pending.filterMap (·.result) := by
        simpa [List.filterMap_map, Function.comp_def] using
          congrArg (List.filterMap Prod.snd) h.placed.lines
      have mem : p ∈ o.pending.filterMap (·.result) := results ▸ List.mem_filterMap.mpr ⟨x, hx, e⟩
      exact (List.nodup_append.mp outlined.nodup).2.2 p hp p mem rfl

end Reader

/-- The operation that defines a value, in the last place where it is defined. -/
def Function.definedOp? (f : Function) (v : ValueId) : Option Op :=
  ((f.definition? v).bind f.instructionAt?).map (·.op)

namespace Reader

variable {f : Function}

/-- A function that is read comes from the third pass over such a function. -/
theorem transcript_of_function {first : Line} {body : List Line}
    (single : ∀ line ∈ body, '\n' ∉ line.text) (run : function first body = .ok f) :
    ∃ g untyped, Transcript g untyped ∧
      inferTypes g.definedOp? untyped.length g untyped = .ok f ∧ f.WellFormed := by
  unfold function at run
  rw [bind_eq_ok_iff] at run
  obtain ⟨f₁, head, run⟩ := run
  rw [bind_eq_ok_iff] at run
  obtain ⟨o, lines, run⟩ := run
  rw [bind_eq_ok_iff] at run
  obtain ⟨⟨f₂, untyped⟩, pass, run⟩ := run
  rw [bind_eq_ok_iff] at run
  obtain ⟨f₃, types, run⟩ := run
  obtain ⟨declared, identifier⟩ := header_eq_ok head
  have headed := headed_of_header head
  have start : Queued f₁ ⟨f₁, none, []⟩ := by
    refine ⟨headed, rfl, fun v hv => ?_, by simp⟩
    by_contra typed
    have lt := Function.index_lt_of_typed (by simpa using typed)
    exact hv (by rw [declared.params]; exact Function.mem_valueIds_iff.2 lt)
  have kept := foldlM_ok_induction_on
    (fun o => (Outlined o ∧ Queued f₁ o) ∧ o.function.name = f₁.name)
    (fun o line hl o' h step => ?_) ⟨⟨declared.outlined, start⟩, rfl⟩ lines
  · obtain ⟨⟨outlined, queued⟩, name⟩ := kept
    obtain ⟨is, filled⟩ := outlined.filled queued pass
    have wellFormed : f₃.WellFormed ∧ f₃ = f := by
      split at run
      · next valid =>
        cases run
        exact ⟨Function.validate_eq_ok_iff.1 valid, rfl⟩
      · cases run
    obtain ⟨wellFormed, rfl⟩ := wellFormed
    exact ⟨f₂, untyped, filled.transcript outlined queued (name ▸ identifier), types, wellFormed⟩
  · refine ⟨⟨h.1.1.outline step, h.1.2.outline (single line hl) step⟩, ?_⟩
    cases outline_eq_ok step with
    | label => exact h.2
    | effect => exact h.2
    | definition => exact h.2

end Reader

end CheckpointRestart
