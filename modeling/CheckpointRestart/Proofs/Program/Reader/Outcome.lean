import CheckpointRestart.Proofs.Program.Reader.Steps
import CheckpointRestart.Proofs.Program.Strictness

/-! # What the reader returns

A function that is read has its values and blocks numbered in the order of the text: the parameters
come first, then the results line by line. All names are identifiers and distinct, and an
instruction has a result exactly if it produces one.
-/

namespace CheckpointRestart

theorem foldlM_ok_induction {ε α β : Type} {step : β → α → Except ε β} (inv : β → Prop)
    {xs : List α} (one : ∀ b x b', inv b → step b x = .ok b' → inv b') {b b' : β} (start : inv b)
    (run : xs.foldlM step b = .ok b') : inv b' := by
  induction xs generalizing b with
  | nil =>
    cases run
    exact start
  | cons x xs ih =>
    rw [List.foldlM_cons, bind_eq_ok_iff] at run
    obtain ⟨c, first, rest⟩ := run
    exact ih (one b x c start first) rest

/-- The members of a list sorted by key, collected key by key. -/
theorem flatMap_range_filter {α : Type} (key : α → Nat) {n : Nat} {xs : List α}
    (sorted : xs.Pairwise fun x y => key x ≤ key y) (below : ∀ x ∈ xs, key x < n) :
    (List.range n).flatMap (fun k => xs.filter (key · = k)) = xs := by
  induction n generalizing xs with
  | zero =>
    cases xs with
    | nil => rfl
    | cons x xs => exact absurd (below x List.mem_cons_self) (Nat.not_lt_zero _)
  | succ n ih =>
    -- the members with the greatest key come last
    have split : xs = xs.filter (key · < n) ++ xs.filter (key · = n) := by
      clear ih
      induction xs with
      | nil => rfl
      | cons x xs ih =>
        have rest := ih (List.pairwise_cons.mp sorted).2 fun y hy => below y (List.mem_cons_of_mem _ hy)
        by_cases h : key x < n
        · have ne : key x ≠ n := by omega
          simpa [h, ne] using rest
        · have eq : key x = n := by
            have := below x List.mem_cons_self
            omega
          have none : xs.filter (key · < n) = [] := by
            refine List.filter_eq_nil_iff.mpr fun y hy => ?_
            have := (List.pairwise_cons.mp sorted).1 y hy
            simp only [decide_eq_true_eq]
            omega
          rw [none] at rest
          simpa [none, eq] using rest
    have front := ih (sorted.filter (key · < n)) fun x hx => by simpa using (List.mem_filter.mp hx).2
    rw [List.range_succ, List.flatMap_append, List.flatMap_singleton]
    refine Eq.trans (congrArg (· ++ _) ?_) split.symm
    rw [← front]
    refine List.flatMap_congr fun k hk => ?_
    have lt := List.mem_range.mp hk
    rw [List.filter_filter]
    refine List.filter_congr fun x _ => ?_
    by_cases e : key x = k <;> simp [e, lt]

namespace Function

variable {f f' : Function} {b : BlockId}

def blockIds (f : Function) : List BlockId :=
  (List.range f.blocks.size).map BlockId.mk

theorem mem_blockIds_iff : b ∈ f.blockIds ↔ b.index < f.blocks.size := by
  simp only [blockIds, List.mem_map, List.mem_range]
  constructor
  · rintro ⟨n, lt, rfl⟩
    exact lt
  · exact fun lt => ⟨b.index, lt, rfl⟩

theorem mem_valueIds_iff {v : ValueId} : v ∈ f.valueIds ↔ v.index < f.values.size := by
  simp only [valueIds, List.mem_map, List.mem_range]
  constructor
  · rintro ⟨n, lt, rfl⟩
    exact lt
  · exact fun lt => ⟨v.index, lt, rfl⟩

/-- Nothing but types of values and bodies of blocks has changed. -/
structure SameFrame (f f' : Function) : Prop where
  name : f'.name = f.name
  params : f'.params = f.params
  returns : f'.returns = f.returns
  layout : f'.layout = f.layout
  values : f'.values.toList.map (·.name) = f.values.toList.map (·.name)
  blocks : f'.blocks.toList.map (·.name) = f.blocks.toList.map (·.name)

namespace SameFrame

theorem refl (f : Function) : SameFrame f f :=
  ⟨rfl, rfl, rfl, rfl, rfl, rfl⟩

theorem trans {f'' : Function} (h : SameFrame f f') (h' : SameFrame f' f'') : SameFrame f f'' :=
  ⟨h'.name.trans h.name, h'.params.trans h.params, h'.returns.trans h.returns,
    h'.layout.trans h.layout, h'.values.trans h.values, h'.blocks.trans h.blocks⟩

theorem sizeValues (h : SameFrame f f') : f'.values.size = f.values.size := by
  simpa using congrArg List.length h.values

theorem sizeBlocks (h : SameFrame f f') : f'.blocks.size = f.blocks.size := by
  simpa using congrArg List.length h.blocks

theorem named (h : SameFrame f f') (named : f.Named) : f'.Named :=
  named.of_names h.values h.blocks

theorem modifyBody (f : Function) (b : BlockId) (g : List Instruction → List Instruction) :
    SameFrame f (f.modifyBody b g) := by
  refine ⟨rfl, rfl, rfl, rfl, rfl, List.ext_getElem? fun n => ?_⟩
  simp only [Function.modifyBody, List.getElem?_map, Array.getElem?_toList, Array.getElem?_modify]
  split
  · cases f.blocks[n]? <;> simp [Block.mapBody]
  · rfl

theorem setValueType (f : Function) (v : ValueId) (t : Ty) : SameFrame f (f.setValueType v t) := by
  refine ⟨rfl, rfl, rfl, rfl, List.ext_getElem? fun n => ?_, rfl⟩
  simp only [Function.setValueType, List.getElem?_map, Array.getElem?_toList, Array.getElem?_modify]
  split
  · cases f.values[n]? <;> simp
  · rfl

end SameFrame

/-- Values and blocks are numbered in the order in which they are written. -/
structure Numbered (f : Function) : Prop where
  layout : f.layout = f.blockIds
  values : f.params ++ f.defined = f.valueIds

theorem Numbered.coherent (h : f.Numbered) : f.Coherent := by
  refine ⟨fun b => by rw [h.layout, mem_blockIds_iff], ?_, fun p hp => ?_⟩
  · rw [h.layout]
    exact List.nodup_range.map fun n m e => by cases e; rfl
  · rw [← mem_valueIds_iff, ← h.values]
    exact List.mem_append_left _ hp

end Function

namespace Reader

open CheckpointRestart.Function

variable {f f' : Function}

/-! ## The first line -/

/-- A function of which only the first line is read. -/
structure Declared (f : Function) : Prop where
  params : f.params = f.valueIds
  blocks : f.blocks = #[]
  layout : f.layout = []
  named : f.Named

theorem valueIds_of_push {f g : Function} {info : ValueInfo} (h : g.values = f.values.push info) :
    g.valueIds = f.valueIds ++ [⟨f.values.size⟩] := by
  simp [valueIds, h, List.range_succ]

theorem declared_empty (name : String) (t : Ty) : Declared (.empty name t) :=
  ⟨rfl, rfl, rfl, by simp [Function.empty], by simp [Function.empty], by simp [Function.empty],
    by simp [Function.empty]⟩

theorem Declared.parameter {line : Nat} {s : List Char} (h : Declared f)
    (run : parameter line f s = .ok f') : Declared f' ∧ f'.name = f.name := by
  obtain ⟨name, t, identifier, -, -, new, rfl⟩ := parameter_eq_ok run
  have named : (f.newValue (String.ofList name) t).2.Named :=
    h.named.newValue (by rwa [String.toList_ofList]) t
  have values : (f.newValue (String.ofList name) t).2.values = _ := values_newValue_of_new new
  refine ⟨⟨?_, h.blocks, h.layout, ⟨named.1, named.2, named.3, named.4⟩⟩, rfl⟩
  refine Eq.trans ?_ (valueIds_of_push values).symm
  rw [← h.params]
  rfl

theorem header_eq_ok {line : Line} (run : header line = .ok f) :
    Declared f ∧ Text.isIdentifier f.name.toList = true := by
  unfold header at run
  simp only [bind_eq_ok_iff, orFail_eq_ok_iff] at run
  obtain ⟨rest, -, ⟨signature, returns⟩, -, ⟨name, params⟩, -, inner, -, run⟩ := run
  split at run
  · exact absurd (bind_eq_ok_iff.1 run) (by simp [Context.fail])
  next identifier =>
  simp only [bind_eq_ok_iff, orFail_eq_ok_iff] at run
  obtain ⟨t, -, run⟩ := run
  have inv := foldlM_ok_induction
    (fun g => Declared g ∧ g.name = String.ofList (Text.trim name)) (fun g s g' h step => ?_)
    ⟨declared_empty _ t, rfl⟩ run
  · exact ⟨inv.1, by rw [inv.2]; simpa using identifier⟩
  · have next := h.1.parameter step
    exact ⟨next.1, next.2.trans h.2⟩

/-! ## The first pass -/

/-- What is known of the blocks and values named so far. -/
structure Outlined (o : Outline) : Prop where
  values : o.function.params ++ o.pending.filterMap (·.result) = o.function.valueIds
  layout : o.function.layout = o.function.blockIds
  bodies : ∀ b, o.function.body b = []
  named : o.function.Named
  current : ∀ b, o.current = some b → b.index + 1 = o.function.blocks.size
  sorted : o.pending.Pairwise fun p q => p.block.index ≤ q.block.index
  below : ∀ p ∈ o.pending, p.block.index < o.function.blocks.size

theorem Declared.outlined (h : Declared f) : Outlined ⟨f, none, []⟩ := by
  refine ⟨by simpa using h.params, by simp [h.layout, blockIds, h.blocks], fun b => ?_, h.named,
    fun b hb => ?_, .nil, fun p hp => ?_⟩
  · simp [body, block, h.blocks, Array.getD]
  · cases hb
  · cases hp

theorem Outlined.pairwise_append {o : Outline} (h : Outlined o) {b : BlockId}
    (current : o.current = some b) {p : Pending} (hp : p.block = b) :
    (o.pending ++ [p]).Pairwise (fun p q => p.block.index ≤ q.block.index) ∧
      ∀ q ∈ o.pending ++ [p], q.block.index < o.function.blocks.size := by
  have last := h.current b current
  constructor
  · rw [List.pairwise_append]
    refine ⟨h.sorted, List.pairwise_singleton _ _, fun q hq r hr => ?_⟩
    rw [List.mem_singleton.mp hr, hp]
    have := h.below q hq
    omega
  · intro q hq
    rcases List.mem_append.mp hq with hq | hq
    · exact h.below q hq
    · rw [List.mem_singleton.mp hq, hp]
      omega

theorem Outlined.outline {o o' : Outline} {line : Line} (h : Outlined o)
    (run : outline o line = .ok o') : Outlined o' := by
  cases outline_eq_ok run with
  | @label name text identifier new =>
    have blocks := blocks_addBlock_of_new new
    have size : (o.function.addBlock (String.ofList name)).2.blocks.size =
        o.function.blocks.size + 1 := by simp [blocks]
    refine ⟨h.values, ?_, fun b => ?_, h.named.addBlock (by rwa [String.toList_ofList]), ?_, h.sorted, fun p hp => ?_⟩
    · change o.function.layout ++ [⟨o.function.blocks.size⟩] = _
      rw [h.layout]
      simp [blockIds, size, List.range_succ]
    · have := h.bodies b
      simp only [body, block, blocks, Array.getD_eq_getD_getElem?, Array.getElem?_push] at this ⊢
      split
      · rfl
      · exact this
    · rintro _ ⟨⟩
      exact size.symm
    · exact (h.below p hp).trans_le (by simp [size])
  | @effect b current split =>
    obtain ⟨sorted, below⟩ := h.pairwise_append current
      (p := ⟨line.number, b, none, line.text⟩) rfl
    exact ⟨by simpa using h.values, h.layout, h.bodies, h.named, h.current, sorted, below⟩
  | @definition b name text current identifier new =>
    obtain ⟨sorted, below⟩ := h.pairwise_append current
      (p := ⟨line.number, b, some (o.function.newValue (String.ofList name) .void).1,
        Text.trim text⟩) rfl
    refine ⟨?_, h.layout, h.bodies, h.named.newValue (by rwa [String.toList_ofList]) _, h.current, sorted, below⟩
    refine Eq.trans ?_ (valueIds_of_push (values_newValue_of_new new)).symm
    rw [← h.values]
    simp

/-! ## The second pass -/

/-- The function after some instruction lines: `is` are the instructions with their blocks, in the
order of the lines. -/
structure Placed (o : Outline) (ps : List Pending) (is : List (BlockId × Instruction)) (f : Function) :
    Prop where
  frame : SameFrame o.function f
  lines : is.map (fun x => (x.1, x.2.result)) = ps.map fun p => (p.block, p.result)
  bodies : ∀ b, f.body b = (is.filter (·.1 = b)).map (·.2)
  productive : ∀ x ∈ is, x.2.result.isSome = x.2.op.producesValue

theorem body_append {b c : BlockId} {i : Instruction} (lt : b.index < f.blocks.size) :
    (f.append b i).body c = f.body c ++ if b = c then [i] else [] := by
  by_cases h : b = c
  · subst h
    simp [append, body_modifyBody_self lt]
  · simp [append, body_modifyBody_of_ne (Ne.symm h), h]

theorem Placed.append {o : Outline} {ps : List Pending} {is : List (BlockId × Instruction)}
    {p : Pending} {op : Op} (h : Placed o ps is f) (lt : p.block.index < o.function.blocks.size)
    (produces : p.result.isSome = op.producesValue) (frame : SameFrame f f')
    (bodies : ∀ b, f'.body b = (f.append p.block ⟨p.result, op⟩).body b) :
    Placed o (ps ++ [p]) (is ++ [(p.block, ⟨p.result, op⟩)]) f' := by
  refine ⟨h.frame.trans frame, by simp [h.lines], fun b => ?_, fun x hx => ?_⟩
  · rw [bodies, body_append (h.frame.sizeBlocks.symm ▸ lt), h.bodies, List.filter_append, List.map_append]
    by_cases e : p.block = b <;> simp [e]
  · rcases List.mem_append.mp hx with hx | hx
    · exact h.productive x hx
    · rw [List.mem_singleton.mp hx]
      exact produces

theorem Placed.readPending {o : Outline} {ps : List Pending} {is : List (BlockId × Instruction)}
    {p : Pending} {untyped : List (Nat × ValueId)} {state : Function × List (Nat × ValueId)}
    (h : Placed o ps is f) (lt : p.block.index < o.function.blocks.size)
    (run : readPending (f, untyped) p = .ok state) :
    ∃ op, Placed o (ps ++ [p]) (is ++ [(p.block, ⟨p.result, op⟩)]) state.1 := by
  obtain ⟨op, t, -, appends⟩ := readPending_eq_ok run
  refine ⟨op, ?_⟩
  cases appends with
  | effect result produces =>
    refine h.append lt (by rw [result, produces]; rfl) (.modifyBody f _ _) fun b => ?_
    rw [result]
  | typed result produces =>
    refine h.append lt (by rw [result, produces]; rfl)
      ((SameFrame.modifyBody f _ _).trans (.setValueType _ _ _)) fun b => ?_
    rw [result]
    rfl
  | untyped result produces =>
    refine h.append lt (by rw [result, produces]; rfl) (.modifyBody f _ _) fun b => ?_
    rw [result]

theorem Outlined.placed {o : Outline} (h : Outlined o) {state : Function × List (Nat × ValueId)}
    (run : o.pending.foldlM readPending (o.function, []) = .ok state) :
    ∃ is, Placed o o.pending is state.1 := by
  suffices ∀ (todo done : List Pending) start is, (∀ p ∈ todo, p ∈ o.pending) →
      Placed o done is start.1 → todo.foldlM readPending start = .ok state →
      ∃ is, Placed o (done ++ todo) is state.1 from
    this o.pending [] (o.function, []) [] (fun _ hp => hp)
      ⟨.refl _, rfl, by simpa using h.bodies, by simp⟩ run
  intro todo
  induction todo with
  | nil =>
    intro done start is _ placed run
    cases run
    exact ⟨is, by simpa using placed⟩
  | cons p todo ih =>
    intro done start is mem placed run
    rw [List.foldlM_cons, bind_eq_ok_iff] at run
    obtain ⟨next, first, rest⟩ := run
    obtain ⟨op, placed⟩ := placed.readPending (h.below p (mem p List.mem_cons_self)) first
    obtain ⟨is, placed⟩ := ih _ _ _ (fun q hq => mem q (List.mem_cons_of_mem _ hq)) placed rest
    exact ⟨is, by simpa using placed⟩

/-- The instructions come in the order of their blocks. -/
theorem Placed.collected {o : Outline} {is : List (BlockId × Instruction)} (h : Outlined o)
    (placed : Placed o o.pending is f) : f.layout = f.blockIds ∧
      (List.range f.blocks.size).flatMap (fun n => is.filter (·.1 = ⟨n⟩)) = is := by
  have layout : f.layout = f.blockIds := by
    rw [placed.frame.layout, h.layout, blockIds, blockIds, placed.frame.sizeBlocks]
  have blocks : is.map (·.1) = o.pending.map (·.block) := by
    simpa [Function.comp_def] using congrArg (List.map Prod.fst) placed.lines
  have sorted : is.Pairwise fun x y => x.1.index ≤ y.1.index := by
    have lines : (o.pending.map (·.block)).Pairwise fun a b => a.index ≤ b.index :=
      List.pairwise_map.mpr h.sorted
    rw [← blocks] at lines
    exact (List.pairwise_map (R := fun a b : BlockId => a.index ≤ b.index)).mp lines
  have below : ∀ x ∈ is, x.1.index < f.blocks.size := by
    intro x hx
    have mem : x.1 ∈ o.pending.map (·.block) := blocks ▸ List.mem_map_of_mem hx
    obtain ⟨p, hp, same⟩ := List.mem_map.mp mem
    rw [placed.frame.sizeBlocks, ← same]
    exact h.below p hp
  have same : ∀ n, ∀ x : BlockId × Instruction, decide (x.1 = ⟨n⟩) = decide (x.1.index = n) := by
    rintro n ⟨⟨m⟩, i⟩
    simp
  refine ⟨layout, ?_⟩
  simp only [same]
  exact flatMap_range_filter (fun x : BlockId × Instruction => x.1.index) sorted below

/-- The definitions come in the order of the lines, so in the order of their numbers. -/
theorem Placed.numbered {o : Outline} {is : List (BlockId × Instruction)} (h : Outlined o)
    (placed : Placed o o.pending is f) : f.Numbered := by
  obtain ⟨layout, collected⟩ := placed.collected h
  have results : is.filterMap (·.2.result) = o.pending.filterMap (·.result) := by
    simpa [List.filterMap_map, Function.comp_def] using
      congrArg (List.filterMap Prod.snd) placed.lines
  refine ⟨layout, ?_⟩
  have defined : f.defined = is.filterMap (·.2.result) := by
    conv_rhs => rw [← collected]
    rw [Function.defined, layout, blockIds, List.flatMap_map, List.filterMap_flatMap]
    refine List.flatMap_congr fun n _ => ?_
    rw [placed.bodies, CheckpointRestart.results, List.filterMap_map]
    rfl
  rw [defined, results, placed.frame.params, h.values, valueIds, valueIds, placed.frame.sizeValues]

/-! ## The third pass -/

theorem inferPass_frame {definition? : ValueId → Option Op} {untyped still : List (Nat × ValueId)}
    (run : inferPass definition? f untyped = .ok (f', still)) :
    SameFrame f f' ∧ f'.blocks = f.blocks := by
  induction untyped generalizing f f' still with
  | nil =>
    cases run
    exact ⟨.refl _, rfl⟩
  | cons x rest ih =>
    obtain ⟨line, v⟩ := x
    rw [inferPass, bind_eq_ok_iff] at run
    obtain ⟨t, -, run⟩ := run
    cases t with
    | some t =>
      obtain ⟨frame, blocks⟩ := ih run
      exact ⟨(SameFrame.setValueType f v t).trans frame, blocks⟩
    | none =>
      obtain ⟨⟨g, more⟩, pass, run⟩ := bind_eq_ok_iff.1 run
      cases run
      exact ih pass

theorem inferTypes_frame {definition? : ValueId → Option Op} {fuel : Nat}
    {untyped : List (Nat × ValueId)} (run : inferTypes definition? fuel f untyped = .ok f') :
    SameFrame f f' ∧ f'.blocks = f.blocks := by
  induction fuel generalizing f untyped with
  | zero =>
    cases untyped with
    | nil =>
      cases run
      exact ⟨.refl _, rfl⟩
    | cons x rest => cases run
  | succ fuel ih =>
    cases untyped with
    | nil =>
      cases run
      exact ⟨.refl _, rfl⟩
    | cons x rest =>
      rw [inferTypes, bind_eq_ok_iff] at run
      · obtain ⟨⟨g, still⟩, pass, run⟩ := run
        obtain ⟨frame, blocks⟩ := inferPass_frame pass
        dsimp only at run
        split at run
        · cases run
          exact ⟨frame, blocks⟩
        · split at run
          · cases run
          · obtain ⟨frame', blocks'⟩ := ih run
            exact ⟨frame.trans frame', blocks'.trans blocks⟩
      · exact fun e => by cases e

/-! ## The whole function -/

/-- A function as the reader returns it. -/
structure Returned (f : Function) : Prop where
  name : Text.isIdentifier f.name.toList = true
  named : f.Named
  numbered : f.Numbered
  productive : ∀ b, ∀ i ∈ f.body b, i.result.isSome = i.op.producesValue
  wellFormed : f.WellFormed

theorem body_of_blocks {b : BlockId} (h : f'.blocks = f.blocks) : f'.body b = f.body b := by
  rw [body, body, block, block, h]

theorem Numbered.of_frame (h : f.Numbered) (frame : SameFrame f f') (blocks : f'.blocks = f.blocks) :
    f'.Numbered := by
  refine ⟨by rw [frame.layout, h.layout, blockIds, blockIds, blocks], ?_⟩
  have defined : f'.defined = f.defined := by
    simp only [Function.defined, frame.layout, body_of_blocks blocks]
  rw [defined, frame.params, h.values, valueIds, valueIds, frame.sizeValues]

theorem function_eq_ok {first : Line} {body : List Line} (run : function first body = .ok f) :
    Returned f := by
  unfold function at run
  rw [bind_eq_ok_iff] at run
  obtain ⟨f₁, head, run⟩ := run
  rw [bind_eq_ok_iff] at run
  obtain ⟨o, lines, run⟩ := run
  rw [bind_eq_ok_iff] at run
  obtain ⟨⟨f₂, untyped⟩, pass, run⟩ := run
  rw [bind_eq_ok_iff] at run
  obtain ⟨f₃, types, run⟩ := run
  obtain ⟨declared, identifier⟩ := header_eq_ok head
  have kept := foldlM_ok_induction (fun o => Outlined o ∧ o.function.name = f₁.name)
    (fun o line o' h step => ?_) ⟨declared.outlined, rfl⟩ lines
  · obtain ⟨outlined, name⟩ := kept
    obtain ⟨is, placed⟩ := outlined.placed pass
    obtain ⟨frame, blocks⟩ := inferTypes_frame types
    have wellFormed : f₃.WellFormed ∧ f₃ = f := by
      split at run
      · next valid =>
        cases run
        exact ⟨validate_eq_ok_iff.1 valid, rfl⟩
      · cases run
    obtain ⟨wellFormed, rfl⟩ := wellFormed
    refine ⟨?_, (placed.frame.trans frame).named outlined.named,
      Numbered.of_frame (placed.numbered outlined) frame blocks, fun b i hi => ?_, wellFormed⟩
    · rw [frame.name, placed.frame.name, name]
      exact identifier
    · rw [body_of_blocks blocks, placed.bodies] at hi
      obtain ⟨x, hx, rfl⟩ := List.mem_map.mp hi
      exact placed.productive x (List.mem_filter.mp hx).1
  · refine ⟨h.1.outline step, ?_⟩
    cases outline_eq_ok step with
    | label => exact h.2
    | effect => exact h.2
    | definition => exact h.2

theorem progress_returned {p p' : Progress} {line : Line} (h : ∀ f ∈ p.functions, Returned f)
    (run : progress p line = .ok p') : ∀ f ∈ p'.functions, Returned f := by
  unfold progress at run
  split at run
  · cases run
    exact h
  · split at run
    · split at run
      · cases run
        exact h
      · cases run
    · split at run
      · obtain ⟨f, read, run⟩ := bind_eq_ok_iff.1 run
        split at run
        · cases run
        · cases run
          intro g hg
          rcases List.mem_append.mp hg with hg | hg
          · exact h g hg
          · rw [List.mem_singleton.mp hg]
            exact function_eq_ok read
      · cases run
        exact h

end Reader

theorem Program.returned_of_read {text : String} {p : Program} (run : Program.read text = .ok p) :
    ∀ f ∈ p.functions, Reader.Returned f := by
  unfold Program.read at run
  rw [bind_eq_ok_iff] at run
  obtain ⟨last, lines, run⟩ := run
  have all := foldlM_ok_induction (fun q : Reader.Progress => ∀ f ∈ q.functions, Reader.Returned f)
    (fun q line q' h step => Reader.progress_returned h step) (by simp) lines
  split at run
  · cases run
  · cases run
    exact all

end CheckpointRestart
