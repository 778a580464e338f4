import CheckpointRestart.Proofs.Program.Reader.Lines
import CheckpointRestart.Proofs.Program.Reader.Outcome

/-! # The passes of the reader over what is written

Reading a function that was written gives it other numbers: the values are numbered in the order in
which they are written, the parameters first, and the blocks in the order of the layout. The first
pass over the lines names them, the second one fills in the instructions and the types that are
spelled out.
-/

namespace CheckpointRestart

open Text

def Instruction.reread (ρ : ValueId → ValueId) (β : BlockId → BlockId) (i : Instruction) : Instruction :=
  ⟨i.result.map ρ, i.op.reread ρ β⟩

namespace Function

variable (g : Function)

/-- The values that the text names, in its order. -/
def named : List ValueId :=
  g.params ++ g.defined

def newValueId (v : ValueId) : ValueId :=
  ⟨g.named.idxOf v⟩

def newBlockId (b : BlockId) : BlockId :=
  ⟨g.layout.idxOf b⟩

def resultType (i : Instruction) : Ty :=
  (i.result.map g.valueType).getD .void

/-- The type of a value as far as the first line and these instructions spell it out. -/
def spelledType (is : List (BlockId × Instruction)) (v : ValueId) : Ty :=
  if v ∈ g.params then g.valueType v
  else ((is.find? (·.2.result == some v)).bind fun x => x.2.op.spelled? (g.valueType v)).getD .void

/-- The function as it is read with these of its instructions. -/
def renumbered (is : List (BlockId × Instruction)) : Function where
  name := g.name
  params := (List.range g.params.length).map ValueId.mk
  returns := g.returns
  values := (g.named.map fun v => ⟨g.valueName v, g.spelledType is v⟩).toArray
  blocks := (g.layout.map fun b =>
    ⟨g.blockName b, (is.filter (·.1 = b)).map (·.2.reread g.newValueId g.newBlockId)⟩).toArray
  layout := (List.range g.layout.length).map BlockId.mk

/-- What the text of an instruction needs in order to be read. -/
structure LegibleInstruction (i : Instruction) : Prop where
  uses : ∀ v ∈ i.op.usedValues, v ∈ g.named
  constants : ∀ k, .const k ∈ i.op.operands → k.Legal
  blocks : ∀ b ∈ i.op.targets ++ i.op.sources, b ∈ g.layout
  types : ∀ t ∈ i.op.types, t.Legal ∧ t.isVoid = false
  merged : i.op.isPhi = true → (g.resultType i).Legal
  callee : ∀ name args, i.op = .call name args → IsCallee name
  productive : i.result.isSome = i.op.producesValue

/-- What the text of a function needs in order to be read. -/
structure Legible : Prop where
  name : isIdentifier g.name.toList = true
  values : ∀ v ∈ g.named, isIdentifier (g.valueName v).toList = true
  blocks : ∀ b ∈ g.layout, isIdentifier (g.blockName b).toList = true
  distinctValues : (g.named.map g.valueName).Nodup
  distinctBlocks : (g.layout.map g.blockName).Nodup
  params : ∀ p ∈ g.params, (g.valueType p).Legal ∧ (g.valueType p).isVoid = false
  returns : g.returns.Legal
  instructions : ∀ b ∈ g.layout, ∀ i ∈ g.body b, g.LegibleInstruction i

variable {g}

theorem Legible.signature (h : g.Legible) : Reader.Signature g where
  name := h.name
  params p hp := h.values p (List.mem_append_left _ hp)
  types := h.params
  distinct := by
    have := h.distinctValues
    rw [named, List.map_append, List.nodup_append] at this
    exact this.1
  returns := h.returns

theorem Legible.nodup_named (h : g.Legible) : g.named.Nodup :=
  h.distinctValues.of_map _

theorem Legible.nodup_layout (h : g.Legible) : g.layout.Nodup :=
  h.distinctBlocks.of_map _

end Function

/-! ## Members of lists without repetition -/

section Members

variable {α β : Type} [DecidableEq α] {xs : List α} {x : α} {image image' : α → β}

theorem findIdx?_map_eq {key : α → String} {keyOf : β → String} (same : ∀ x, keyOf (image x) = key x)
    (distinct : (xs.map key).Nodup) (mem : x ∈ xs) :
    (xs.map image).toArray.findIdx? (keyOf · == key x) = some (xs.idxOf x) := by
  rw [List.findIdx?_toArray]
  induction xs with
  | nil => cases mem
  | cons y ys ih =>
    rw [List.map_cons, List.nodup_cons] at distinct
    rw [List.map_cons, List.findIdx?_cons, same]
    by_cases e : y = x
    · subst e
      simp
    · have mem := (List.mem_cons.mp mem).resolve_left (Ne.symm e)
      have ne : key y ≠ key x := fun k => distinct.1 (k ▸ List.mem_map_of_mem mem)
      rw [if_neg (by simpa using ne), ih distinct.2 mem, List.idxOf_cons_ne _ e]
      rfl

theorem modify_map_eq {change : β → β} (nodup : xs.Nodup) (mem : x ∈ xs)
    (here : image' x = change (image x)) (elsewhere : ∀ y ∈ xs, y ≠ x → image' y = image y) :
    (xs.map image).toArray.modify (xs.idxOf x) change = (xs.map image').toArray := by
  refine Array.ext_getElem? fun j => ?_
  rw [Array.getElem?_modify, List.getElem?_toArray, List.getElem?_toArray, List.getElem?_map,
    List.getElem?_map]
  split
  · next e =>
    subst e
    rw [List.getElem?_idxOf mem]
    simp [here]
  · next ne =>
    cases found : xs[j]? with
    | none => rfl
    | some y =>
      have other : y ≠ x := by
        rintro rfl
        obtain ⟨lt, e⟩ := List.getElem?_eq_some_iff.mp found
        exact ne (e ▸ nodup.idxOf_getElem j lt)
      simp [elsewhere y (List.mem_of_getElem? found) other]

end Members

/-! ## Names in the function being read -/

namespace Function

variable {g : Function} {is : List (BlockId × Instruction)} {v : ValueId} {b : BlockId}

theorem valueNamed?_renumbered (h : g.Legible) (mem : v ∈ g.named) :
    (g.renumbered is).valueNamed? (g.valueName v) = some (g.newValueId v) := by
  have found : (g.named.map fun v => ValueInfo.mk (g.valueName v) (g.spelledType is v)).toArray.findIdx?
      (ValueInfo.name · == g.valueName v) = some (g.named.idxOf v) :=
    findIdx?_map_eq (fun _ => rfl) h.distinctValues mem
  rw [valueNamed?, renumbered, found]
  rfl

theorem blockNamed?_renumbered (h : g.Legible) (mem : b ∈ g.layout) :
    (g.renumbered is).blockNamed? (g.blockName b) = some (g.newBlockId b) := by
  have found : (g.layout.map fun b => Block.mk (g.blockName b)
      ((is.filter (·.1 = b)).map (·.2.reread g.newValueId g.newBlockId))).toArray.findIdx?
      (Block.name · == g.blockName b) = some (g.layout.idxOf b) :=
    findIdx?_map_eq (fun _ => rfl) h.distinctBlocks mem
  rw [blockNamed?, renumbered, found]
  rfl

/-- An instruction can be read in the function that has the same names. -/
theorem LegibleInstruction.reads {i : Instruction} (hi : g.LegibleInstruction i) (h : g.Legible)
    (is : List (BlockId × Instruction)) (line : Nat) : Reader.Context.Reads ⟨g.renumbered is, line⟩ g g.newValueId g.newBlockId
      (g.resultType i) i.op where
  operands x hx := by
    cases x with
    | value v =>
      have mem := hi.uses v (List.mem_filterMap.mpr ⟨.value v, hx, rfl⟩)
      exact ⟨h.values v mem, valueNamed?_renumbered h mem⟩
    | const k => exact hi.constants k hx
  blocks b hb := ⟨h.blocks b (hi.blocks b hb), blockNamed?_renumbered h (hi.blocks b hb)⟩
  types := hi.types
  merged := hi.merged
  callee := hi.callee

end Function

/-! ## The first pass -/

namespace Reader

variable {g : Function}

/-- The function with the values and blocks named so far. -/
def outlined (g : Function) (vs : List ValueId) (bs : List BlockId) : Function where
  name := g.name
  params := (List.range g.params.length).map ValueId.mk
  returns := g.returns
  values := (vs.map fun v => ⟨g.valueName v, g.spelledType [] v⟩).toArray
  blocks := (bs.map fun b => ⟨g.blockName b, []⟩).toArray
  layout := (List.range bs.length).map BlockId.mk

theorem declared_eq_outlined (g : Function) : declared g g.params = outlined g g.params [] := by
  have values : g.params.map g.valueInfo =
      g.params.map fun v => ⟨g.valueName v, g.spelledType [] v⟩ := by
    refine List.map_congr_left fun v hv => ?_
    rw [Function.spelledType, if_pos hv]
    rfl
  simp [declared, outlined, values]

/-- What an instruction line still to be read holds, apart from its place in the text. -/
def Pending.content (p : Pending) : BlockId × Option ValueId × List Char :=
  (p.block, p.result, p.text)

/-- What is still to be read of an instruction once its line is outlined. -/
def pendingContent (g : Function) (x : BlockId × Instruction) : BlockId × Option ValueId × List Char :=
  (g.newBlockId x.1, x.2.result.map g.newValueId, (g.renderOp (g.resultType x.2) x.2.op).toList)

theorem valueNamed?_outlined {vs : List ValueId} {bs : List BlockId} {n : String}
    (new : n ∉ vs.map g.valueName) : (outlined g vs bs).valueNamed? n = none := by
  rw [Function.valueNamed?_eq_none_iff]
  intro info mem e
  simp only [outlined, List.mem_toArray, List.mem_map] at mem
  obtain ⟨q, hq, rfl⟩ := mem
  exact new (List.mem_map.mpr ⟨q, hq, e⟩)

theorem blockNamed?_outlined {vs : List ValueId} {bs : List BlockId} {n : String}
    (new : n ∉ bs.map g.blockName) : (outlined g vs bs).blockNamed? n = none := by
  rw [Function.blockNamed?_eq_none_iff]
  intro block mem e
  simp only [outlined, List.mem_toArray, List.mem_map] at mem
  obtain ⟨q, hq, rfl⟩ := mem
  exact new (List.mem_map.mpr ⟨q, hq, e⟩)

theorem not_mem_of_nodup_append {α : Type} {xs ys : List α} {y : α} (h : (xs ++ y :: ys).Nodup) : y ∉ xs :=
  fun old => (List.nodup_append.mp h).2.2 y old y List.mem_cons_self rfl

theorem newValueId_of_split {vs later : List ValueId} {v : ValueId} (h : g.Legible)
    (split : g.named = vs ++ v :: later) : g.newValueId v = ⟨vs.length⟩ := by
  have nodup := h.nodup_named
  rw [split] at nodup
  rw [Function.newValueId, split, List.idxOf_append_of_notMem (not_mem_of_nodup_append nodup),
    List.idxOf_cons_self, Nat.add_zero]

theorem newBlockId_of_split {bs later : List BlockId} {b : BlockId} (h : g.Legible)
    (split : g.layout = bs ++ b :: later) : g.newBlockId b = ⟨bs.length⟩ := by
  have nodup := h.nodup_layout
  rw [split] at nodup
  rw [Function.newBlockId, split, List.idxOf_append_of_notMem (not_mem_of_nodup_append nodup),
    List.idxOf_cons_self, Nat.add_zero]

def instructionText (g : Function) (i : Instruction) : List Char :=
  (g.renderInstruction i).toList

theorem instructionText_eq (g : Function) (i : Instruction) : instructionText g i =
    match i.result with
    | some v => '%' :: ((g.valueName v).toList ++ (" = ".toList ++ (g.renderOp (g.resultType i) i.op).toList))
    | none => (g.renderOp (g.resultType i) i.op).toList := by
  unfold instructionText Function.renderInstruction Function.resultType
  cases i.result with
  | some v => simp
  | none => rfl

theorem newValue_outlined {vs later : List ValueId} {v : ValueId} (bs : List BlockId) (h : g.Legible)
    (front : g.params <+: vs) (split : g.named = vs ++ v :: later) :
    (outlined g vs bs).valueNamed? (g.valueName v) = none ∧
      (outlined g vs bs).newValue (g.valueName v) .void = (g.newValueId v, outlined g (vs ++ [v]) bs) := by
  have nodup := h.distinctValues
  rw [split, List.map_append] at nodup
  have new : (outlined g vs bs).valueNamed? (g.valueName v) = none :=
    valueNamed?_outlined (not_mem_of_nodup_append nodup)
  have local_ : v ∉ g.params := fun given => not_mem_of_nodup_append nodup
    (List.mem_map_of_mem (front.subset given))
  refine ⟨new, ?_⟩
  rw [Function.newValue_of_new _ new, newValueId_of_split h split]
  simp [outlined, Function.spelledType, local_]

theorem addBlock_outlined {bs later : List BlockId} {b : BlockId} (vs : List ValueId) (h : g.Legible)
    (split : g.layout = bs ++ b :: later) :
    (outlined g vs bs).blockNamed? (g.blockName b) = none ∧
      (outlined g vs bs).addBlock (g.blockName b) = (g.newBlockId b, outlined g vs (bs ++ [b])) := by
  have nodup := h.distinctBlocks
  rw [split, List.map_append] at nodup
  have new : (outlined g vs bs).blockNamed? (g.blockName b) = none :=
    blockNamed?_outlined (not_mem_of_nodup_append nodup)
  refine ⟨new, ?_⟩
  rw [Function.addBlock_of_new new, newBlockId_of_split h split]
  simp [outlined, List.range_succ]

theorem outline_instruction {vs later : List ValueId} {i : Instruction} {line : Line} (bs : List BlockId)
    (b : BlockId) (ps : List Pending) (h : g.Legible) (hi : g.LegibleInstruction i) (front : g.params <+: vs)
    (split : g.named = vs ++ (i.result.toList ++ later)) (written : line.text = instructionText g i) :
    ∃ p, outline ⟨outlined g vs bs, some (g.newBlockId b), ps⟩ line =
        .ok ⟨outlined g (vs ++ i.result.toList) bs, some (g.newBlockId b), ps ++ [p]⟩ ∧
      p.content = pendingContent g (b, i) := by
  have statement := Context.statement_text (hi.reads h [] 0)
  rw [instructionText_eq] at written
  cases result : i.result with
  | none =>
    rw [result] at written
    refine ⟨⟨line.number, g.newBlockId b, none, line.text⟩, ?_, ?_⟩
    · rw [outline_effect (written ▸ statement) rfl]
      simp
    · simp [Pending.content, pendingContent, result, written]
  | some v =>
    rw [result] at written split
    have mem : v ∈ g.named := by simp [split]
    obtain ⟨new, value⟩ := newValue_outlined bs h front split
    have read := outline_definition (o := ⟨outlined g vs bs, some (g.newBlockId b), ps⟩) written
      (h.values v mem) statement (by rwa [String.ofList_toList]) rfl
    rw [String.ofList_toList, value] at read
    refine ⟨_, read, ?_⟩
    simp [Pending.content, pendingContent, result]

theorem outline_body {vs later : List ValueId} {is : List Instruction} {lines : List Line}
    (bs : List BlockId) (b : BlockId) (ps : List Pending) (h : g.Legible) (his : ∀ i ∈ is, g.LegibleInstruction i)
    (front : g.params <+: vs) (split : g.named = vs ++ (results is ++ later))
    (written : lines.map (·.text) = is.map (instructionText g)) :
    ∃ qs, lines.foldlM outline ⟨outlined g vs bs, some (g.newBlockId b), ps⟩ =
        .ok ⟨outlined g (vs ++ results is) bs, some (g.newBlockId b), ps ++ qs⟩ ∧
      qs.map Pending.content = is.map fun i => pendingContent g (b, i) := by
  induction is generalizing vs ps lines with
  | nil =>
    cases List.map_eq_nil_iff.mp written
    exact ⟨[], by simp [pure, Except.pure], rfl⟩
  | cons i is ih =>
    cases lines with
    | nil => cases written
    | cons line lines =>
      rw [List.map_cons, List.map_cons, List.cons.injEq] at written
      rw [results_cons, List.append_assoc] at split
      obtain ⟨p, first, content⟩ :=
        outline_instruction bs b ps h (his i List.mem_cons_self) front split written.1
      obtain ⟨qs, rest, contents⟩ := ih (ps ++ [p]) (fun j hj => his j (List.mem_cons_of_mem _ hj))
        (front.trans (List.prefix_append _ _)) (by rw [split, List.append_assoc]) written.2
      refine ⟨p :: qs, ?_, by rw [List.map_cons, content, contents]; rfl⟩
      rw [List.foldlM_cons, first, ok_bind, rest, results_cons]
      simp

def blockTexts (g : Function) (b : BlockId) : List (List Char) :=
  ((g.blockName b).toList ++ [':']) :: (g.body b).map (instructionText g)

theorem outline_blocks {vs : List ValueId} {bs todo : List BlockId} {lines : List Line}
    (current : Option BlockId) (ps : List Pending) (h : g.Legible) (layout : g.layout = bs ++ todo)
    (values : vs = g.params ++ bs.flatMap fun b => results (g.body b))
    (written : lines.map (·.text) = todo.flatMap (blockTexts g)) :
    ∃ qs last, lines.foldlM outline ⟨outlined g vs bs, current, ps⟩ =
        .ok ⟨g.renumbered [], last, ps ++ qs⟩ ∧
      qs.map Pending.content = (todo.flatMap fun b => (g.body b).map fun i => (b, i)).map
        (pendingContent g) := by
  induction todo generalizing vs bs current ps lines with
  | nil =>
    cases List.map_eq_nil_iff.mp written
    rw [List.append_nil] at layout
    refine ⟨[], current, ?_, rfl⟩
    rw [values, ← layout, List.append_nil]
    rfl
  | cons b todo ih =>
    rw [List.flatMap_cons, List.map_eq_append_iff] at written
    obtain ⟨here, there, rfl, first, rest⟩ := written
    cases here with
    | nil => cases first
    | cons label here =>
      rw [blockTexts, List.map_cons, List.cons.injEq] at first
      have mem : b ∈ g.layout := by simp [layout]
      have split : g.named = vs ++ (results (g.body b) ++ todo.flatMap fun b => results (g.body b)) := by
        simp [Function.named, Function.defined, layout, values]
      obtain ⟨new, block⟩ := addBlock_outlined vs h layout
      have head := outline_label (o := ⟨outlined g vs bs, current, ps⟩) first.1 (h.blocks b mem)
        (by rwa [String.ofList_toList])
      rw [String.ofList_toList, block] at head
      obtain ⟨qs, body, contents⟩ := outline_body (bs ++ [b]) b ps h (h.instructions b mem)
        (values ▸ List.prefix_append _ _) split first.2
      have values' : vs ++ results (g.body b) =
          g.params ++ (bs ++ [b]).flatMap fun b => results (g.body b) := by simp [values]
      obtain ⟨rs, last, tail, more⟩ := ih (some (g.newBlockId b)) (ps ++ qs) (by rw [layout]; simp)
        values' rest
      refine ⟨qs ++ rs, last, ?_, ?_⟩
      · rw [List.cons_append, List.foldlM_cons, head, ok_bind, List.foldlM_append, body, ok_bind, tail,
          List.append_assoc]
      · simp [contents, more]

end Reader

/-! ## The second pass -/

/-- The result of an instruction if its type is not spelled out. -/
def Instruction.inferred? (i : Instruction) : Option ValueId :=
  if (i.op.spelled? .void).isNone then i.result else none

theorem Op.producesValue_reread (ρ : ValueId → ValueId) (β : BlockId → BlockId) (op : Op) :
    (op.reread ρ β).producesValue = op.producesValue := by
  cases op with
  | session call => cases call <;> rfl
  | _ => rfl

theorem Op.isNone_spelled? (op : Op) (t u : Ty) : (op.spelled? t).isNone = (op.spelled? u).isNone := by
  cases op <;> rfl

namespace Function

variable {g : Function} {done later : List (BlockId × Instruction)} {b : BlockId} {i : Instruction}
  {v : ValueId}

theorem mem_instructions_iff : (b, i) ∈ g.instructions ↔ b ∈ g.layout ∧ i ∈ g.body b := by
  simp [instructions]

theorem defined_eq_filterMap (g : Function) : g.defined = g.instructions.filterMap (·.2.result) := by
  rw [defined, instructions, List.filterMap_flatMap]
  refine List.flatMap_congr fun b _ => ?_
  rw [List.filterMap_map]
  rfl

theorem spelledType_append_of_ne (ne : i.result ≠ some v) :
    g.spelledType (done ++ [(b, i)]) v = g.spelledType done v := by
  have none : ([(b, i)] : List (BlockId × Instruction)).find? (·.2.result == some v) = none := by
    simp [ne]
  rw [spelledType, spelledType, List.find?_append, none, Option.or_none]

theorem Legible.fresh_result (h : g.Legible) (split : g.instructions = done ++ (b, i) :: later)
    (result : i.result = some v) : v ∈ g.named ∧ v ∉ g.params ∧
      done.find? (·.2.result == some v) = none := by
  have nodup := h.nodup_named
  have all : g.named = (g.params ++ done.filterMap (·.2.result)) ++ v :: later.filterMap (·.2.result) := by
    have step : ((b, i) :: later).filterMap (·.2.result) = v :: later.filterMap (·.2.result) :=
      List.filterMap_cons_some result
    rw [named, defined_eq_filterMap, split, List.filterMap_append, step, List.append_assoc]
  rw [all] at nodup
  have new := Reader.not_mem_of_nodup_append nodup
  rw [List.mem_append, not_or] at new
  refine ⟨by simp [all], new.1, List.find?_eq_none.mpr fun x hx found => new.2 ?_⟩
  exact List.mem_filterMap.mpr ⟨x, hx, by simpa using found⟩

theorem spelledType_append_self (given : v ∉ g.params) (fresh : done.find? (·.2.result == some v) = none)
    (result : i.result = some v) :
    g.spelledType (done ++ [(b, i)]) v = (i.op.spelled? (g.valueType v)).getD .void ∧
      g.spelledType done v = .void := by
  have found : ([(b, i)] : List (BlockId × Instruction)).find? (·.2.result == some v) = some (b, i) := by
    simp [result]
  constructor
  · rw [spelledType, if_neg given, List.find?_append, fresh, Option.none_or, found]
    rfl
  · rw [spelledType, if_neg given, fresh]
    rfl

theorem append_renumbered (done : List (BlockId × Instruction)) (i : Instruction) (h : g.Legible)
    (mem : b ∈ g.layout) :
    (g.renumbered done).append (g.newBlockId b) (i.reread g.newValueId g.newBlockId) =
      { g.renumbered done with blocks := (g.renumbered (done ++ [(b, i)])).blocks } := by
  have blocks : (g.renumbered done).blocks.modify (g.layout.idxOf b)
      (Block.mapBody (· ++ [i.reread g.newValueId g.newBlockId])) =
      (g.renumbered (done ++ [(b, i)])).blocks := by
    refine modify_map_eq h.nodup_layout mem ?_ fun c _ ne => ?_
    · simp [Block.mapBody]
    · simp [Ne.symm ne]
  simp only [append, modifyBody]
  rw [← blocks]
  rfl

theorem renumbered_append_of_void
    (same : ∀ w ∈ g.named, g.spelledType (done ++ [(b, i)]) w = g.spelledType done w) :
    { g.renumbered done with blocks := (g.renumbered (done ++ [(b, i)])).blocks } =
      g.renumbered (done ++ [(b, i)]) := by
  have values : g.named.map (fun v => ValueInfo.mk (g.valueName v) (g.spelledType (done ++ [(b, i)]) v)) =
      g.named.map fun v => ⟨g.valueName v, g.spelledType done v⟩ :=
    List.map_congr_left fun w hw => by rw [same w hw]
  simp only [renumbered, values]

theorem renumbered_append_of_type {t : Ty} (h : g.Legible) (mem : v ∈ g.named) (result : i.result = some v)
    (here : g.spelledType (done ++ [(b, i)]) v = t) :
    ({ g.renumbered done with blocks := (g.renumbered (done ++ [(b, i)])).blocks } : Function).setValueType
      (g.newValueId v) t = g.renumbered (done ++ [(b, i)]) := by
  have values : (g.renumbered done).values.modify (g.named.idxOf v) (fun info => { info with type := t }) =
      (g.renumbered (done ++ [(b, i)])).values := by
    refine modify_map_eq h.nodup_named mem ?_ fun w _ ne => ?_
    · rw [here]
    · rw [spelledType_append_of_ne (by rw [result]; simpa using Ne.symm ne)]
  simp only [setValueType]
  rw [show (g.newValueId v).index = g.named.idxOf v from rfl, values]
  rfl

end Function

namespace Reader

variable {g : Function} {done later : List (BlockId × Instruction)} {b : BlockId} {i : Instruction}

theorem readPending_text {p : Pending} (untyped : List (Nat × ValueId)) (h : g.Legible)
    (split : g.instructions = done ++ (b, i) :: later) (content : p.content = pendingContent g (b, i)) :
    readPending (g.renumbered done, untyped) p = .ok (g.renumbered (done ++ [(b, i)]),
      untyped ++ i.inferred?.toList.map fun v => (p.line, g.newValueId v)) := by
  obtain ⟨mem, hi⟩ := Function.mem_instructions_iff.1 (split ▸ List.mem_append_right _ List.mem_cons_self)
  have legible := h.instructions b mem i hi
  have read := Context.instruction_text (legible.reads h done p.line)
  have block : p.block = g.newBlockId b := congrArg (·.1) content
  have defined : p.result = i.result.map g.newValueId := congrArg (·.2.1) content
  have text : p.text = (g.renderOp (g.resultType i) i.op).toList := congrArg (·.2.2) content
  have produces := legible.productive
  rw [readPending]
  simp only [text, read, ok_bind, Op.producesValue_reread, block, defined]
  have placed := Function.append_renumbered done i h mem
  rw [Instruction.reread] at placed
  cases result : i.result with
  | none =>
    rw [result] at produces placed
    have same : ∀ w ∈ g.named, g.spelledType (done ++ [(b, i)]) w = g.spelledType done w :=
      fun w _ => Function.spelledType_append_of_ne (by simp [result])
    have inferred : i.inferred? = none := by simp [Instruction.inferred?, result]
    rw [← produces, inferred, ← Function.renumbered_append_of_void same, ← placed, Option.toList_none,
      List.map_nil, List.append_nil]
    rfl
  | some v =>
    rw [result] at produces placed
    obtain ⟨named, given, fresh⟩ := h.fresh_result split result
    obtain ⟨here, before⟩ := Function.spelledType_append_self (b := b) given fresh result
    have type : g.resultType i = g.valueType v := by simp [Function.resultType, result]
    rw [← produces, type]
    cases spelled : i.op.spelled? (g.valueType v) with
    | some t =>
      rw [spelled] at here
      have inferred : i.inferred? = none := by
        rw [Instruction.inferred?, i.op.isNone_spelled? _ (g.valueType v), spelled]
        rfl
      rw [inferred, ← Function.renumbered_append_of_type h named result here, ← placed,
        Option.toList_none, List.map_nil, List.append_nil]
      rfl
    | none =>
      rw [spelled] at here
      have inferred : i.inferred? = some v := by
        rw [Instruction.inferred?, i.op.isNone_spelled? _ (g.valueType v), spelled, result]
        rfl
      have same : ∀ w ∈ g.named, g.spelledType (done ++ [(b, i)]) w = g.spelledType done w := by
        intro w _
        by_cases e : w = v
        · rw [e, here, before]
          rfl
        · exact Function.spelledType_append_of_ne (by rw [result]; simpa using Ne.symm e)
      rw [inferred, ← Function.renumbered_append_of_void same, ← placed]
      rfl

theorem readPending_all {todo : List (BlockId × Instruction)} {ps : List Pending}
    (untyped : List (Nat × ValueId)) (h : g.Legible) (split : g.instructions = done ++ todo)
    (contents : ps.map Pending.content = todo.map (pendingContent g)) :
    ∃ more, ps.foldlM readPending (g.renumbered done, untyped) =
        .ok (g.renumbered g.instructions, untyped ++ more) ∧
      more.map (·.2) = (todo.filterMap (·.2.inferred?)).map g.newValueId := by
  induction todo generalizing done ps untyped with
  | nil =>
    cases List.map_eq_nil_iff.mp contents
    rw [List.append_nil] at split
    exact ⟨[], by simp [split, pure, Except.pure], rfl⟩
  | cons x todo ih =>
    obtain ⟨b, i⟩ := x
    cases ps with
    | nil => cases contents
    | cons p ps =>
      rw [List.map_cons, List.map_cons, List.cons.injEq] at contents
      obtain ⟨more, rest, values⟩ := ih
        (untyped ++ i.inferred?.toList.map fun v => (p.line, g.newValueId v))
        (show g.instructions = (done ++ [(b, i)]) ++ todo by simp [split]) contents.2
      refine ⟨i.inferred?.toList.map (fun v => (p.line, g.newValueId v)) ++ more, ?_, ?_⟩
      · rw [List.foldlM_cons, readPending_text untyped h split contents.1, ok_bind, rest,
          List.append_assoc]
      · rw [List.map_append, values]
        cases e : i.inferred? <;> simp [e]

end Reader

end CheckpointRestart
