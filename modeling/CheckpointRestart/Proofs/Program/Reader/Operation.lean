import CheckpointRestart.Proofs.Effects
import CheckpointRestart.Proofs.Program.Tokens

/-! # Operations are read back

What is written for an operation is read as the same operation in any function in which the names
stand for something: values and blocks get the numbers that they have there, and constants the one
NaN of their type.
-/

namespace CheckpointRestart

open Text

theorem ok_bind {ε α β : Type} (a : α) (k : α → Except ε β) : (Except.ok a >>= k) = k a := rfl

theorem mapM_map_eq_ok {ε α β γ : Type} {read : β → Except ε γ} {write : α → β} {image : α → γ}
    {xs : List α} (h : ∀ x ∈ xs, read (write x) = .ok (image x)) :
    (xs.map write).mapM read = .ok (xs.map image) := by
  induction xs with
  | nil => rfl
  | cons x xs ih =>
    rw [List.map_cons, List.mapM_cons, h x List.mem_cons_self, ih fun y hy => h y (List.mem_cons_of_mem _ hy)]
    rfl

theorem forall_mem_pair {α : Type} {holds : α → Prop} {x y : α} (hx : holds x) (hy : holds y) :
    ∀ z ∈ [x, y], holds z :=
  List.forall_mem_cons.mpr ⟨hx, List.forall_mem_singleton.mpr hy⟩

theorem forall_mem_triple {α : Type} {holds : α → Prop} {x y z : α} (hx : holds x) (hy : holds y)
    (hz : holds z) : ∀ w ∈ [x, y, z], holds w :=
  List.forall_mem_cons.mpr ⟨hx, forall_mem_pair hy hz⟩

theorem commaSeparated_toList (parts : List String) :
    (commaSeparated parts).toList = commaJoin (parts.map String.toList) :=
  String.toList_intercalate

/-! ## What is read -/

def Operand.reread (ρ : ValueId → ValueId) : Operand → Operand
  | value v => value (ρ v)
  | const c => const c.canonical

namespace Op

/-- The blocks that incoming values of a merge come from. -/
def sources : Op → List BlockId
  | phi incoming => incoming.map (·.2)
  | _ => []

/-- The operation with other numbers of values and blocks, and one NaN for each type. -/
def reread (ρ : ValueId → ValueId) (β : BlockId → BlockId) (op : Op) : Op :=
  ((op.mapOperands (Operand.reread ρ)).mapTargets β).mapPhiBlocks β

theorem reread_phi (ρ : ValueId → ValueId) (β : BlockId → BlockId) (pairs : List (Operand × BlockId)) :
    (phi pairs).reread ρ β = phi (pairs.map fun p => (p.1.reread ρ, β p.2)) := by
  simp [reread, mapOperands, mapTargets, mapPhiBlocks]

theorem reread_switch (ρ : ValueId → ValueId) (β : BlockId → BlockId) (x : Operand) (d : BlockId)
    (cases : List (Int64 × BlockId)) : (switch x d cases).reread ρ β =
      switch (x.reread ρ) (β d) (cases.map fun arm => (arm.1, β arm.2)) := by
  simp [reread, mapOperands, mapTargets, mapPhiBlocks]

/-- The type of the result if the text spells it out. -/
def spelled? (type : Ty) : Op → Option Ty
  | alloca t _ => some (.ptr t)
  | malloc _ => some .bytePtr
  | phi _ => some type
  | cast _ t => some t
  | compare _ _ _ => some (.int 1)
  | session c => if c.resultType.isVoid then none else some c.resultType
  | _ => none

/-- The types written in an operation, other than that of its result. -/
def types : Op → List Ty
  | alloca t _ | cast _ t => [t]
  | _ => []

/-- The word that an operation begins with. -/
def mnemonic : Op → String
  | alloca _ _ => "alloca"
  | malloc _ => "malloc"
  | free _ => "free"
  | phi _ => "phi"
  | gep _ _ => "gep"
  | cast _ _ => "cast"
  | load _ => "load"
  | store _ _ => "store"
  | binary op _ _ => op.mnemonic
  | compare _ _ _ => "cmp"
  | call _ _ => "call"
  | session c => c.mnemonic
  | br _ => "br"
  | condBr _ _ _ => "condbr"
  | switch _ _ _ => "switch"
  | ret _ => "ret"

/-- Operations that are written as a mnemonic alone. -/
def isBare : Op → Bool
  | ret none => true
  | session .setup | session .finish | session .restartLabel | session .restartFinish => true
  | _ => false

end Op

/-- The name of a function that can be called: it is told from the arguments and from a result. -/
structure IsCallee (name : String) : Prop where
  trimmed : trim name.toList = name.toList
  opening : '(' ∉ name.toList
  line : '\n' ∉ name.toList
  single : ¬ [' ', '=', ' '] <:+: name.toList

/-! ## What is written -/

namespace Function

variable (f : Function)

def operandText (x : Operand) : List Char :=
  (f.renderOperand x).toList

def labelText (b : BlockId) : List Char :=
  (f.blockName b).toList

/-- One incoming value of a merge. -/
def incomingText (p : Operand × BlockId) : List Char :=
  '[' :: (commaJoin [f.operandText p.1, f.labelText p.2] ++ [']'])

/-- One arm of a switch. -/
def armText (arm : Int64 × BlockId) : List Char :=
  (toString arm.1.toInt).toList ++ ':' :: ' ' :: f.labelText arm.2

def candidateText (c : AliasCandidate) : List Char :=
  '[' :: (commaJoin [f.operandText c.width, f.operandText c.count, (toString c.index.toNat).toList,
    f.operandText c.address] ++ [']'])

def sessionTexts : SessionCall → List (List Char)
  | .setup | .finish | .restartLabel | .restartFinish => []
  | .start label count => [(toString label.toNat).toList, (toString count.toNat).toList]
  | .savePointer w n a | .readPointer w n a => [w, n, a].map f.operandText
  | .saveAlias w n a cs => [w, n, a].map f.operandText ++ cs.map f.candidateText
  | .readAlias w n => [w, n].map f.operandText

/-- What follows the mnemonic of an operation. -/
def arguments (type : Ty) : Op → List Char
  | .alloca t n => commaJoin [t.render.toList, (toString n.toNat).toList]
  | .malloc x | .free x | .load x | .ret (some x) => f.operandText x
  | .phi [] => type.render.toList
  | .phi (p :: ps) => type.render.toList ++ ' ' :: commaJoin ((p :: ps).map f.incomingText)
  | .gep x y | .store x y | .binary _ x y => commaJoin [f.operandText x, f.operandText y]
  | .cast x t => f.operandText x ++ (" to ".toList ++ t.render.toList)
  | .compare rel x y =>
    rel.mnemonic.toList ++ ' ' :: commaJoin [f.operandText x, f.operandText y]
  | .call callee args =>
    '@' :: (callee.toList ++ '(' :: (commaJoin (args.map f.operandText) ++ [')']))
  | .session c => commaJoin (f.sessionTexts c)
  | .br b => f.labelText b
  | .condBr x t e => commaJoin [f.operandText x, f.labelText t, f.labelText e]
  | .switch x d cases =>
    commaJoin [f.operandText x, f.labelText d] ++
      ' ' :: '[' :: (commaJoin (cases.map f.armText) ++ [']'])
  | .ret none => []

variable {f}

theorem incomingText_eq : f.incomingText = fun p =>
    '[' :: ((f.renderOperand p.1).toList ++ ',' :: ' ' :: ((f.blockName p.2).toList ++ [']'])) := by
  funext p
  simp [incomingText, commaJoin_cons, commaJoin_singleton, operandText, labelText]

theorem candidateText_eq (c : AliasCandidate) : (f.renderCandidate c).toList = f.candidateText c := by
  simp [renderCandidate, candidateText, operandText, commaSeparated_toList]

theorem renderSessionCall_toList (c : SessionCall) : (f.renderSessionCall c).toList =
    if (Op.session c).isBare then c.mnemonic.toList
    else c.mnemonic.toList ++ ' ' :: commaJoin (f.sessionTexts c) := by
  cases c with
  | saveAlias w n a cs =>
    simp [renderSessionCall, sessionTexts, Op.isBare, operandText, commaSeparated_toList,
      Function.comp_def, candidateText_eq]
  | _ =>
    simp [renderSessionCall, sessionTexts, Op.isBare, operandText, commaSeparated_toList]

theorem renderOp_toList (type : Ty) (op : Op) : (f.renderOp type op).toList =
    if op.isBare then op.mnemonic.toList else op.mnemonic.toList ++ ' ' :: f.arguments type op := by
  cases op with
  | session c => exact renderSessionCall_toList c
  | ret x =>
    cases x with
    | none => rfl
    | some x => simp [renderOp, arguments, operandText, Op.isBare, Op.mnemonic]
  | phi incoming =>
    cases incoming with
    | nil => simp [renderOp, arguments, Op.isBare, Op.mnemonic]
    | cons p ps =>
      simp [renderOp, arguments, Op.isBare, Op.mnemonic, commaSeparated_toList, incomingText_eq,
        Function.comp_def]
  | switch x d cases =>
    simp [renderOp, arguments, Op.isBare, Op.mnemonic, commaSeparated_toList,
      operandText, labelText, commaJoin_cons, commaJoin_singleton, Function.comp_def]
    rfl
  | call callee args =>
    simp [renderOp, arguments, Op.isBare, Op.mnemonic, commaSeparated_toList, Function.comp_def]
    rfl
  | _ =>
    simp [renderOp, arguments, Op.isBare, Op.mnemonic, commaSeparated_toList,
      operandText, labelText, commaJoin_cons, commaJoin_singleton]

end Function

/-! ## Reading -/

namespace Reader.Context

variable {c : Context} {g : Function} {ρ : ValueId → ValueId} {β : BlockId → BlockId}

/-- The names of values, as `g` has them, stand for the values `ρ` of the function being read. -/
def Knows (c : Context) (g : Function) (ρ : ValueId → ValueId) : Operand → Prop
  | .value v => isIdentifier (g.valueName v).toList = true ∧
      c.function.valueNamed? (g.valueName v) = some (ρ v)
  | .const k => k.Legal

def KnowsBlock (c : Context) (g : Function) (β : BlockId → BlockId) (b : BlockId) : Prop :=
  isIdentifier (g.blockName b).toList = true ∧ c.function.blockNamed? (g.blockName b) = some (β b)

theorem orFail_some {α : Type} (x : α) (fault : LineFault) : c.orFail (some x) fault = .ok x := rfl

theorem operandText_value (v : ValueId) : g.operandText (.value v) = '%' :: (g.valueName v).toList := by
  simp [Function.operandText, Function.renderOperand]

theorem part_operandText {x : Operand} (h : c.Knows g ρ x) : Part (g.operandText x) := by
  cases x with
  | const k => exact k.part_render
  | value v =>
    have name := part_of_isIdentifier h.1
    have percent : Closed ['%'] := closed_of_plain (List.all_eq_true.mp rfl)
    have tight : Tight (['%'] ++ ([] ++ (g.valueName v).toList)) :=
      (Tight.singleton (by decide)).append name.tight []
    rw [operandText_value]
    exact ⟨tight, percent.append name.closed⟩

def isOperandChar (x : Char) : Bool :=
  Constant.isLiteralChar x || x == ' ' || x == '%'

theorem isOperandChar_of_isWord {x : Char} (h : isWord x = true) : isOperandChar x = true := by
  simp [isOperandChar, Constant.isLiteralChar, h]

theorem isOperandChar_of_mem {x : Operand} (h : c.Knows g ρ x) :
    ∀ y ∈ g.operandText x, isOperandChar y = true := by
  intro y hy
  cases x with
  | value v =>
    rw [operandText_value] at hy
    rcases List.mem_cons.mp hy with rfl | hy
    · decide
    · exact isOperandChar_of_isWord ((isIdentifier_iff.1 h.1).2 y hy)
  | const k =>
    obtain ⟨type, literal, text, ⟨-, words⟩, -, chars⟩ := k.render_toList
    change y ∈ k.render.toList at hy
    rw [text] at hy
    rcases List.mem_append.mp hy with hy | hy
    · exact isOperandChar_of_isWord (words y hy)
    · rcases List.mem_cons.mp hy with rfl | hy
      · decide
      · simp [isOperandChar, chars y hy]

theorem part_labelText {b : BlockId} (h : c.KnowsBlock g β b) : Part (g.labelText b) :=
  part_of_isIdentifier h.1

theorem operand_text {x : Operand} (h : c.Knows g ρ x) :
    c.operand (g.operandText x) = .ok (x.reread ρ) := by
  rw [operand, (part_operandText h).tight.trim]
  cases x with
  | value v =>
    rw [operandText_value]
    simp [h.2, Operand.reread]
  | const k =>
    obtain ⟨type, literal, text, ⟨nonempty, words⟩, -⟩ := k.render_toList
    have first : ∀ name, g.operandText (.const k) ≠ '%' :: name := by
      intro name e
      change k.render.toList = _ at e
      rw [text] at e
      cases type with
      | nil => exact nonempty rfl
      | cons x type =>
        cases e
        exact absurd (words '%' List.mem_cons_self) (by decide)
    split
    · next name e => exact absurd e (first name)
    · change (c.orFail (constant? k.render.toList) _).map Operand.const = _
      rw [Constant.constant?_render h]
      rfl

theorem block_text {b : BlockId} (h : c.KnowsBlock g β b) : c.block (g.labelText b) = .ok (β b) := by
  have name : String.ofList (g.labelText b) = g.blockName b := String.ofList_toList
  simp only [block, (part_labelText h).tight.trim, name, h.2]

theorem operands_text {xs : List Operand} (h : ∀ x ∈ xs, c.Knows g ρ x) :
    c.operands xs.length (commaJoin (xs.map g.operandText)) = .ok (xs.map (·.reread ρ)) := by
  have parts : commaParts (commaJoin (xs.map g.operandText)) = xs.map g.operandText :=
    commaParts_commaJoin (by simpa using fun x hx => part_operandText (h x hx))
  rw [operands, parts, List.length_map, if_pos rfl]
  exact mapM_map_eq_ok fun x hx => operand_text (h x hx)

theorem pair_text {x y : Operand} (hx : c.Knows g ρ x) (hy : c.Knows g ρ y) :
    c.pair (commaJoin [g.operandText x, g.operandText y]) = .ok (x.reread ρ, y.reread ρ) := by
  have read := operands_text (forall_mem_pair hx hy)
  change c.operands 2 (commaJoin [g.operandText x, g.operandText y]) = _ at read
  rw [pair, read]
  rfl

theorem triple_text {x y z : Operand} (hx : c.Knows g ρ x) (hy : c.Knows g ρ y)
    (hz : c.Knows g ρ z) : c.triple (commaJoin [g.operandText x, g.operandText y, g.operandText z]) =
      .ok (x.reread ρ, y.reread ρ, z.reread ρ) := by
  have read := operands_text (forall_mem_triple hx hy hz)
  change c.operands 3 (commaJoin [g.operandText x, g.operandText y, g.operandText z]) = _ at read
  rw [triple, read]
  rfl

theorem part_toString_nat (n : Nat) : Part (toString n).toList :=
  part_toString n

theorem number_uint64 (n : UInt64) : c.number uint64? (toString n.toNat).toList = .ok n := by
  rw [number, (part_toString_nat _).tight.trim, uint64?_toString]
  rfl

theorem number_int64 (n : Int64) : c.number int64? (toString n.toInt).toList = .ok n := by
  rw [number, (part_toString _).tight.trim, int64?_toString]
  rfl

theorem valueType_text {t : Ty} (h : t.Legal) (value : t.isVoid = false) :
    c.valueType t.render.toList = .ok t := by
  rw [valueType, Ty.readValue?_render h value]
  rfl

/-! ### Bracketed groups -/

theorem part_brackets {parts : List (List Char)} (h : ∀ p ∈ parts, Part p) :
    Part ('[' :: (commaJoin parts ++ [']'])) := by
  refine ⟨?_, (inner_commaJoin fun p hp => (h p hp).closed).closed rfl rfl⟩
  exact (Tight.singleton (c := '[') (by decide)).append (.singleton (by decide)) (commaJoin parts)

theorem between?_brackets (s : List Char) : between? "[" ']' ('[' :: (s ++ [']'])) = some s :=
  between?_append "[" s

theorem part_incomingText {p : Operand × BlockId} (hx : c.Knows g ρ p.1) (hb : c.KnowsBlock g β p.2) :
    Part (g.incomingText p) :=
  part_brackets (forall_mem_pair (part_operandText hx) (part_labelText hb))

theorem incoming_text {p : Operand × BlockId} (hx : c.Knows g ρ p.1) (hb : c.KnowsBlock g β p.2) :
    c.incoming (g.incomingText p) = .ok (p.1.reread ρ, β p.2) := by
  have parts : commaParts (commaJoin [g.operandText p.1, g.labelText p.2]) = _ :=
    commaParts_commaJoin (forall_mem_pair (part_operandText hx) (part_labelText hb))
  rw [incoming, Function.incomingText, between?_brackets]
  simp only [orFail_some, ok_bind, parts, operand_text hx, block_text hb]
  rfl

theorem part_armText {arm : Int64 × BlockId} (hb : c.KnowsBlock g β arm.2) : Part (g.armText arm) := by
  have label := part_labelText hb
  have key := part_toString arm.1.toInt
  have colon : Closed [':', ' '] := closed_of_plain (List.all_eq_true.mp rfl)
  exact ⟨key.tight.append label.tight [':', ' '], key.closed.append (colon.append label.closed)⟩

theorem candidate_text {k : AliasCandidate} (hw : c.Knows g ρ k.width) (hn : c.Knows g ρ k.count)
    (ha : c.Knows g ρ k.address) : Part (g.candidateText k) ∧ c.candidate (g.candidateText k) =
      .ok { k with
        width := k.width.reread ρ, count := k.count.reread ρ, address := k.address.reread ρ } := by
  have all : ∀ p ∈ [g.operandText k.width, g.operandText k.count, (toString k.index.toNat).toList,
      g.operandText k.address], Part p :=
    List.forall_mem_cons.mpr ⟨part_operandText hw,
      forall_mem_triple (part_operandText hn) (part_toString_nat _) (part_operandText ha)⟩
  refine ⟨part_brackets all, ?_⟩
  rw [candidate, Function.candidateText, between?_brackets]
  simp only [orFail_some, ok_bind, commaParts_commaJoin all, operand_text hw, operand_text hn,
    operand_text ha, number_uint64]
  rfl

/-! ### Session calls -/

/-- What is needed to read an operation that `g` writes. -/
structure Reads (c : Context) (g : Function) (ρ : ValueId → ValueId) (β : BlockId → BlockId)
    (type : Ty) (op : Op) : Prop where
  operands : ∀ x ∈ op.operands, c.Knows g ρ x
  blocks : ∀ b ∈ op.targets ++ op.sources, c.KnowsBlock g β b
  types : ∀ t ∈ op.types, t.Legal ∧ t.isVoid = false
  merged : op.isPhi = true → type.Legal
  callee : ∀ name args, op = .call name args → IsCallee name

theorem part_sessionTexts {call : SessionCall} (h : ∀ x ∈ call.operands, c.Knows g ρ x) :
    ∀ p ∈ g.sessionTexts call, Part p := by
  intro p hp
  cases call with
  | setup | finish | restartLabel | restartFinish => cases hp
  | start label count =>
    simp only [Function.sessionTexts, List.mem_cons, List.not_mem_nil, or_false] at hp
    rcases hp with rfl | rfl <;> exact part_toString_nat _
  | savePointer w n a | readPointer w n a | readAlias w n =>
    obtain ⟨x, hx, rfl⟩ := List.mem_map.mp hp
    exact part_operandText (h x hx)
  | saveAlias w n a cs =>
    rcases List.mem_append.mp hp with hp | hp
    · obtain ⟨x, hx, rfl⟩ := List.mem_map.mp hp
      exact part_operandText (h x (List.mem_append_left _ hx))
    · obtain ⟨k, hk, rfl⟩ := List.mem_map.mp hp
      have known : ∀ x ∈ [k.width, k.count, k.address], c.Knows g ρ x := fun x hx =>
        h x (List.mem_append_right _ (List.mem_flatMap.mpr ⟨k, hk, hx⟩))
      simp only [List.forall_mem_cons] at known
      exact (candidate_text known.1 known.2.1 known.2.2.1).1

theorem sessionCall_text {call : SessionCall} (h : ∀ x ∈ call.operands, c.Knows g ρ x) :
    c.sessionCall call.mnemonic.toList (commaJoin (g.sessionTexts call)) =
      .ok (call.mapOperands (Operand.reread ρ)) := by
  have parts := commaParts_commaJoin (part_sessionTexts h)
  cases call with
  | setup | finish | restartLabel | restartFinish => rfl
  | start label count =>
    have dispatch {s l n : List Char} (h : commaParts s = [l, n]) :
        c.sessionCall "rt.start".toList s =
          c.number uint64? l >>= fun l => c.number uint64? n >>= fun n => pure (.start l n) := by
      rw [sessionCall, String.ofList_toList]
      simp only [h]
    change c.sessionCall "rt.start".toList _ = _
    rw [dispatch parts]
    simp only [number_uint64, ok_bind]
    rfl
  | savePointer w n a =>
    have known : ∀ x ∈ [w, n, a], c.Knows g ρ x := h
    simp only [List.forall_mem_cons] at known
    change c.sessionCall "rt.checkpoint_pointer".toList _ = _
    change (c.triple (commaJoin [g.operandText w, g.operandText n, g.operandText a]) >>= _) = _
    rw [triple_text known.1 known.2.1 known.2.2.1]
    rfl
  | readPointer w n a =>
    have known : ∀ x ∈ [w, n, a], c.Knows g ρ x := h
    simp only [List.forall_mem_cons] at known
    change c.sessionCall "rt.read_pointer".toList _ = _
    change (c.triple (commaJoin [g.operandText w, g.operandText n, g.operandText a]) >>= _) = _
    rw [triple_text known.1 known.2.1 known.2.2.1]
    rfl
  | readAlias w n =>
    have known : ∀ x ∈ [w, n], c.Knows g ρ x := h
    simp only [List.forall_mem_cons] at known
    change c.sessionCall "rt.read_alias".toList _ = _
    change (c.pair (commaJoin [g.operandText w, g.operandText n]) >>= _) = _
    rw [pair_text known.1 known.2.1]
    rfl
  | saveAlias w n a cs =>
    have known : ∀ x ∈ [w, n, a], c.Knows g ρ x := fun x hx => h x (List.mem_append_left _ hx)
    simp only [List.forall_mem_cons] at known
    have candidates : (cs.map g.candidateText).mapM c.candidate = .ok (cs.map fun k =>
        { k with
          width := k.width.reread ρ, count := k.count.reread ρ, address := k.address.reread ρ }) := by
      refine mapM_map_eq_ok fun k hk => ?_
      have known : ∀ x ∈ [k.width, k.count, k.address], c.Knows g ρ x := fun x hx =>
        h x (List.mem_append_right _ (List.mem_flatMap.mpr ⟨k, hk, hx⟩))
      simp only [List.forall_mem_cons] at known
      exact (candidate_text known.1 known.2.1 known.2.2.1).2
    change c.sessionCall "rt.checkpoint_alias".toList _ = _
    change c.saveAlias _ = _
    rw [saveAlias, parts]
    change ((cs.map g.candidateText).mapM c.candidate >>= _) = _
    rw [candidates, ok_bind, operand_text known.1, ok_bind, operand_text known.2.1, ok_bind,
      operand_text known.2.2.1]
    rfl

theorem instruction_session (call : SessionCall) (rest : List Char) :
    c.instruction (call.mnemonic.toList ++ ' ' :: rest) = (do
      let call ← c.sessionCall call.mnemonic.toList (trim rest)
      return (.session call, if call.resultType.isVoid then none else some call.resultType)) := by
  have dispatch (name : String) (h : name ∈ ["rt.setup", "rt.start", "rt.checkpoint_pointer",
      "rt.checkpoint_alias", "rt.finish", "rt.restart_label", "rt.read_pointer", "rt.read_alias",
      "rt.restart_finish"]) : c.instruction (name.toList ++ ' ' :: rest) = (do
        let call ← c.sessionCall name.toList (trim rest)
        return (.session call, if call.resultType.isVoid then none else some call.resultType)) := by
    simp only [List.mem_cons, List.not_mem_nil, or_false] at h
    rcases h with rfl | rfl | rfl | rfl | rfl | rfl | rfl | rfl | rfl <;>
      (rw [instruction, splitAtChar?_append (by decide)]; rfl)
  refine dispatch _ ?_
  cases call <;> simp [SessionCall.mnemonic]

/-! ### Operations -/

theorem Reads.pair {type : Ty} {op : Op} {x y : Operand} (h : c.Reads g ρ β type op)
    (operands : op.operands = [x, y]) : c.Knows g ρ x ∧ c.Knows g ρ y := by
  have known := h.operands
  rw [operands, List.forall_mem_cons, List.forall_mem_singleton] at known
  exact known

theorem Reads.single {type : Ty} {op : Op} {x : Operand} (h : c.Reads g ρ β type op)
    (operands : op.operands = [x]) : c.Knows g ρ x :=
  h.operands x (by rw [operands]; exact List.mem_singleton_self x)

theorem Reads.target {type : Ty} {op : Op} {b : BlockId} (h : c.Reads g ρ β type op)
    (target : b ∈ op.targets) : c.KnowsBlock g β b :=
  h.blocks b (List.mem_append_left _ target)

theorem tight_pair {x y : Operand} (hx : c.Knows g ρ x) (hy : c.Knows g ρ y) :
    Tight (commaJoin [g.operandText x, g.operandText y]) :=
  tight_commaJoin (forall_mem_pair (part_operandText hx).tight (part_operandText hy).tight)

theorem Reads.part_incoming {type : Ty} {pairs : List (Operand × BlockId)}
    (h : c.Reads g ρ β type (.phi pairs)) : ∀ p ∈ pairs, c.Knows g ρ p.1 ∧ c.KnowsBlock g β p.2 := by
  intro p hp
  exact ⟨h.operands p.1 (List.mem_map_of_mem hp),
    h.blocks p.2 (List.mem_append_right _ (List.mem_map_of_mem hp))⟩

theorem tight_arguments {type : Ty} {op : Op} (h : c.Reads g ρ β type op) (bare : op.isBare = false) :
    Tight (g.arguments type op) := by
  cases op with
  | alloca t n =>
    exact tight_commaJoin (forall_mem_pair t.part_render.tight (part_toString_nat n.toNat).tight)
  | malloc x => exact (part_operandText (h.single rfl)).tight
  | free x => exact (part_operandText (h.single rfl)).tight
  | load x => exact (part_operandText (h.single rfl)).tight
  | phi pairs =>
    cases pairs with
    | nil => exact type.part_render.tight
    | cons p ps =>
      refine type.part_render.tight.append (tight_commaJoin ?_) [' ']
      intro q hq
      obtain ⟨r, hr, rfl⟩ : ∃ r ∈ p :: ps, g.incomingText r = q := List.mem_map.mp hq
      have known := h.part_incoming r hr
      exact (part_incomingText known.1 known.2).tight
  | gep x y => exact tight_pair (h.pair rfl).1 (h.pair rfl).2
  | cast x t =>
    exact (part_operandText (h.single rfl)).tight.append t.part_render.tight " to ".toList
  | store x y => exact tight_pair (h.pair rfl).1 (h.pair rfl).2
  | binary op x y => exact tight_pair (h.pair rfl).1 (h.pair rfl).2
  | compare rel x y =>
    have name : Tight rel.mnemonic.toList := by
      cases rel <;> exact (part_of_words (by decide) (List.all_eq_true.mp rfl)).tight
    exact name.append (tight_pair (h.pair rfl).1 (h.pair rfl).2) [' ']
  | call callee args =>
    have tight := (Tight.singleton (c := '@') (by decide)).append (.singleton (c := ')') (by decide))
      (callee.toList ++ '(' :: commaJoin (args.map g.operandText))
    simpa [Function.arguments] using tight
  | session call =>
    have parts : ∀ p ∈ g.sessionTexts call, Part p := part_sessionTexts h.operands
    rw [Function.arguments]
    cases e : g.sessionTexts call with
    | nil =>
      cases call with
      | setup | finish | restartLabel | restartFinish => cases bare
      | _ => cases e
    | cons p ps =>
      rw [e] at parts
      exact tight_commaJoin fun q hq => (parts q hq).tight
  | br b => exact (part_labelText (h.target (List.mem_singleton_self b))).tight
  | condBr x t e =>
    have ht := part_labelText (h.target (b := t) (by simp [Op.targets]))
    have he := part_labelText (h.target (b := e) (by simp [Op.targets]))
    exact tight_commaJoin (forall_mem_triple (part_operandText (h.single rfl)).tight ht.tight he.tight)
  | switch x d cases =>
    have hx := part_operandText (h.single rfl)
    have hd := part_labelText (h.target (b := d) (by simp [Op.targets]))
    have head : Tight (commaJoin [g.operandText x, g.labelText d]) :=
      tight_commaJoin (forall_mem_pair hx.tight hd.tight)
    have tight := head.append (.singleton (c := ']') (by decide))
      (' ' :: '[' :: commaJoin (cases.map g.armText))
    simpa [Function.arguments] using tight
  | ret x =>
    cases x with
    | none => cases bare
    | some x => exact (part_operandText (h.single rfl)).tight

theorem phi_text {type : Ty} {pairs : List (Operand × BlockId)} (h : c.Reads g ρ β type (.phi pairs)) :
    c.phi (g.arguments type (.phi pairs)) =
      .ok (.phi (pairs.map fun p => (p.1.reread ρ, β p.2)), some type) := by
  have read : Ty.read? type.render.toList = some type := Ty.read?_render (h.merged rfl)
  have free : ' ' ∉ type.render.toList := not_mem_of_all (fun _ => Ty.isTypeChar_of_mem_render) rfl
  cases pairs with
  | nil =>
    have split : splitAtChar? ' ' (g.arguments type (.phi [])) = none := splitAtChar?_eq_none free
    rw [phi, split]
    simp only [Option.getD_none, Function.arguments, read, orFail_some, ok_bind]
    rfl
  | cons p ps =>
    have split : splitAtChar? ' ' (g.arguments type (.phi (p :: ps))) =
        some (type.render.toList, commaJoin ((p :: ps).map g.incomingText)) := splitAtChar?_append free
    have parts : commaParts (commaJoin ((p :: ps).map g.incomingText)) =
        (p :: ps).map g.incomingText := by
      refine commaParts_commaJoin fun q hq => ?_
      obtain ⟨r, hr, rfl⟩ := List.mem_map.mp hq
      exact part_incomingText (h.part_incoming r hr).1 (h.part_incoming r hr).2
    have each : ((p :: ps).map g.incomingText).mapM c.incoming =
        .ok ((p :: ps).map fun p => (p.1.reread ρ, β p.2)) :=
      mapM_map_eq_ok fun r hr => incoming_text (h.part_incoming r hr).1 (h.part_incoming r hr).2
    rw [phi, split]
    simp only [Option.getD_some, read, orFail_some, ok_bind, parts, each]
    rfl

theorem alloca_text {t : Ty} {n : UInt64} (h : t.Legal ∧ t.isVoid = false) :
    c.alloca (commaJoin [t.render.toList, (toString n.toNat).toList]) =
      .ok (.alloca t n, some (.ptr t)) := by
  rw [alloca, commaParts_commaJoin (forall_mem_pair t.part_render (part_toString_nat _))]
  simp only [valueType_text h.1 h.2, ok_bind, number_uint64]
  rfl

theorem cast_text {x : Operand} {t : Ty} (hx : c.Knows g ρ x) (h : t.Legal ∧ t.isVoid = false) :
    c.cast (g.operandText x ++ (" to ".toList ++ t.render.toList)) =
      .ok (.cast (x.reread ρ) t, some t) := by
  have free : ' ' ∉ t.render.toList := not_mem_of_all (fun _ => Ty.isTypeChar_of_mem_render) rfl
  have split : splitAtLast? " to ".toList (g.operandText x ++ (" to ".toList ++ t.render.toList)) =
      some (g.operandText x, t.render.toList) := by
    change splitAtLast? ([' ', 't', 'o'] ++ [' ']) (_ ++ ([' ', 't', 'o'] ++ ' ' :: _)) = _
    exact splitAtLast?_append free
  rw [cast, split]
  simp only [orFail_some, ok_bind, valueType_text h.1 h.2, operand_text hx]
  rfl

theorem compare_text {rel : Relation} {x y : Operand} (hx : c.Knows g ρ x) (hy : c.Knows g ρ y) :
    c.compare (rel.mnemonic.toList ++ ' ' :: commaJoin [g.operandText x, g.operandText y]) =
      .ok (.compare rel (x.reread ρ) (y.reread ρ), some (.int 1)) := by
  have free : ' ' ∉ rel.mnemonic.toList := by cases rel <;> decide
  have found : Relation.all.find? (·.mnemonic.toList = rel.mnemonic.toList) = some rel := by
    cases rel <;> decide
  rw [compare, splitAtChar?_append free]
  simp only [orFail_some, ok_bind, found, pair_text hx hy]
  rfl

theorem call_text {callee : String} {args : List Operand} (h : IsCallee callee)
    (known : ∀ x ∈ args, c.Knows g ρ x) :
    c.call ('@' :: (callee.toList ++ '(' :: (commaJoin (args.map g.operandText) ++ [')']))) =
      .ok (.call callee (args.map (·.reread ρ)), none) := by
  have start (s : List Char) : afterStart? "@" ('@' :: s) = some s := afterStart?_append "@" s
  have parts : commaParts (commaJoin (args.map g.operandText)) = args.map g.operandText := by
    refine commaParts_commaJoin fun p hp => ?_
    obtain ⟨x, hx, rfl⟩ := List.mem_map.mp hp
    exact part_operandText (known x hx)
  have each : (args.map g.operandText).mapM c.operand = .ok (args.map (·.reread ρ)) :=
    mapM_map_eq_ok fun x hx => operand_text (known x hx)
  rw [call, start, Option.bind_some, splitAtChar?_append h.opening]
  simp only [orFail_some, ok_bind, beforeEnd?_concat, parts, each, h.trimmed, String.ofList_toList]
  rfl

theorem condBr_text {x : Operand} {t e : BlockId} (hx : c.Knows g ρ x) (ht : c.KnowsBlock g β t)
    (he : c.KnowsBlock g β e) :
    c.condBr (commaJoin [g.operandText x, g.labelText t, g.labelText e]) =
      .ok (.condBr (x.reread ρ) (β t) (β e), none) := by
  rw [condBr, commaParts_commaJoin
    (forall_mem_triple (part_operandText hx) (part_labelText ht) (part_labelText he))]
  simp only [ok_bind, operand_text hx, block_text ht, block_text he]
  rfl

theorem commaParts_concat_blank {s : List Char} (h : Tight s) : commaParts (s ++ [' ']) = commaParts s := by
  rw [commaParts, commaParts, h.trim, h.trim_concat (by decide)]

theorem arm_text {arm : Int64 × BlockId} (h : c.KnowsBlock g β arm.2) :
    splitAtChar? ':' (g.armText arm) = some ((toString arm.1.toInt).toList, ' ' :: g.labelText arm.2) ∧
      c.block (' ' :: g.labelText arm.2) = .ok (β arm.2) := by
  refine ⟨splitAtChar?_append (not_mem_of_all (fun _ => isWord_of_mem_toString) rfl), ?_⟩
  have tight := (part_labelText h).tight
  have same : c.block (' ' :: g.labelText arm.2) = c.block (g.labelText arm.2) := by
    rw [block, block, tight.trim_cons (by decide), tight.trim]
  rw [same, block_text h]

theorem switch_text {x : Operand} {d : BlockId} {cases : List (Int64 × BlockId)} (hx : c.Knows g ρ x)
    (hd : c.KnowsBlock g β d) (hc : ∀ arm ∈ cases, c.KnowsBlock g β arm.2) :
    c.switch (commaJoin [g.operandText x, g.labelText d] ++
        ' ' :: '[' :: (commaJoin (cases.map g.armText) ++ [']'])) =
      .ok (.switch (x.reread ρ) (β d) (cases.map fun arm => (arm.1, β arm.2)), none) := by
  have pair : ∀ p ∈ [g.operandText x, g.labelText d], Part p :=
    forall_mem_pair (part_operandText hx) (part_labelText hd)
  have head : Tight (commaJoin [g.operandText x, g.labelText d]) :=
    tight_commaJoin fun p hp => (pair p hp).tight
  have arms : ∀ p ∈ cases.map g.armText, Part p := by
    intro p hp
    obtain ⟨arm, harm, rfl⟩ := List.mem_map.mp hp
    exact part_armText (hc arm harm)
  have tail : Tight (commaJoin (cases.map g.armText) ++ [']']) := by
    cases cases with
    | nil => exact .singleton (by decide)
    | cons arm rest =>
      exact (tight_commaJoin fun p hp => (arms p hp).tight).append (.singleton (by decide)) []
  have free : '[' ∉ commaJoin [g.operandText x, g.labelText d] ++ [' '] := by
    have operand := not_mem_of_all (c := '[') (isOperandChar_of_mem hx) rfl
    have label := not_mem_of_all (c := '[') (isIdentifier_iff.1 hd.1).2 rfl
    simp [commaJoin_cons, commaJoin_singleton, operand, Function.labelText, label]
  have split : splitAtChar? '[' (commaJoin [g.operandText x, g.labelText d] ++
        ' ' :: '[' :: (commaJoin (cases.map g.armText) ++ [']'])) =
      some (commaJoin [g.operandText x, g.labelText d] ++ [' '],
        commaJoin (cases.map g.armText) ++ [']']) := by
    rw [← splitAtChar?_append free, List.append_assoc, List.singleton_append]
  rw [switch, split]
  simp only [orFail_some, ok_bind, tail.trim, beforeEnd?_concat, commaParts_concat_blank head,
    commaParts_commaJoin pair, operand_text hx, block_text hd, commaParts_commaJoin arms]
  rw [mapM_map_eq_ok fun arm harm => ?_]
  · rfl
  obtain ⟨split, target⟩ := arm_text (hc arm harm)
  simp only [split, orFail_some, ok_bind, number_int64, target]
  rfl

theorem instruction_bare {type : Ty} {op : Op} (bare : op.isBare = true) :
    c.instruction op.mnemonic.toList = .ok (op.reread ρ β, op.spelled? type) := by
  cases op with
  | ret x =>
    cases x with
    | none => rfl
    | some x => cases bare
  | session call =>
    cases call with
    | setup | finish | restartLabel | restartFinish => rfl
    | _ => cases bare
  | _ => cases bare

/-- An operation is read back, with the numbers that its names stand for. -/
theorem instruction_text {type : Ty} {op : Op} (h : c.Reads g ρ β type op) :
    c.instruction (g.renderOp type op).toList = .ok (op.reread ρ β, op.spelled? type) := by
  rw [Function.renderOp_toList]
  split
  · next bare => exact instruction_bare bare
  next full =>
  have tight := tight_arguments h (by simpa using full)
  cases op with
  | session call =>
    change c.instruction (call.mnemonic.toList ++ _) = _
    have read : c.sessionCall call.mnemonic.toList (g.arguments type (.session call)) = _ :=
      sessionCall_text h.operands
    have result : (call.mapOperands (Operand.reread ρ)).resultType = call.resultType := by
      cases call <;> rfl
    rw [instruction_session, tight.trim, read, ok_bind, result]
    rfl
  | binary op x y =>
    have known := h.pair rfl
    have dispatch (s : List Char) : c.instruction (op.mnemonic.toList ++ ' ' :: s) =
        c.pair (trim s) >>= fun p => pure (.binary op p.1 p.2, none) := by
      have free : ' ' ∉ op.mnemonic.toList := by cases op <;> decide
      rw [instruction, splitAtChar?_append free]
      cases op <;> rfl
    change c.instruction (op.mnemonic.toList ++ _) = _
    rw [dispatch, tight.trim]
    change (c.pair (commaJoin _) >>= _) = _
    rw [pair_text known.1 known.2]
    rfl
  | alloca t n =>
    change c.instruction ("alloca".toList ++ _) = _
    rw [instruction, splitAtChar?_append (by decide)]
    change c.alloca (trim _) = _
    rw [tight.trim]
    exact alloca_text (h.types t (List.mem_singleton_self t))
  | malloc x =>
    have tight : Tight (g.operandText x) := tight
    change c.instruction ("malloc".toList ++ _) = _
    rw [instruction, splitAtChar?_append (by decide)]
    change (c.operand (trim (g.operandText x)) >>= _) = _
    rw [tight.trim, operand_text (h.single rfl)]
    rfl
  | free x =>
    have tight : Tight (g.operandText x) := tight
    change c.instruction ("free".toList ++ _) = _
    rw [instruction, splitAtChar?_append (by decide)]
    change (c.operand (trim (g.operandText x)) >>= _) = _
    rw [tight.trim, operand_text (h.single rfl)]
    rfl
  | load x =>
    have tight : Tight (g.operandText x) := tight
    change c.instruction ("load".toList ++ _) = _
    rw [instruction, splitAtChar?_append (by decide)]
    change (c.operand (trim (g.operandText x)) >>= _) = _
    rw [tight.trim, operand_text (h.single rfl)]
    rfl
  | phi pairs =>
    change c.instruction ("phi".toList ++ _) = _
    rw [instruction, splitAtChar?_append (by decide)]
    change c.phi (trim _) = _
    rw [tight.trim]
    rw [phi_text h, Op.reread_phi]
    rfl
  | gep x y =>
    have tight : Tight (commaJoin [g.operandText x, g.operandText y]) := tight
    change c.instruction ("gep".toList ++ _) = _
    rw [instruction, splitAtChar?_append (by decide)]
    change (c.pair (trim (commaJoin [g.operandText x, g.operandText y])) >>= _) = _
    rw [tight.trim, pair_text (h.pair rfl).1 (h.pair rfl).2]
    rfl
  | store x y =>
    have tight : Tight (commaJoin [g.operandText x, g.operandText y]) := tight
    change c.instruction ("store".toList ++ _) = _
    rw [instruction, splitAtChar?_append (by decide)]
    change (c.pair (trim (commaJoin [g.operandText x, g.operandText y])) >>= _) = _
    rw [tight.trim, pair_text (h.pair rfl).1 (h.pair rfl).2]
    rfl
  | cast x t =>
    change c.instruction ("cast".toList ++ _) = _
    rw [instruction, splitAtChar?_append (by decide)]
    change c.cast (trim _) = _
    rw [tight.trim]
    exact cast_text (h.single rfl) (h.types t (List.mem_singleton_self t))
  | compare rel x y =>
    change c.instruction ("cmp".toList ++ _) = _
    rw [instruction, splitAtChar?_append (by decide)]
    change c.compare (trim _) = _
    rw [tight.trim]
    exact compare_text (h.pair rfl).1 (h.pair rfl).2
  | call callee args =>
    change c.instruction ("call".toList ++ _) = _
    rw [instruction, splitAtChar?_append (by decide)]
    change c.call (trim _) = _
    rw [tight.trim]
    exact call_text (h.callee callee args rfl) h.operands
  | br b =>
    have tight : Tight (g.labelText b) := tight
    change c.instruction ("br".toList ++ _) = _
    rw [instruction, splitAtChar?_append (by decide)]
    change (c.block (trim (g.labelText b)) >>= _) = _
    rw [tight.trim, block_text (h.target (List.mem_singleton_self b))]
    rfl
  | condBr x t e =>
    change c.instruction ("condbr".toList ++ _) = _
    rw [instruction, splitAtChar?_append (by decide)]
    change c.condBr (trim _) = _
    rw [tight.trim]
    exact condBr_text (h.single rfl) (h.target (List.mem_cons_self))
      (h.target (List.mem_cons_of_mem _ (List.mem_singleton_self e)))
  | switch x d cases =>
    change c.instruction ("switch".toList ++ _) = _
    rw [instruction, splitAtChar?_append (by decide)]
    change c.switch (trim _) = _
    rw [tight.trim]
    rw [Op.reread_switch]
    exact switch_text (h.single rfl) (h.target List.mem_cons_self) fun arm harm =>
      h.target (List.mem_cons_of_mem _ (List.mem_map_of_mem harm))
  | ret x =>
    cases x with
    | none => exact absurd rfl full
    | some x =>
      have tight : Tight (g.operandText x) := tight
      have filled : (g.operandText x).isEmpty = false := by
        simpa using (part_operandText (h.single rfl)).tight.nonempty
      change c.instruction ("ret".toList ++ _) = _
      rw [instruction, splitAtChar?_append (by decide)]
      change (if (trim (g.operandText x)).isEmpty then _ else c.operand (trim (g.operandText x)) >>= _) = _
      rw [tight.trim, filled, operand_text (h.single rfl)]
      rfl

end Reader.Context

end CheckpointRestart
