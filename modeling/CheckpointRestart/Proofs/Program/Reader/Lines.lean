import CheckpointRestart.Proofs.Program.Reader.Operation
import CheckpointRestart.Proofs.Program.Reader.Steps

/-! # Lines are told apart

The first line of a function, a label and an instruction with or without a result cannot be taken
for one another, and each is cut where it was put together.
-/

namespace CheckpointRestart

open Text

namespace Text

variable {s front back : List Char} {c : Char}

theorem mem_commaJoin {parts : List (List Char)} (h : c ∈ commaJoin parts) :
    c = ',' ∨ c = ' ' ∨ ∃ p ∈ parts, c ∈ p := by
  induction parts with
  | nil => cases h
  | cons p parts ih =>
    cases parts with
    | nil =>
      rw [commaJoin_singleton] at h
      exact .inr (.inr ⟨p, List.mem_cons_self, h⟩)
    | cons q parts =>
      rw [commaJoin_cons, List.mem_append, List.mem_cons, List.mem_cons] at h
      rcases h with h | rfl | rfl | h
      · exact .inr (.inr ⟨p, List.mem_cons_self, h⟩)
      · exact .inl rfl
      · exact .inr (.inl rfl)
      · refine (ih h).imp_right (Or.imp_right ?_)
        rintro ⟨r, hr, hc⟩
        exact ⟨r, List.mem_cons_of_mem _ hr, hc⟩

theorem all_commaJoin {p : Char → Bool} {parts : List (List Char)} (comma : p ',' = true)
    (blank : p ' ' = true) (h : ∀ q ∈ parts, ∀ c ∈ q, p c = true) : ∀ c ∈ commaJoin parts, p c = true := by
  intro c hc
  rcases mem_commaJoin hc with rfl | rfl | ⟨q, hq, hc⟩
  exacts [comma, blank, h q hq c hc]

theorem infix_behind (found : [' ', '=', ' '] <:+: front ++ s) (free : '=' ∉ front)
    (last : front.getLast? ≠ some ' ') : [' ', '=', ' '] <:+: s := by
  induction front with
  | nil => exact found
  | cons c front ih =>
    rcases List.infix_cons_iff.mp found with ⟨rest, e⟩ | found
    · -- the blank is the last character in front, or an equals sign follows it there
      cases front with
      | nil =>
        rw [List.cons_append, List.cons.injEq] at e
        exact absurd (by rw [← e.1]; rfl) last
      | cons d front =>
        change ' ' :: '=' :: ' ' :: rest = c :: d :: (front ++ s) at e
        rw [List.cons.injEq, List.cons.injEq] at e
        exact absurd (by rw [e.2.1]; simp) free
    · cases front with
      | nil => exact found
      | cons d front => exact ih found (by simp_all) (by simpa using last)

/-- An equals sign between blanks that is found in a text with a head and a tail stands in the
middle, if the head and the tail have no equals sign and no blank next to the middle. -/
theorem infix_middle (found : [' ', '=', ' '] <:+: front ++ (s ++ back)) (head : '=' ∉ front)
    (tail : '=' ∉ back) (last : front.getLast? ≠ some ' ') (first : back.head? ≠ some ' ') :
    [' ', '=', ' '] <:+: s := by
  have found := List.reverse_infix.mpr (infix_behind found head last)
  rw [List.reverse_append] at found
  refine List.reverse_infix.mp (infix_behind found (by simpa using tail) ?_)
  rwa [List.getLast?_reverse]

/-- The text of an instruction without its result: it is no label, defines no value and fits on a
line. -/
structure Statement (s : List Char) : Prop where
  tight : Tight s
  last : s.getLast? ≠ some ':'
  single : ¬ [' ', '=', ' '] <:+: s
  line : '\n' ∉ s
  first : ∃ c ∈ s.head?, isWord c = true

namespace Statement

theorem of_word (nonempty : s ≠ []) (h : ∀ c ∈ s, isWord c = true) : Statement s := by
  refine ⟨(part_of_words nonempty h).tight, fun last => ?_, fun found => ?_,
    not_mem_of_all h rfl, ?_⟩
  · exact not_mem_of_all (c := ':') h rfl (List.mem_of_getLast? last)
  · exact not_mem_of_all (c := '=') h rfl (found.subset (by simp))
  · cases s with
    | nil => exact absurd rfl nonempty
    | cons c s => exact ⟨c, rfl, h c List.mem_cons_self⟩

theorem of_arguments {args : List Char} (nonempty : s ≠ []) (h : ∀ c ∈ s, isWord c = true)
    (tight : Tight args) (last : args.getLast? ≠ some ':')
    (single : ¬ [' ', '=', ' '] <:+: s ++ ' ' :: args) (line : '\n' ∉ args) :
    Statement (s ++ ' ' :: args) := by
  have word := of_word nonempty h
  refine ⟨word.tight.append tight [' '], ?_, single, ?_, ?_⟩
  · have nonempty := tight.nonempty
    rwa [← List.singleton_append, ← List.append_assoc, List.getLast?_append_of_ne_nil _ nonempty]
  · rw [List.mem_append, List.mem_cons, not_or, not_or]
    exact ⟨word.line, by decide, line⟩
  · rw [List.head?_append_of_ne_nil _ nonempty]
    exact word.first

end Statement

end Text

namespace Function

variable {f : Function} {name : String}

theorem newValue_of_new (t : Ty) (h : f.valueNamed? name = none) : f.newValue name t =
    (⟨f.values.size⟩, { f with values := f.values.push ⟨name, t⟩ }) := by
  refine Prod.ext rfl ?_
  have values := values_newValue_of_new (t := t) h
  rw [← values]
  rfl

theorem addBlock_of_new (h : f.blockNamed? name = none) : f.addBlock name =
    (⟨f.blocks.size⟩,
      { f with blocks := f.blocks.push ⟨name, []⟩, layout := f.layout ++ [⟨f.blocks.size⟩] }) := by
  refine Prod.ext rfl ?_
  rw [← blocks_addBlock_of_new h]
  rfl

end Function

namespace Reader.Context

variable {c : Context} {g : Function} {ρ : ValueId → ValueId} {β : BlockId → BlockId} {type : Ty}
  {op : Op}

theorem isIdentifier_mnemonic (op : Op) : isIdentifier op.mnemonic.toList = true := by
  have all : ∀ name ∈ ["alloca", "malloc", "free", "phi", "gep", "cast", "load", "store", "cmp", "call",
      "br", "condbr", "switch", "ret", "add", "sub", "mul", "div", "rem", "and", "or", "xor", "shl",
      "shr", "rt.setup", "rt.start", "rt.checkpoint_pointer", "rt.checkpoint_alias", "rt.finish",
      "rt.restart_label", "rt.read_pointer", "rt.read_alias", "rt.restart_finish"],
      isIdentifier name.toList = true := by decide
  refine all _ ?_
  cases op with
  | binary op x y => cases op <;> simp [Op.mnemonic, BinaryOp.mnemonic]
  | session call => cases call <;> simp [Op.mnemonic, SessionCall.mnemonic]
  | _ => simp [Op.mnemonic]

/-- The characters of the arguments of most operations. -/
def isArgumentChar (x : Char) : Bool :=
  isOperandChar x || x == ',' || x == '[' || x == ']'

theorem isArgumentChar_of_isOperandChar {x : Char} (h : isOperandChar x = true) :
    isArgumentChar x = true := by
  simp [isArgumentChar, h]

theorem isArgumentChar_of_isWord {x : Char} (h : isWord x = true) : isArgumentChar x = true :=
  isArgumentChar_of_isOperandChar (isOperandChar_of_isWord h)

theorem isArgumentChar_of_isTypeChar {x : Char} (h : Ty.isTypeChar x = true) : isArgumentChar x = true := by
  refine isArgumentChar_of_isOperandChar ?_
  simp [isOperandChar, Constant.isLiteralChar_of_isTypeChar h]

theorem isArgumentChar_of_mem_operand {x : Operand} (h : c.Knows g ρ x) :
    ∀ y ∈ g.operandText x, isArgumentChar y = true :=
  fun y hy => isArgumentChar_of_isOperandChar (isOperandChar_of_mem h y hy)

theorem isArgumentChar_of_mem_label {b : BlockId} (h : c.KnowsBlock g β b) :
    ∀ y ∈ g.labelText b, isArgumentChar y = true :=
  fun y hy => isArgumentChar_of_isWord ((isIdentifier_iff.1 h.1).2 y hy)

theorem isArgumentChar_brackets {s : List Char} (h : ∀ y ∈ s, isArgumentChar y = true) :
    ∀ y ∈ '[' :: (s ++ [']']), isArgumentChar y = true := by
  intro y hy
  simp only [List.mem_cons, List.mem_append, List.not_mem_nil, or_false] at hy
  rcases hy with rfl | hy | rfl
  exacts [rfl, h y hy, rfl]

theorem isArgumentChar_commaJoin {parts : List (List Char)}
    (h : ∀ p ∈ parts, ∀ y ∈ p, isArgumentChar y = true) :
    ∀ y ∈ commaJoin parts, isArgumentChar y = true :=
  all_commaJoin rfl rfl h

theorem isArgumentChar_append {s t : List Char} (hs : ∀ y ∈ s, isArgumentChar y = true)
    (ht : ∀ y ∈ t, isArgumentChar y = true) : ∀ y ∈ s ++ t, isArgumentChar y = true :=
  fun y hy => (List.mem_append.mp hy).elim (hs y) (ht y)

theorem isArgumentChar_toString (n : Nat) : ∀ y ∈ (toString n).toList, isArgumentChar y = true :=
  fun _ hy => isArgumentChar_of_isWord (isWord_of_mem_toString (i := n) hy)

theorem isArgumentChar_sessionTexts {call : SessionCall} (h : ∀ x ∈ call.operands, c.Knows g ρ x) :
    ∀ p ∈ g.sessionTexts call, ∀ y ∈ p, isArgumentChar y = true := by
  intro p hp
  cases call with
  | setup | finish | restartLabel | restartFinish => cases hp
  | start label count =>
    simp only [Function.sessionTexts, List.mem_cons, List.not_mem_nil, or_false] at hp
    rcases hp with rfl | rfl <;> exact isArgumentChar_toString _
  | savePointer w n a | readPointer w n a | readAlias w n =>
    obtain ⟨x, hx, rfl⟩ := List.mem_map.mp hp
    exact isArgumentChar_of_mem_operand (h x hx)
  | saveAlias w n a cs =>
    rcases List.mem_append.mp hp with hp | hp
    · obtain ⟨x, hx, rfl⟩ := List.mem_map.mp hp
      exact isArgumentChar_of_mem_operand (h x (List.mem_append_left _ hx))
    · obtain ⟨k, hk, rfl⟩ := List.mem_map.mp hp
      have known : ∀ x ∈ [k.width, k.count, k.address], c.Knows g ρ x := fun x hx =>
        h x (List.mem_append_right _ (List.mem_flatMap.mpr ⟨k, hk, hx⟩))
      simp only [List.forall_mem_cons] at known
      refine isArgumentChar_brackets (isArgumentChar_commaJoin ?_)
      refine List.forall_mem_cons.mpr ⟨isArgumentChar_of_mem_operand known.1, forall_mem_triple
        (isArgumentChar_of_mem_operand known.2.1) (isArgumentChar_toString _)
        (isArgumentChar_of_mem_operand known.2.2.1)⟩

theorem isArgumentChar_arguments (h : c.Reads g ρ β type op)
    (call : ∀ callee args, op ≠ .call callee args) (switch : ∀ x d cases, op ≠ .switch x d cases) :
    ∀ y ∈ g.arguments type op, isArgumentChar y = true := by
  have word {text : List Char} (all : text.all isArgumentChar = true) :
      ∀ y ∈ text, isArgumentChar y = true := List.all_eq_true.mp all
  have single {x : Operand} (operands : op.operands = [x]) : ∀ y ∈ g.operandText x, isArgumentChar y = true :=
    isArgumentChar_of_mem_operand (h.single operands)
  have pair {x y : Operand} (operands : op.operands = [x, y]) :
      ∀ z ∈ commaJoin [g.operandText x, g.operandText y], isArgumentChar z = true :=
    isArgumentChar_commaJoin (forall_mem_pair (isArgumentChar_of_mem_operand (h.pair operands).1)
      (isArgumentChar_of_mem_operand (h.pair operands).2))
  have typeText (t : Ty) : ∀ y ∈ t.render.toList, isArgumentChar y = true :=
    fun y hy => isArgumentChar_of_isTypeChar (Ty.isTypeChar_of_mem_render hy)
  cases op with
  | alloca t n => exact isArgumentChar_commaJoin (forall_mem_pair (typeText t) (isArgumentChar_toString _))
  | malloc x => exact single rfl
  | free x => exact single rfl
  | load x => exact single rfl
  | phi pairs =>
    cases pairs with
    | nil => exact typeText type
    | cons p ps =>
      refine isArgumentChar_append (t := [' '] ++ _) (typeText type) (isArgumentChar_append (List.all_eq_true.mp rfl)
        (isArgumentChar_commaJoin fun q hq => ?_))
      obtain ⟨r, hr, rfl⟩ := List.mem_map.mp hq
      have known := h.part_incoming r hr
      exact isArgumentChar_brackets (isArgumentChar_commaJoin (forall_mem_pair
        (isArgumentChar_of_mem_operand known.1) (isArgumentChar_of_mem_label known.2)))
  | gep x y => exact pair rfl
  | cast x t => exact isArgumentChar_append (single rfl) (isArgumentChar_append (List.all_eq_true.mp rfl) (typeText t))
  | store x y => exact pair rfl
  | binary op x y => exact pair rfl
  | compare rel x y =>
    have name : ∀ y ∈ rel.mnemonic.toList, isArgumentChar y = true := by
      cases rel <;> exact word (by decide)
    exact isArgumentChar_append (t := [' '] ++ _) name (isArgumentChar_append (List.all_eq_true.mp rfl) (pair rfl))
  | call callee args => exact absurd rfl (call callee args)
  | session call => exact isArgumentChar_commaJoin (isArgumentChar_sessionTexts h.operands)
  | br b => exact isArgumentChar_of_mem_label (h.target (List.mem_singleton_self b))
  | condBr x t e =>
    exact isArgumentChar_commaJoin (forall_mem_triple (single rfl)
      (isArgumentChar_of_mem_label (h.target List.mem_cons_self))
      (isArgumentChar_of_mem_label (h.target (List.mem_cons_of_mem _ (List.mem_singleton_self e)))))
  | switch x d cases => exact absurd rfl (switch x d cases)
  | ret x =>
    cases x with
    | none => exact fun y hy => by cases hy
    | some x => exact single rfl

theorem mem_switchArguments {x : Operand} {d : BlockId} {cases : List (Int64 × BlockId)}
    (h : c.Reads g ρ β type (.switch x d cases)) :
    ∀ y ∈ g.arguments type (.switch x d cases), isArgumentChar y = true ∨ y = ':' := by
  intro y hy
  have head : ∀ y ∈ commaJoin [g.operandText x, g.labelText d], isArgumentChar y = true :=
    isArgumentChar_commaJoin (forall_mem_pair (isArgumentChar_of_mem_operand (h.single rfl))
      (isArgumentChar_of_mem_label (h.target List.mem_cons_self)))
  rw [Function.arguments] at hy
  simp only [List.mem_append, List.mem_cons, List.not_mem_nil, or_false] at hy
  rcases hy with hy | rfl | rfl | hy | rfl
  · exact .inl (head y hy)
  · exact .inl rfl
  · exact .inl rfl
  · rcases mem_commaJoin hy with rfl | rfl | ⟨p, hp, hy⟩
    · exact .inl rfl
    · exact .inl rfl
    · obtain ⟨arm, harm, rfl⟩ := List.mem_map.mp hp
      simp only [Function.armText, List.mem_append, List.mem_cons] at hy
      rcases hy with hy | rfl | rfl | hy
      · exact .inl (isArgumentChar_of_isWord (isWord_of_mem_toString hy))
      · exact .inr rfl
      · exact .inl rfl
      · exact .inl (isArgumentChar_of_mem_label
          (h.target (List.mem_cons_of_mem _ (List.mem_map_of_mem harm))) y hy)
  · exact .inl rfl

theorem statement_text (h : c.Reads g ρ β type op) : Statement (g.renderOp type op).toList := by
  obtain ⟨nonempty, words⟩ := isIdentifier_iff.1 (isIdentifier_mnemonic op)
  have unequal : '=' ∉ op.mnemonic.toList := not_mem_of_all words rfl
  rw [Function.renderOp_toList]
  split
  · exact .of_word nonempty words
  next full =>
  have tight := tight_arguments h (by simpa using full)
  have free {args : List Char} (args_free : '=' ∉ args) :
      ¬ [' ', '=', ' '] <:+: op.mnemonic.toList ++ ' ' :: args := by
    intro found
    have mem : '=' ∈ op.mnemonic.toList ++ ' ' :: args := found.subset (by simp)
    rw [List.mem_append, List.mem_cons] at mem
    rcases mem with mem | mem | mem
    exacts [unequal mem, absurd mem (by decide), args_free mem]
  by_cases call : ∃ callee args, op = .call callee args
  · obtain ⟨callee, args, rfl⟩ := call
    have inner : ∀ y ∈ commaJoin (args.map g.operandText), isArgumentChar y = true := by
      refine isArgumentChar_commaJoin fun p hp => ?_
      obtain ⟨x, hx, rfl⟩ := List.mem_map.mp hp
      exact isArgumentChar_of_mem_operand (h.operands x hx)
    have isCallee := h.callee callee args rfl
    refine .of_arguments nonempty words tight ?_ (fun found => isCallee.single ?_) ?_
    · have text : g.arguments type (.call callee args) =
          ('@' :: (callee.toList ++ '(' :: commaJoin (args.map g.operandText))) ++ [')'] := by
        simp [Function.arguments]
      rw [text, List.getLast?_concat]
      decide
    · -- neither the word in front nor the arguments have an equals sign
      have text : (Op.call callee args).mnemonic.toList ++ ' ' :: g.arguments type (.call callee args) =
          "call @".toList ++ (callee.toList ++ ('(' :: (commaJoin (args.map g.operandText) ++ [')']))) := by
        simp [Op.mnemonic, Function.arguments]
      rw [text] at found
      refine infix_middle found (by decide) ?_ (by decide) (by simp)
      simpa using not_mem_of_all inner rfl
    · have line := isCallee.line
      simpa [Function.arguments, line] using not_mem_of_all (c := '\n') inner rfl
  by_cases switch : ∃ x d cases, op = .switch x d cases
  · obtain ⟨x, d, cases, rfl⟩ := switch
    have chars := mem_switchArguments h
    refine .of_arguments nonempty words tight ?_ (free fun mem => ?_) fun mem => ?_
    · have text : g.arguments type (.switch x d cases) = (commaJoin [g.operandText x, g.labelText d] ++
          ' ' :: '[' :: commaJoin (cases.map g.armText)) ++ [']'] := by
        simp [Function.arguments]
      rw [text, List.getLast?_concat]
      decide
    · exact absurd (chars _ mem) (by decide)
    · exact absurd (chars _ mem) (by decide)
  · have chars := isArgumentChar_arguments h (fun callee args e => call ⟨callee, args, e⟩)
      fun x d cases e => switch ⟨x, d, cases, e⟩
    refine .of_arguments nonempty words tight (fun last => ?_) (free ?_) ?_
    · exact not_mem_of_all (c := ':') chars rfl (List.mem_of_getLast? last)
    · exact not_mem_of_all chars rfl
    · exact not_mem_of_all chars rfl

end Reader.Context

namespace Reader

open Context

variable {o : Outline} {line : Line} {b : BlockId} {name text : List Char}

/-! ## Labels and instructions -/

theorem outline_label (written : line.text = name ++ [':']) (identifier : isIdentifier name = true)
    (new : o.function.blockNamed? (String.ofList name) = none) :
    outline o line = .ok
      { o with
        function := (o.function.addBlock (String.ofList name)).2
        current := some (o.function.addBlock (String.ofList name)).1 } := by
  have label : (beforeEnd? ':' line.text).filter isIdentifier = some name := by
    rw [written, beforeEnd?_concat]
    simp [identifier]
  simp [outline, label, new]
  rfl

theorem not_label (last : line.text.getLast? ≠ some ':') :
    (beforeEnd? ':' line.text).filter isIdentifier = none := by
  rw [beforeEnd?, if_neg last]
  rfl

theorem outline_effect (statement : Statement line.text) (current : o.current = some b) :
    outline o line = .ok { o with pending := o.pending ++ [⟨line.number, b, none, line.text⟩] } := by
  have single : splitAt? " = ".toList line.text = none :=
    (splitAt?_eq_none_iff (by decide)).mpr statement.single
  simp only [outline, not_label statement.last, single, current]
  rfl

theorem outline_definition (written : line.text = '%' :: (name ++ (" = ".toList ++ text)))
    (identifier : isIdentifier name = true) (statement : Statement text)
    (new : o.function.valueNamed? (String.ofList name) = none) (current : o.current = some b) :
    outline o line = .ok
      { o with
        function := (o.function.newValue (String.ofList name) .void).2
        pending := o.pending ++
          [⟨line.number, b, some (o.function.newValue (String.ofList name) .void).1, text⟩] } := by
  obtain ⟨-, words⟩ := isIdentifier_iff.1 identifier
  have last : line.text.getLast? ≠ some ':' := by
    have split : line.text = ('%' :: (name ++ " = ".toList)) ++ text := by simp [written]
    rw [split, List.getLast?_append_of_ne_nil _ statement.tight.nonempty]
    exact statement.last
  have free : ' ' ∉ '%' :: name := by
    rw [List.mem_cons, not_or]
    exact ⟨by decide, not_mem_of_all words rfl⟩
  have split : splitAt? " = ".toList line.text = some ('%' :: name, text) := by
    rw [written]
    change splitAt? [' ', '=', ' '] (('%' :: name) ++ ([' ', '=', ' '] ++ text)) = _
    exact splitAt?_append free
  have tight : Tight ('%' :: name) :=
    (Tight.singleton (c := '%') (by decide)).append (part_of_isIdentifier identifier).tight []
  have named : percentName? (trim ('%' :: name)) = some name := by
    rw [tight.trim, percentName?_eq_some_iff]
    exact ⟨rfl, identifier⟩
  have defined : define o.function line.number name .void =
      .ok (o.function.newValue (String.ofList name) .void) := define_eq_ok_iff.2 ⟨new, rfl⟩
  simp only [outline, not_label last, split, named, orFail_some, ok_bind, defined, current,
    statement.tight.trim]
  rfl

/-! ## The first line -/

def parameterText (g : Function) (p : ValueId) : List Char :=
  '%' :: ((g.valueName p).toList ++ ':' :: ' ' :: (g.valueType p).render.toList)

theorem renderHeader_toList (g : Function) : g.renderHeader.toList = "fn ".toList ++
    ((g.name.toList ++ '(' :: (commaJoin (g.params.map (parameterText g)) ++ [')']) ++
      ' ' :: '-' :: '>' :: ' ' :: (g.returns.render.toList ++ [' '])) ++ ['\x7b']) := by
  have params : (g.params.map fun p => "%" ++ g.valueName p ++ ": " ++ (g.valueType p).render).map
      String.toList = g.params.map (parameterText g) := by
    simp [parameterText]
  simp [Function.renderHeader, commaSeparated_toList, ← params]

/-- The function that has only its first parameters so far. -/
def declared (g : Function) (ps : List ValueId) : Function where
  name := g.name
  params := (List.range ps.length).map ValueId.mk
  returns := g.returns
  values := (ps.map g.valueInfo).toArray
  blocks := #[]
  layout := []

/-- What the first line of a function needs in order to be read. -/
structure Signature (g : Function) : Prop where
  name : isIdentifier g.name.toList = true
  params : ∀ p ∈ g.params, isIdentifier (g.valueName p).toList = true
  types : ∀ p ∈ g.params, (g.valueType p).Legal ∧ (g.valueType p).isVoid = false
  distinct : (g.params.map g.valueName).Nodup
  returns : g.returns.Legal

theorem part_parameterText {g : Function} {p : ValueId} (h : isIdentifier (g.valueName p).toList = true) :
    Part (parameterText g p) := by
  have name := part_of_isIdentifier h
  have type := (g.valueType p).part_render
  have percent : Closed ['%'] := closed_of_plain (List.all_eq_true.mp rfl)
  have colon : Closed [':', ' '] := closed_of_plain (List.all_eq_true.mp rfl)
  have tight := (Tight.singleton (c := '%') (by decide)).append type.tight
    ((g.valueName p).toList ++ [':', ' '])
  exact ⟨by simpa [parameterText] using tight,
    percent.append (name.closed.append (colon.append type.closed))⟩

theorem valueNamed?_declared {g : Function} {ps : List ValueId} {n : String}
    (new : n ∉ ps.map g.valueName) : (declared g ps).valueNamed? n = none := by
  rw [Function.valueNamed?_eq_none_iff]
  intro info mem e
  simp only [declared, List.mem_toArray, List.mem_map] at mem
  obtain ⟨q, hq, rfl⟩ := mem
  exact new (List.mem_map.mpr ⟨q, hq, e⟩)

theorem parameter_text {g : Function} {ps : List ValueId} {p : ValueId} {n : Nat}
    (identifier : isIdentifier (g.valueName p).toList = true)
    (type : (g.valueType p).Legal ∧ (g.valueType p).isVoid = false)
    (new : g.valueName p ∉ ps.map g.valueName) :
    parameter n (declared g ps) (parameterText g p) = .ok (declared g (ps ++ [p])) := by
  obtain ⟨-, words⟩ := isIdentifier_iff.1 identifier
  have split : splitAtChar? ':' (parameterText g p) =
      some ('%' :: (g.valueName p).toList, ' ' :: (g.valueType p).render.toList) := by
    change splitAtChar? ':' (('%' :: (g.valueName p).toList) ++ ':' :: _) = _
    refine splitAtChar?_append ?_
    rw [List.mem_cons, not_or]
    exact ⟨by decide, not_mem_of_all words rfl⟩
  have tight : Tight ('%' :: (g.valueName p).toList) :=
    (Tight.singleton (c := '%') (by decide)).append (part_of_isIdentifier identifier).tight []
  have named : percentName? (trim ('%' :: (g.valueName p).toList)) = some (g.valueName p).toList := by
    rw [tight.trim, percentName?_eq_some_iff]
    exact ⟨rfl, identifier⟩
  have read : Ty.readValue? (' ' :: (g.valueType p).render.toList) = some (g.valueType p) :=
    Ty.readValue?_cons_blank type.1 type.2
  have free : (declared g ps).valueNamed? (g.valueName p) = none := valueNamed?_declared new
  have defined : define (declared g ps) n (g.valueName p).toList (g.valueType p) =
      .ok ((declared g ps).newValue (g.valueName p) (g.valueType p)) := by
    refine define_eq_ok_iff.2 ?_
    rw [String.ofList_toList]
    exact ⟨free, rfl⟩
  simp only [parameter, split, orFail_some, ok_bind, named, valueType, read, defined,
    Function.newValue_of_new _ free]
  refine congrArg Except.ok ?_
  simp [declared, List.range_succ, Function.valueName, Function.valueType]

theorem parameters_text {g : Function} (h : Signature g) (n : Nat) {todo done : List ValueId}
    (all : done ++ todo = g.params) : (todo.map (parameterText g)).foldlM (parameter n) (declared g done) =
      .ok (declared g g.params) := by
  induction todo generalizing done with
  | nil =>
    rw [List.append_nil] at all
    rw [all]
    rfl
  | cons p todo ih =>
    have mem : p ∈ g.params := all ▸ List.mem_append_right _ List.mem_cons_self
    have distinct := h.distinct
    rw [← all, List.map_append, List.map_cons, List.nodup_append] at distinct
    have new : g.valueName p ∉ done.map g.valueName := fun old =>
      distinct.2.2 _ old _ List.mem_cons_self rfl
    rw [List.map_cons, List.foldlM_cons, parameter_text (h.params p mem) (h.types p mem) new]
    exact ih (by simpa using all)

theorem header_text {g : Function} {line : Line} (h : Signature g)
    (written : line.text = g.renderHeader.toList) : header line = .ok (declared g g.params) := by
  obtain ⟨nonempty, words⟩ := isIdentifier_iff.1 h.name
  have name := part_of_isIdentifier h.name
  have parts : ∀ p ∈ g.params.map (parameterText g), Part p := by
    intro q hq
    obtain ⟨p, hp, rfl⟩ := List.mem_map.mp hq
    exact part_parameterText (h.params p hp)
  have inner : Tight (commaJoin (g.params.map (parameterText g)) ++ [')']) := by
    cases e : g.params.map (parameterText g) with
    | nil => exact .singleton (by decide)
    | cons p ps =>
      rw [e] at parts
      exact (tight_commaJoin fun q hq => (parts q hq).tight).append (.singleton (by decide)) []
  have signature : Tight (g.name.toList ++ '(' :: (commaJoin (g.params.map (parameterText g)) ++ [')'])) :=
    name.tight.append inner ['(']
  have opening : '(' ∉ g.name.toList := not_mem_of_all words rfl
  have dash : '-' ∉ ' ' :: (g.returns.render.toList ++ [' ']) := by
    have : '-' ∉ g.returns.render.toList := not_mem_of_all (fun _ => Ty.isTypeChar_of_mem_render) rfl
    simp [this]
  have returns : Ty.read? ([' '] ++ (g.returns.render.toList ++ [' '])) = some g.returns :=
    Ty.read?_surrounded h.returns (List.all_eq_true.mp rfl) (List.all_eq_true.mp rfl)
  rw [List.singleton_append] at returns
  have split : splitAtLast? "->".toList (g.name.toList ++ '(' ::
        (commaJoin (g.params.map (parameterText g)) ++ [')']) ++
        ' ' :: '-' :: '>' :: ' ' :: (g.returns.render.toList ++ [' '])) =
      some (g.name.toList ++ '(' :: (commaJoin (g.params.map (parameterText g)) ++ [')']) ++ [' '],
        ' ' :: (g.returns.render.toList ++ [' '])) := by
    generalize g.name.toList ++ '(' :: (commaJoin (g.params.map (parameterText g)) ++ [')']) = front
    have text : front ++ ' ' :: '-' :: '>' :: ' ' :: (g.returns.render.toList ++ [' ']) =
        (front ++ [' ']) ++ '-' :: '>' :: ' ' :: (g.returns.render.toList ++ [' ']) := by simp
    rw [text]
    exact splitAtLast?_pair (by decide) dash
  rw [header, written, renderHeader_toList, between?_append]
  simp only [orFail_some, ok_bind, split, signature.trim_concat (c := ' ') (by decide),
    splitAtChar?_append opening, inner.trim, beforeEnd?_concat, name.tight.trim, h.name, Bool.not_true,
    returns, commaParts_commaJoin parts, String.ofList_toList]
  exact parameters_text h line.number (List.nil_append g.params)

end Reader

end CheckpointRestart
