import CheckpointRestart.Program.Reader
import CheckpointRestart.Proofs.Program.Names
import CheckpointRestart.Proofs.Text.Split

/-! # What one line does

The passes of the reader go over lists of lines. What each of them does with one line is said here
once, for lines that are read without a fault.
-/

namespace CheckpointRestart

namespace Function

variable {f : Function} {name : String} {t : Ty}

theorem valueNamed?_eq_none_iff :
    f.valueNamed? name = none ↔ ∀ info ∈ f.values, info.name ≠ name := by
  simp [valueNamed?]

theorem blockNamed?_eq_none_iff :
    f.blockNamed? name = none ↔ ∀ block ∈ f.blocks, block.name ≠ name := by
  simp [blockNamed?]

theorem values_newValue_of_new (h : f.valueNamed? name = none) :
    (f.newValue name t).2.values = f.values.push ⟨name, t⟩ := by
  rw [valueNamed?_eq_none_iff] at h
  have new : name ∉ f.values.toList.map (·.name) := by
    simpa using h
  simp only [newValue, freshName_of_not_mem new]

theorem blocks_addBlock_of_new (h : f.blockNamed? name = none) :
    (f.addBlock name).2.blocks = f.blocks.push ⟨name, []⟩ := by
  rw [blockNamed?_eq_none_iff] at h
  have new : name ∉ f.blocks.toList.map (·.name) := by
    simpa using h
  simp only [addBlock, createBlock, freshName_of_not_mem new]

end Function

namespace Reader

open Text Context

variable {f f' : Function} {line : Nat} {α : Type}

theorem orFail_eq_ok_iff {c : Context} {x? : Option α} {fault : LineFault} {x : α} :
    c.orFail x? fault = .ok x ↔ x? = some x := by
  cases x? <;> simp [orFail, fail]

theorem fail_ne_ok {c : Context} {fault : LineFault} {x : α} : c.fail fault ≠ .ok x :=
  fun h => by cases h

theorem define_eq_ok_iff {name : List Char} {t : Ty} {r : ValueId × Function} :
    define f line name t = .ok r ↔ f.valueNamed? (String.ofList name) = none ∧
      r = f.newValue (String.ofList name) t := by
  unfold define
  cases h : f.valueNamed? (String.ofList name) <;> simp [h, @eq_comm _ r]

theorem percentName?_eq_some_iff {s name : List Char} :
    percentName? s = some name ↔ s = '%' :: name ∧ isIdentifier name = true := by
  cases s with
  | nil => simp [percentName?, afterStart?, dropStart?]
  | cons c s =>
    by_cases h : '%' = c
    · subst h
      simp [percentName?, afterStart?, dropStart?, Option.filter_eq_some_iff]
    · simp [percentName?, afterStart?, dropStart?, h, Ne.symm h]

theorem parameter_eq_ok {s : List Char} (h : parameter line f s = .ok f') :
    ∃ name t, isIdentifier name = true ∧ t.isVoid = false ∧ (∃ u, Ty.read? u = some t) ∧
      f.valueNamed? (String.ofList name) = none ∧
      f' = (f.addParam (String.ofList name) t).2 := by
  unfold parameter at h
  simp only [bind_eq_ok_iff, orFail_eq_ok_iff, Context.valueType] at h
  obtain ⟨⟨front, type⟩, -, name, named, t, typed, ⟨v, g⟩, defined, h⟩ := h
  obtain ⟨new, pair⟩ := define_eq_ok_iff.1 defined
  cases pair
  cases h
  obtain ⟨-, identifier⟩ := percentName?_eq_some_iff.1 named
  obtain ⟨read, void⟩ := Option.filter_eq_some_iff.mp typed
  exact ⟨name, t, identifier, by simpa using void, ⟨_, read⟩, new, rfl⟩

/-- What a line between the braces adds: a block, or an instruction still to be read. -/
inductive Outlines (o : Outline) (line : Line) : Outline → Prop
  | label {name : List Char} : line.text = name ++ [':'] → isIdentifier name = true →
    o.function.blockNamed? (String.ofList name) = none →
    Outlines o line
      { o with
        function := (o.function.addBlock (String.ofList name)).2
        current := some (o.function.addBlock (String.ofList name)).1 }
  | effect {b : BlockId} : o.current = some b → splitAt? " = ".toList line.text = none →
    Outlines o line { o with pending := o.pending ++ [⟨line.number, b, none, line.text⟩] }
  | definition {b : BlockId} {name text : List Char} : o.current = some b →
    isIdentifier name = true → o.function.valueNamed? (String.ofList name) = none →
    Outlines o line
      { o with
        function := (o.function.newValue (String.ofList name) .void).2
        pending := o.pending ++
          [⟨line.number, b, some (o.function.newValue (String.ofList name) .void).1, trim text⟩] }

theorem outline_eq_ok {o o' : Outline} {line : Line} (h : outline o line = .ok o') :
    Outlines o line o' := by
  unfold outline at h
  dsimp only at h
  split at h
  · next label found =>
    obtain ⟨text, identifier⟩ := Option.filter_eq_some_iff.mp found
    split at h
    · exact absurd (bind_eq_ok_iff.1 h) (by simp [fail])
    · next new =>
      cases h
      exact .label (beforeEnd?_eq_some_iff.1 text) identifier (by simpa using new)
  · split at h
    · next lhs text found =>
      simp only [bind_eq_ok_iff, orFail_eq_ok_iff] at h
      obtain ⟨name, named, ⟨v, g⟩, defined, r, first, h⟩ := h
      obtain ⟨new, pair⟩ := define_eq_ok_iff.1 defined
      cases pair
      cases first
      split at h
      · next b current =>
        cases h
        exact .definition current (percentName?_eq_some_iff.1 named).2 new
      · exact absurd h fail_ne_ok
    · next found =>
      obtain ⟨r, first, h⟩ := bind_eq_ok_iff.1 h
      cases first
      split at h
      · next b current =>
        cases h
        exact .effect current found
      · exact absurd h fail_ne_ok

/-- What an instruction line adds to the function, and to the results without a type. -/
inductive Appends (f : Function) (untyped : List (Nat × ValueId)) (p : Pending) (op : Op) :
    Option Ty → Function × List (Nat × ValueId) → Prop
  | effect {t : Option Ty} : p.result = none → op.producesValue = false →
    Appends f untyped p op t (f.append p.block ⟨none, op⟩, untyped)
  | typed {v : ValueId} {t : Ty} : p.result = some v → op.producesValue = true →
    Appends f untyped p op (some t)
      ((f.append p.block ⟨some v, op⟩).setValueType v t, untyped)
  | untyped {v : ValueId} : p.result = some v → op.producesValue = true →
    Appends f untyped p op none (f.append p.block ⟨some v, op⟩, untyped ++ [(p.line, v)])

theorem readPending_eq_ok {state state' : Function × List (Nat × ValueId)} {p : Pending}
    (h : readPending state p = .ok state') :
    ∃ op t, Context.instruction ⟨state.1, p.line⟩ p.text = .ok (op, t) ∧
      Appends state.1 state.2 p op t state' := by
  obtain ⟨f, untyped⟩ := state
  unfold readPending at h
  rw [bind_eq_ok_iff] at h
  obtain ⟨⟨op, t⟩, read, h⟩ := h
  refine ⟨op, t, read, ?_⟩
  dsimp only at h
  split at h
  · exact absurd h fail_ne_ok
  · exact absurd h fail_ne_ok
  · next result produces =>
    cases h
    exact .effect result produces
  · next v result produces =>
    cases t with
    | some t =>
      cases h
      exact .typed result produces
    | none =>
      cases h
      exact .untyped result produces

end Reader

end CheckpointRestart
