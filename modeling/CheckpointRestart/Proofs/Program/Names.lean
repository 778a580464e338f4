import CheckpointRestart.Proofs.Program.Edits
import CheckpointRestart.Text.Split
import Mathlib.Data.List.Perm.Subperm

/-! # Names

New values and blocks get names that are not taken. A taken name is numbered, and some number among
as many as there are names is free. If the names asked for are identifiers, all names stay distinct
identifiers.
-/

namespace CheckpointRestart

namespace Text

variable {s t : List Char}

theorem isIdentifier_append (hs : s = [] ∨ isIdentifier s = true) (ht : isIdentifier t = true) :
    isIdentifier (s ++ t) = true := by
  rcases hs with rfl | hs
  · exact ht
  · simp only [isIdentifier, Bool.and_eq_true, Bool.not_eq_true', List.isEmpty_eq_false_iff,
      List.all_append] at hs ht ⊢
    exact ⟨List.append_ne_nil_of_left_ne_nil hs.1 t, hs.2, ht.2⟩

theorem isIdentifier_toString (n : Nat) : isIdentifier (toString n).toList = true := by
  have digits : (toString n).toList = Nat.toDigits 10 n := by
    rw [Nat.toString_eq_ofList_toDigits, String.toList_ofList]
  rw [isIdentifier, digits, Bool.and_eq_true]
  refine ⟨by simp [Nat.toDigits_ne_nil], List.all_eq_true.mpr fun c hc => ?_⟩
  have digit : c.isDigit = true := Nat.isDigit_of_mem_toDigits (by decide) (by decide) hc
  simp [Char.isAlphanum, digit]

end Text

/-! ## Names that are not taken -/

theorem freshName_of_not_mem {taken : List String} {base : String} (h : base ∉ taken) :
    freshName taken base = base := by
  simp [freshName, h]

theorem numbered_inj {base : String} {m n : Nat}
    (h : base ++ "." ++ toString m = base ++ "." ++ toString n) : m = n := by
  have lists := congrArg String.toList h
  simp only [String.toList_append, List.append_cancel_left_eq] at lists
  have digits := congrArg (fun ds => Nat.ofDigitChars 10 ds 0) lists
  simpa [Nat.toString_eq_ofList_toDigits] using digits

theorem numbered_ne {base : String} {n : Nat} : base ++ "." ++ toString n ≠ base := by
  intro h
  have lengths := congrArg (fun s => s.toList.length) h
  simp only [String.toList_append, List.length_append] at lengths
  have dot : ".".toList.length = 1 := rfl
  omega

/-- There are more numbered names than names that are taken. -/
theorem exists_numbered_not_mem {taken : List String} {base : String} (h : base ∈ taken) :
    ∃ n < taken.length, base ++ "." ++ toString (n + 1) ∉ taken := by
  by_contra all
  have all : ∀ n < taken.length, base ++ "." ++ toString (n + 1) ∈ taken := by
    intro n lt
    by_contra free
    exact all ⟨n, lt, free⟩
  let names := (List.range taken.length).map fun n => base ++ "." ++ toString (n + 1)
  have nodup : (base :: names).Nodup := by
    refine List.nodup_cons.mpr ⟨fun mem => ?_, List.nodup_range.map fun m n e => ?_⟩
    · obtain ⟨n, -, e⟩ := List.mem_map.mp mem
      exact numbered_ne e
    · exact Nat.succ_injective (numbered_inj e)
  have sub : base :: names ⊆ taken := by
    intro name hn
    rcases List.mem_cons.mp hn with rfl | hn
    · exact h
    · obtain ⟨n, lt, rfl⟩ := List.mem_map.mp hn
      exact all n (List.mem_range.mp lt)
  have le := (List.subperm_of_subset nodup sub).length_le
  rw [List.length_cons, List.length_map, List.length_range] at le
  omega

theorem freshName_cases (taken : List String) (base : String) :
    freshName taken base = base ∧ base ∉ taken ∨
      ∃ n, freshName taken base = base ++ "." ++ toString (n + 1) ∧ freshName taken base ∉ taken := by
  by_cases h : base ∈ taken
  · refine .inr ?_
    have some : ∃ name, ((List.range taken.length).findSome? fun n =>
        let name := base ++ "." ++ toString (n + 1)
        if taken.contains name then none else some name) = some name := by
      obtain ⟨n, lt, free⟩ := exists_numbered_not_mem h
      rw [← Option.isSome_iff_exists, List.findSome?_isSome_iff]
      exact ⟨n, List.mem_range.mpr lt, by simpa using free⟩
    obtain ⟨name, found⟩ := some
    obtain ⟨n, -, e⟩ := List.exists_of_findSome?_eq_some found
    have fresh : freshName taken base = name := by
      unfold freshName
      rw [if_pos (List.contains_iff_mem.mpr h), found]
      rfl
    dsimp only at e
    split at e
    · cases e
    · next free =>
      cases e
      exact ⟨n, fresh, by rw [fresh]; simpa using free⟩
  · exact .inl ⟨freshName_of_not_mem h, h⟩

theorem freshName_not_mem (taken : List String) (base : String) : freshName taken base ∉ taken := by
  rcases freshName_cases taken base with ⟨e, free⟩ | ⟨n, -, free⟩
  · rwa [e]
  · exact free

theorem isIdentifier_freshName (taken : List String) {base : String}
    (h : Text.isIdentifier base.toList = true) :
    Text.isIdentifier (freshName taken base).toList = true := by
  rcases freshName_cases taken base with ⟨e, -⟩ | ⟨n, e, -⟩
  · rwa [e]
  · rw [e, String.toList_append, String.toList_append]
    exact Text.isIdentifier_append (.inr (Text.isIdentifier_append (.inr h) (by decide)))
      (Text.isIdentifier_toString _)

/-! ## Functions with names -/

namespace Function

variable {f f' : Function} {v : ValueId} {b : BlockId} {name : String}

/-- Distinct identifiers as names. -/
structure Named (f : Function) : Prop where
  values : ∀ info ∈ f.values, Text.isIdentifier info.name.toList = true
  blocks : ∀ block ∈ f.blocks, Text.isIdentifier block.name.toList = true
  distinctValues : (f.values.toList.map (·.name)).Nodup
  distinctBlocks : (f.blocks.toList.map (·.name)).Nodup

namespace Named

theorem of_names (h : f.Named) (values : f'.values.toList.map (·.name) = f.values.toList.map (·.name))
    (blocks : f'.blocks.toList.map (·.name) = f.blocks.toList.map (·.name)) : f'.Named := by
  refine ⟨fun info hi => ?_, fun block hb => ?_, values ▸ h.distinctValues, blocks ▸ h.distinctBlocks⟩
  · have mem : info.name ∈ f'.values.toList.map (·.name) :=
      List.mem_map.mpr ⟨info, Array.mem_def.mp hi, rfl⟩
    rw [values] at mem
    obtain ⟨other, ho, same⟩ := List.mem_map.mp mem
    exact same ▸ h.values other (Array.mem_def.mpr ho)
  · have mem : block.name ∈ f'.blocks.toList.map (·.name) :=
      List.mem_map.mpr ⟨block, Array.mem_def.mp hb, rfl⟩
    rw [blocks] at mem
    obtain ⟨other, ho, same⟩ := List.mem_map.mp mem
    exact same ▸ h.blocks other (Array.mem_def.mpr ho)

theorem newValue (h : f.Named) (identifier : Text.isIdentifier name.toList = true) (t : Ty) :
    (f.newValue name t).2.Named := by
  refine ⟨fun info hi => ?_, h.blocks, ?_, h.distinctBlocks⟩
  · rcases Array.mem_push.mp hi with hi | rfl
    · exact h.values info hi
    · exact isIdentifier_freshName _ identifier
  · rw [Function.newValue, Array.toList_push, List.map_append, List.map_singleton,
      ← List.concat_eq_append]
    exact h.distinctValues.concat (freshName_not_mem _ _)

theorem of_newValue {t : Ty} (h : (f.newValue name t).2.Named) : f.Named := by
  refine ⟨fun info hi => h.values info (Array.mem_push.mpr (.inl hi)), h.blocks, ?_, h.distinctBlocks⟩
  have distinct := h.distinctValues
  rw [Function.newValue, Array.toList_push, List.map_append] at distinct
  exact (List.nodup_append.mp distinct).1

theorem createBlock (h : f.Named) (identifier : Text.isIdentifier name.toList = true) :
    (f.createBlock name).2.Named := by
  refine ⟨h.values, fun block hb => ?_, h.distinctValues, ?_⟩
  · rcases Array.mem_push.mp hb with hb | rfl
    · exact h.blocks block hb
    · exact isIdentifier_freshName _ identifier
  · rw [Function.createBlock, Array.toList_push, List.map_append, List.map_singleton,
      ← List.concat_eq_append]
    exact h.distinctBlocks.concat (freshName_not_mem _ _)

theorem addBlock (h : f.Named) (identifier : Text.isIdentifier name.toList = true) :
    (f.addBlock name).2.Named := by
  obtain ⟨values, blocks, distinctValues, distinctBlocks⟩ := h.createBlock identifier
  exact ⟨values, blocks, distinctValues, distinctBlocks⟩

theorem insertBlockAfter (h : f.Named) (after : BlockId)
    (identifier : Text.isIdentifier name.toList = true) : (f.insertBlockAfter after name).2.Named := by
  obtain ⟨values, blocks, distinctValues, distinctBlocks⟩ := h.createBlock identifier
  exact ⟨values, blocks, distinctValues, distinctBlocks⟩

theorem modifyBody (h : f.Named) (b : BlockId) (g : List Instruction → List Instruction) :
    (f.modifyBody b g).Named := by
  refine h.of_names rfl (List.ext_getElem? fun n => ?_)
  simp only [Function.modifyBody, List.getElem?_map, Array.getElem?_toList, Array.getElem?_modify]
  split
  · cases f.blocks[n]? <;> simp [Block.mapBody]
  · rfl

theorem mapInstructions (h : f.Named) (g : Instruction → Instruction) :
    (f.mapInstructions g).Named := by
  refine h.of_names rfl ?_
  simp [Function.mapInstructions, Block.mapBody]

theorem valueName (h : f.Named) (lt : v.index < f.values.size) :
    Text.isIdentifier (f.valueName v).toList = true := by
  have info : f.valueInfo v = f.values[v.index] := by simp [valueInfo, lt]
  rw [Function.valueName, info]
  exact h.values _ (Array.getElem_mem lt)

theorem blockName (h : f.Named) (lt : b.index < f.blocks.size) :
    Text.isIdentifier (f.blockName b).toList = true := by
  have block : f.block b = f.blocks[b.index] := by simp [block, lt]
  rw [Function.blockName, block]
  exact h.blocks _ (Array.getElem_mem lt)

theorem valueName_append (h : f.Named) (v : ValueId) {suffix : String}
    (identifier : Text.isIdentifier suffix.toList = true) :
    Text.isIdentifier (f.valueName v ++ suffix).toList = true := by
  rw [String.toList_append]
  refine Text.isIdentifier_append ?_ identifier
  by_cases lt : v.index < f.values.size
  · exact .inr (h.valueName lt)
  · exact .inl (by simp [Function.valueName, valueInfo, Array.getD, lt])

theorem blockName_append (h : f.Named) (b : BlockId) {suffix : String}
    (identifier : Text.isIdentifier suffix.toList = true) :
    Text.isIdentifier (f.blockName b ++ suffix).toList = true := by
  rw [String.toList_append]
  refine Text.isIdentifier_append ?_ identifier
  by_cases lt : b.index < f.blocks.size
  · exact .inr (h.blockName lt)
  · exact .inl (by simp [Function.blockName, block, Array.getD, lt])

theorem valueName_inj (h : f.Named) {w : ValueId} (hv : v.index < f.values.size)
    (hw : w.index < f.values.size) (same : f.valueName v = f.valueName w) : v = w := by
  have name : ∀ u : ValueId, u.index < f.values.size →
      (f.values.toList.map (·.name))[u.index]? = some (f.valueName u) := by
    intro u lt
    simp [Function.valueName, valueInfo, lt]
  have lt : v.index < (f.values.toList.map (·.name)).length := by simpa using hv
  have index := (List.getElem?_inj lt h.distinctValues).mp ((name v hv).trans (same ▸ (name w hw).symm))
  cases v
  cases w
  simp_all

theorem blockName_inj (h : f.Named) {c : BlockId} (hb : b.index < f.blocks.size)
    (hc : c.index < f.blocks.size) (same : f.blockName b = f.blockName c) : b = c := by
  have name : ∀ d : BlockId, d.index < f.blocks.size →
      (f.blocks.toList.map (·.name))[d.index]? = some (f.blockName d) := by
    intro d lt
    simp [Function.blockName, block, lt]
  have lt : b.index < (f.blocks.toList.map (·.name)).length := by simpa using hb
  have index := (List.getElem?_inj lt h.distinctBlocks).mp ((name b hb).trans (same ▸ (name c hc).symm))
  cases b
  cases c
  simp_all

end Named

/-! ## Functions that gain values -/

/-- The function gains the values `new`, in order, and nothing else. -/
structure Grows (f f' : Function) (new : List (ValueId × Ty)) : Prop where
  frame : f' = { f with values := f'.values }
  size : f'.values.size = f.values.size + new.length
  indices : new.map (·.1.index) = List.range' f.values.size new.length
  old : ∀ v : ValueId, v.index < f.values.size → f'.valueType v = f.valueType v
  types : ∀ p ∈ new, f'.valueType p.1 = p.2
  names : ∀ v : ValueId, v.index < f.values.size → f'.valueName v = f.valueName v
  named : f.Named → f'.Named

namespace Grows

variable {f f' f'' : Function} {new new' : List (ValueId × Ty)}

theorem refl (f : Function) : f.Grows f [] :=
  ⟨rfl, rfl, rfl, fun _ _ => rfl, by simp, fun _ _ => rfl, id⟩

theorem newValue (f : Function) {name : String} (t : Ty)
    (identifier : f.Named → Text.isIdentifier name.toList = true) :
    f.Grows (f.newValue name t).2 [(⟨f.values.size⟩, t)] :=
  ⟨rfl, by simp [Function.newValue], rfl, fun _ h => valueType_newValue_of_lt h,
    by simp [valueType_newValue_self], fun _ h => valueName_newValue_of_lt h,
    fun named => named.newValue (identifier named) t⟩

theorem newValue_after (f : Function) (v : ValueId) {suffix : String} (t : Ty)
    (identifier : Text.isIdentifier suffix.toList = true) :
    f.Grows (f.newValue (f.valueName v ++ suffix) t).2 [(⟨f.values.size⟩, t)] :=
  newValue f t fun named => named.valueName_append v identifier

theorem index_mem (h : f.Grows f' new) {p : ValueId × Ty} (hp : p ∈ new) :
    f.values.size ≤ p.1.index ∧ p.1.index < f'.values.size := by
  have : p.1.index ∈ List.range' f.values.size new.length :=
    h.indices ▸ List.mem_map.mpr ⟨p, hp, rfl⟩
  rw [List.mem_range'_1] at this
  rw [h.size]
  exact this

theorem trans (h : f.Grows f' new) (h' : f'.Grows f'' new') : f.Grows f'' (new ++ new') where
  frame := by rw [h'.frame, h.frame]
  size := by rw [h'.size, h.size, List.length_append, Nat.add_assoc]
  indices := by
    rw [List.map_append, h.indices, h'.indices, h.size, List.length_append, List.range'_append_1]
  old v hv := by
    rw [h'.old v (by rw [h.size]; omega), h.old v hv]
  types p hp := by
    rcases List.mem_append.mp hp with hp | hp
    · rw [h'.old p.1 (h.index_mem hp).2, h.types p hp]
    · exact h'.types p hp
  names v hv := by
    rw [h'.names v (by rw [h.size]; omega), h.names v hv]
  named := h'.named ∘ h.named

theorem nodup (h : f.Grows f' new) : (new.map (·.1)).Nodup := by
  have : (new.map (·.1.index)).Nodup := h.indices ▸ List.nodup_range'
  rw [← Function.comp_def ValueId.index, ← List.map_map] at this
  exact this.of_map _

theorem layout (h : f.Grows f' new) : f'.layout = f.layout := by rw [h.frame]

theorem params (h : f.Grows f' new) : f'.params = f.params := by rw [h.frame]

theorem body (h : f.Grows f' new) (b : BlockId) : f'.body b = f.body b := by
  rw [h.frame]
  rfl

theorem le (h : f.Grows f' new) : f.values.size ≤ f'.values.size := by
  rw [h.size]
  exact Nat.le_add_right _ _

end Grows

end Function

end CheckpointRestart
