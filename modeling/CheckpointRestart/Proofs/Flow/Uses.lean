import CheckpointRestart.Flow.Uses
import CheckpointRestart.Proofs.Collections
import CheckpointRestart.Proofs.Program.Strictness

/-! # What a summary says

The definitions and uses that are collected from a block, said without the order in which they are
collected: an ordinary use counts if the value is not defined earlier in the block, and the use of
a value brings its companions along.
-/

namespace CheckpointRestart

/-- The instruction at a position of `b` makes the use `u`. -/
def Makes (companions : Companions) (b : BlockId) (position : Nat) (i : Instruction) (u : Use) :
    Prop :=
  (i.op.isPhi = false ∧ u.source = none ∧ ∃ v ∈ i.op.usedValues,
    u.value = v ∨ u.value ∈ companions v ⟨b, some position⟩) ∨
  (∃ pairs v q, i.op = .phi pairs ∧ (.value v, q) ∈ pairs ∧ i.result ≠ some v ∧
    u.source = some q ∧ (u.value = v ∨ u.value ∈ companions v ⟨q, none⟩))

variable {companions : Companions} {b : BlockId} {u : Use} {uses : UseSet}

theorem mem_addUse_iff {v : ValueId} {source : Option BlockId} {point : UsePoint} :
    u ∈ addUse companions uses v source point ↔
      u ∈ uses ∨ (u.source = source ∧ (u.value = v ∨ u.value ∈ companions v point)) := by
  have spec : ∀ (t : UseSet) w, u ∈ t.insert ⟨w, source⟩ ↔ u ∈ t ∨ u = ⟨w, source⟩ := by
    intro t w
    rw [TreeSet.mem_insert_iff, or_comm]
  rw [addUse, mem_foldl_iff (fun t : UseSet => u ∈ t) _ spec]
  obtain ⟨w, s⟩ := u
  simp only [List.mem_cons, Use.mk.injEq]
  grind

theorem mem_addInstructionUses_iff {position : Nat} {i : Instruction} :
    u ∈ addInstructionUses companions b position i uses ↔
      u ∈ uses ∨ Makes companions b position i u := by
  obtain ⟨r, op⟩ := i
  have ordinary : ∀ vs : List ValueId,
      u ∈ vs.foldl (fun uses v => addUse companions uses v none ⟨b, some position⟩) uses ↔
        u ∈ uses ∨ ∃ v ∈ vs, u.source = none ∧
          (u.value = v ∨ u.value ∈ companions v ⟨b, some position⟩) :=
    fun vs => mem_foldl_iff (fun t : UseSet => u ∈ t) _ (fun _ _ => mem_addUse_iff) vs uses
  cases op with
  | phi pairs =>
    let taken (pair : Operand × BlockId) : Prop := ∃ v, pair.1 = .value v ∧ some v ≠ r ∧
      u.source = some pair.2 ∧ (u.value = v ∨ u.value ∈ companions v ⟨pair.2, none⟩)
    refine (mem_foldl_iff (fun t : UseSet => u ∈ t) taken (fun t pair => ?_) pairs uses).trans
      (or_congr Iff.rfl ⟨?_, ?_⟩)
    · obtain ⟨x, q⟩ := pair
      cases x with
      | const c => simp [taken]
      | value v =>
        dsimp only [taken]
        split
        · next e => simp [e]
        · next e =>
          rw [mem_addUse_iff]
          simp [e]
    · rintro ⟨⟨_, q⟩, hq, v, rfl, ne, source, use⟩
      exact .inr ⟨pairs, v, q, rfl, hq, Ne.symm ne, source, use⟩
    · rintro (⟨phi, -⟩ | ⟨_, v, q, hop, hq, ne, source, use⟩)
      · cases phi
      · cases hop
        exact ⟨_, hq, v, rfl, Ne.symm ne, source, use⟩
  | _ =>
    refine (ordinary _).trans (or_congr Iff.rfl ⟨?_, ?_⟩)
    · rintro ⟨v, hv, source, use⟩
      exact .inl ⟨rfl, source, v, hv, use⟩
    · rintro (⟨-, source, v, hv, use⟩ | ⟨_, _, _, hop, -⟩)
      · exact ⟨v, hv, source, use⟩
      · cases hop

namespace Function

variable {f : Function} {v : ValueId} {merges : BlockSet}

/-- The uses that `b` makes of values it has not defined before. -/
def Needs (f : Function) (companions : Companions) (b : BlockId) (u : Use) : Prop :=
  ∃ n i, (f.body b)[n]? = some i ∧ Makes companions b n i u ∧
    (u.source = none → u.value ∉ results ((f.body b).take n))

theorem mem_collected_iff (companions : Companions) (b : BlockId) (body : List Instruction)
    (k : Nat) :
    let r := (body.zipIdx k).foldr (fun (i, position) (defs, uses) =>
      let (defs, uses) := match i.result with
        | some r => (defs.insert r, uses.erase (.ordinary r))
        | none => (defs, uses)
      (defs, addInstructionUses companions b position i uses)) ((∅ : ValueSet), (∅ : UseSet))
    (∀ v, v ∈ r.1 ↔ v ∈ results body) ∧
      ∀ u, u ∈ r.2 ↔ ∃ n i, body[n]? = some i ∧ Makes companions b (k + n) i u ∧
        (u.source = none → u.value ∉ results (body.take n)) := by
  induction body generalizing k with
  | nil => simp
  | cons i body ih =>
    obtain ⟨defs, uses⟩ := ih (k + 1)
    rw [List.zipIdx_cons, List.foldr_cons]
    -- the instructions behind this one, with its result taken off
    have behind : ∀ u : Use, (∃ n j, body[n]? = some j ∧ Makes companions b (k + 1 + n) j u ∧
        (u.source = none → u.value ∉ results (body.take n))) ∧
          (u.source = none → i.result ≠ some u.value) ↔
        ∃ n j, (i :: body)[n + 1]? = some j ∧ Makes companions b (k + (n + 1)) j u ∧
          (u.source = none → u.value ∉ results ((i :: body).take (n + 1))) := by
      intro u
      simp only [List.getElem?_cons_succ, List.take_succ_cons, results_cons, List.mem_append,
        Option.mem_toList, Nat.add_right_comm k 1, Nat.add_assoc k]
      grind
    have split : ∀ u : Use, (∃ n j, (i :: body)[n]? = some j ∧ Makes companions b (k + n) j u ∧
        (u.source = none → u.value ∉ results ((i :: body).take n))) ↔
        (∃ n j, (i :: body)[n + 1]? = some j ∧ Makes companions b (k + (n + 1)) j u ∧
          (u.source = none → u.value ∉ results ((i :: body).take (n + 1)))) ∨
        Makes companions b k i u := by
      intro u
      constructor
      · rintro ⟨n, j, hj, makes, free⟩
        cases n with
        | zero =>
          cases hj
          exact .inr makes
        | succ n => exact .inl ⟨n, j, hj, makes, free⟩
      · rintro (⟨n, j, rest⟩ | makes)
        · exact ⟨n + 1, j, rest⟩
        · exact ⟨0, i, rfl, makes, by simp⟩
    cases hr : i.result with
    | none =>
      refine ⟨fun v => by simpa [hr] using defs v, fun u => ?_⟩
      refine mem_addInstructionUses_iff.trans ?_
      rw [split, ← behind, ← uses u]
      simp [hr]
    | some r =>
      refine ⟨fun v => ?_, fun u => ?_⟩
      · simp only [TreeSet.mem_insert_iff, defs, results_cons, hr, Option.toList_some,
          List.mem_append, List.mem_singleton]
      · refine mem_addInstructionUses_iff.trans ?_
        rw [split, ← behind, ← uses u]
        simp only [hr]
        rw [TreeSet.mem_erase_iff]
        obtain ⟨w, source⟩ := u
        cases source <;> simp [Use.ordinary, and_comm, eq_comm]

theorem mem_defs_blockUses_iff :
    v ∈ (f.blockUses companions b).1 ↔ v ∈ results (f.body b) :=
  (mem_collected_iff companions b (f.body b) 0).1 v

theorem mem_uses_blockUses_iff :
    u ∈ (f.blockUses companions b).2 ↔ f.Needs companions b u := by
  refine ((mem_collected_iff companions b (f.body b) 0).2 u).trans ?_
  simp [Needs]

theorem node_summarize (hb : b ∈ f.layout) :
    (f.summarize merges companions).node b = f.node merges companions b := by
  have found : ∀ (layout : List BlockId) (nodes : Std.ExtTreeMap BlockId Node),
      (layout.foldl (fun nodes c => nodes.insert c (f.node merges companions c)) nodes).getD b
        default = if b ∈ layout then f.node merges companions b else nodes.getD b default := by
    intro layout
    induction layout with
    | nil => simp
    | cons c layout ih =>
      intro nodes
      rw [List.foldl_cons, ih, TreeMap.getD_insert_iff]
      by_cases e : b = c <;> simp [e]
  rw [summarize, Summary.node, found, if_pos hb]

theorem mem_defs_node_iff :
    v ∈ (f.node merges companions b).defs ↔
      v ∈ results (f.body b) ∨ (b = f.entry ∧ v ∈ f.params) := by
  unfold node
  dsimp only
  split
  · next e =>
    rw [TreeSet.mem_foldl_insert_iff, mem_defs_blockUses_iff]
    simp [e]
  · next e =>
    rw [mem_defs_blockUses_iff]
    simp [e]

theorem mem_uses_node_iff : u ∈ (f.node merges companions b).uses ↔ f.Needs companions b u :=
  mem_uses_blockUses_iff

end Function

end CheckpointRestart
