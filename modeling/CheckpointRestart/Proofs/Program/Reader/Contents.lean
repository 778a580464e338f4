import CheckpointRestart.Proofs.Program.Reader.Operation
import CheckpointRestart.Proofs.Program.Reader.Passes

/-! # What instructions are read as

An operation that is read refers to values and blocks that are named already. Its constants and
types can be written again, and the type of its result is spelled out exactly if the operation says
so.
-/

namespace CheckpointRestart

open Text

theorem forall_of_mapM_eq_ok {ε α β : Type} {read : α → Except ε β} {holds : β → Prop} {xs : List α}
    {ys : List β} (one : ∀ x y, read x = .ok y → holds y) (run : xs.mapM read = .ok ys) :
    ∀ y ∈ ys, holds y := by
  induction xs generalizing ys with
  | nil =>
    cases run
    simp
  | cons x xs ih =>
    rw [List.mapM_cons] at run
    simp only [bind_eq_ok_iff] at run
    obtain ⟨y, first, zs, rest, run⟩ := run
    cases run
    exact List.forall_mem_cons.mpr ⟨one x y first, ih rest⟩

theorem SessionCall.legal_resultType (call : SessionCall) : call.resultType.Legal := by
  have label : Ty.i64.Legal := by decide
  have pointer : Ty.bytePtr.Legal := by decide
  cases call with
  | restartLabel => exact label
  | readAlias w n => exact pointer
  | _ => trivial

namespace Reader

/-- A constant that can be written, or a value that is named. -/
def Holds (f : Function) : Operand → Prop
  | .value v => v.index < f.values.size
  | .const k => k.Legal

def HasBlock (f : Function) (b : BlockId) : Prop :=
  b.index < f.blocks.size

/-- What is known of an operation that is read from `text` in `f`, with the type of its result if it
is spelled out. -/
structure Written (f : Function) (text : List Char) (op : Op) (t? : Option Ty) : Prop where
  operands : ∀ x ∈ op.operands, Holds f x
  blocks : ∀ b ∈ op.targets ++ op.sources, HasBlock f b
  types : ∀ t ∈ op.types, t.Legal ∧ t.isVoid = false
  callee : ∀ name args, op = .call name args → trim name.toList = name.toList ∧
    '(' ∉ name.toList ∧ name.toList <:+: text
  spelled : ∀ t, t? = some t → op.spelled? t = some t ∧ t.Legal
  unspelled : t? = none → op.spelled? .void = none

theorem Written.plain {f : Function} {text : List Char} {op : Op} {t? : Option Ty} (operands : ∀ x ∈ op.operands, Holds f x)
    (targets : op.targets = []) (sources : op.sources = []) (types : op.types = [])
    (callee : ∀ name args, op ≠ .call name args)
    (spelled : ∀ t, t? = some t → op.spelled? t = some t ∧ t.Legal)
    (unspelled : t? = none → op.spelled? .void = none) : Written f text op t? where
  operands := operands
  blocks := by simp [targets, sources]
  types := by simp [types]
  callee name args e := absurd e (callee name args)
  spelled := spelled
  unspelled := unspelled

namespace Context

variable {c : Context} {s args : List Char} {op : Op} {t? : Option Ty} {x y z : Operand} {b : BlockId}

theorem index_of_valueNamed? {f : Function} {name : String} {v : ValueId}
    (h : f.valueNamed? name = some v) : v.index < f.values.size := by
  obtain ⟨n, found, rfl⟩ := Option.map_eq_some_iff.mp h
  obtain ⟨lt, -⟩ := Array.findIdx?_eq_some_iff_getElem.mp found
  exact lt

theorem index_of_blockNamed? {f : Function} {name : String} (h : f.blockNamed? name = some b) :
    b.index < f.blocks.size := by
  obtain ⟨n, found, rfl⟩ := Option.map_eq_some_iff.mp h
  obtain ⟨lt, -⟩ := Array.findIdx?_eq_some_iff_getElem.mp found
  exact lt

theorem holds_of_operand (run : c.operand s = .ok x) : Holds c.function x := by
  unfold operand at run
  split at run
  · split at run
    · next found =>
      cases run
      exact index_of_valueNamed? found
    · cases run
  · cases read : constant? (trim s) with
    | none =>
      rw [read] at run
      cases run
    | some k =>
      rw [read] at run
      cases run
      exact Constant.legal_of_constant? read

theorem hasBlock_of_block (run : c.block s = .ok b) : HasBlock c.function b := by
  unfold block at run
  dsimp only at run
  split at run
  · next found =>
    cases run
    exact index_of_blockNamed? found
  · cases run

theorem holds_of_operands {n : Nat} {xs : List Operand} (run : c.operands n s = .ok xs) :
    ∀ x ∈ xs, Holds c.function x := by
  unfold operands at run
  dsimp only at run
  split at run
  · exact forall_of_mapM_eq_ok (fun _ _ => holds_of_operand) run
  · cases run

theorem holds_of_pair (run : c.pair s = .ok (x, y)) : ∀ z ∈ [x, y], Holds c.function z := by
  unfold pair at run
  rw [bind_eq_ok_iff] at run
  obtain ⟨xs, read, run⟩ := run
  split at run
  · cases run
    exact holds_of_operands read
  · cases run

theorem holds_of_triple (run : c.triple s = .ok (x, y, z)) : ∀ w ∈ [x, y, z], Holds c.function w := by
  unfold triple at run
  rw [bind_eq_ok_iff] at run
  obtain ⟨xs, read, run⟩ := run
  split at run
  · cases run
    exact holds_of_operands read
  · cases run

theorem written_phi (run : c.phi args = .ok (op, t?)) : Written c.function s op t? := by
  unfold phi at run
  simp only [bind_eq_ok_iff, orFail_eq_ok_iff] at run
  obtain ⟨t, type, pairs, read, run⟩ := run
  cases run
  have each : ∀ p ∈ pairs, Holds c.function p.1 ∧ HasBlock c.function p.2 := by
    refine forall_of_mapM_eq_ok (fun text p one => ?_) read
    unfold incoming at one
    simp only [bind_eq_ok_iff, orFail_eq_ok_iff] at one
    obtain ⟨inner, -, one⟩ := one
    split at one
    · simp only [bind_eq_ok_iff] at one
      obtain ⟨x, hx, b, hb, one⟩ := one
      cases one
      exact ⟨holds_of_operand hx, hasBlock_of_block hb⟩
    · cases one
  refine ⟨fun x hx => ?_, fun b hb => ?_, by simp [Op.types], by simp, fun u hu => ?_, by simp⟩
  · obtain ⟨p, hp, rfl⟩ := List.mem_map.mp hx
    exact (each p hp).1
  · obtain ⟨p, hp, rfl⟩ := List.mem_map.mp hb
    exact (each p hp).2
  · cases hu
    exact ⟨rfl, Ty.legal_of_read? type⟩

theorem written_alloca (run : c.alloca args = .ok (op, t?)) : Written c.function s op t? := by
  unfold alloca at run
  split at run
  · simp only [bind_eq_ok_iff, valueType, orFail_eq_ok_iff] at run
    obtain ⟨t, type, n, -, run⟩ := run
    cases run
    have legal := Ty.legal_of_readValue? type
    refine ⟨by simp [Op.operands], by simp [Op.targets, Op.sources], ?_, by simp, fun u hu => ?_, by simp⟩
    · rintro u hu
      rw [List.mem_singleton.mp hu]
      exact legal
    · cases hu
      exact ⟨rfl, legal⟩
  · cases run

theorem written_cast (run : c.cast args = .ok (op, t?)) : Written c.function s op t? := by
  unfold cast at run
  simp only [bind_eq_ok_iff, valueType, orFail_eq_ok_iff] at run
  obtain ⟨⟨value, type⟩, -, t, read, x, hx, run⟩ := run
  cases run
  have legal := Ty.legal_of_readValue? read
  refine ⟨?_, by simp [Op.targets, Op.sources], ?_, by simp, fun u hu => ?_, by simp⟩
  · exact List.forall_mem_singleton.mpr (holds_of_operand hx)
  · exact List.forall_mem_singleton.mpr legal
  · cases hu
    exact ⟨rfl, legal.1⟩

theorem written_compare (run : c.compare args = .ok (op, t?)) : Written c.function s op t? := by
  unfold compare at run
  simp only [bind_eq_ok_iff, orFail_eq_ok_iff] at run
  obtain ⟨⟨name, rest⟩, -, rel, -, ⟨x, y⟩, read, run⟩ := run
  cases run
  refine .plain (holds_of_pair read) rfl rfl rfl (by simp) (fun t ht => ?_) (by simp)
  cases ht
  exact ⟨rfl, by decide⟩

theorem written_call (inside : args <:+: s) (run : c.call args = .ok (op, t?)) :
    Written c.function s op t? := by
  unfold call at run
  simp only [bind_eq_ok_iff, orFail_eq_ok_iff, Option.bind_eq_some_iff] at run
  obtain ⟨⟨callee, rest⟩, ⟨behind, start, split⟩, inner, -, xs, read, run⟩ := run
  cases run
  refine ⟨forall_of_mapM_eq_ok (fun _ _ => holds_of_operand) read, by simp [Op.targets, Op.sources],
    by simp [Op.types], ?_, by simp, fun _ => rfl⟩
  rintro _ _ ⟨⟩
  rw [String.toList_ofList]
  obtain ⟨free, text⟩ := splitAtChar?_eq_some_iff.1 split
  have text' : args = "@".toList ++ behind := dropStart?_eq_some_iff.1 start
  have part : trim callee <:+: callee := trim_isInfix callee
  refine ⟨?_, fun mem => text (part.subset mem), part.trans (List.IsInfix.trans ?_ inside)⟩
  · by_cases blank : trim callee = []
    · rw [blank]
      rfl
    · exact (tight_trim blank).trim
  · exact ⟨"@".toList, '(' :: rest, by rw [text', free]; simp⟩

theorem written_condBr (run : c.condBr args = .ok (op, t?)) : Written c.function s op t? := by
  unfold condBr at run
  split at run
  · simp only [bind_eq_ok_iff] at run
    obtain ⟨x, hx, t, ht, e, he, run⟩ := run
    cases run
    refine ⟨List.forall_mem_singleton.mpr (holds_of_operand hx), ?_, by simp [Op.types], by simp, by simp,
      fun _ => rfl⟩
    exact forall_mem_pair (hasBlock_of_block ht) (hasBlock_of_block he)
  · cases run

theorem written_switch (run : c.switch args = .ok (op, t?)) : Written c.function s op t? := by
  unfold switch at run
  simp only [bind_eq_ok_iff, orFail_eq_ok_iff] at run
  obtain ⟨⟨head, tail⟩, -, cases, -, run⟩ := run
  split at run
  · simp only [bind_eq_ok_iff] at run
    obtain ⟨x, hx, d, hd, arms, read, run⟩ := run
    cases run
    have each : ∀ arm ∈ arms, HasBlock c.function arm.2 := by
      refine forall_of_mapM_eq_ok (fun text arm one => ?_) read
      simp only [bind_eq_ok_iff] at one
      obtain ⟨⟨key, target⟩, -, n, -, b, hb, one⟩ := one
      cases one
      exact hasBlock_of_block hb
    refine ⟨List.forall_mem_singleton.mpr (holds_of_operand hx), fun b hb => ?_, by simp [Op.types], by simp,
      by simp, fun _ => rfl⟩
    have hb : b ∈ d :: arms.map (·.2) := by simpa [Op.targets, Op.sources] using hb
    rcases List.mem_cons.mp hb with rfl | hb
    · exact hasBlock_of_block hd
    · obtain ⟨arm, harm, rfl⟩ := List.mem_map.mp hb
      exact each arm harm
  · cases run

theorem holds_of_saveAlias {call : SessionCall} (run : c.saveAlias args = .ok call) :
    ∀ x ∈ call.operands, Holds c.function x := by
  unfold saveAlias at run
  split at run
  · simp only [bind_eq_ok_iff] at run
    obtain ⟨ks, read, w, hw, n, hn, a, ha, run⟩ := run
    cases run
    have each : ∀ k ∈ ks, ∀ x ∈ [k.width, k.count, k.address], Holds c.function x := by
      refine forall_of_mapM_eq_ok (fun text k one => ?_) read
      unfold candidate at one
      simp only [bind_eq_ok_iff, orFail_eq_ok_iff] at one
      obtain ⟨inner, -, one⟩ := one
      split at one
      · simp only [bind_eq_ok_iff] at one
        obtain ⟨w, hw, n, hn, i, -, a, ha, one⟩ := one
        cases one
        exact forall_mem_triple (holds_of_operand hw) (holds_of_operand hn) (holds_of_operand ha)
      · cases one
    intro x hx
    rcases List.mem_append.mp hx with hx | hx
    · exact forall_mem_triple (holds_of_operand hw) (holds_of_operand hn) (holds_of_operand ha) x hx
    · obtain ⟨k, hk, hx⟩ := List.mem_flatMap.mp hx
      exact each k hk x hx
  · cases run

theorem holds_of_sessionCall {name : List Char} {call : SessionCall}
    (run : c.sessionCall name args = .ok call) : ∀ x ∈ call.operands, Holds c.function x := by
  unfold sessionCall at run
  dsimp only at run
  have none {k : SessionCall} {fault : LineFault} (operands : k.operands = [])
      (run : (if args.isEmpty then .ok k else c.fail fault) = .ok call) :
      ∀ x ∈ call.operands, Holds c.function x := by
    split at run
    · cases run
      simp [operands]
    · cases run
  split at run
  · exact none rfl run
  · exact none rfl run
  · exact none rfl run
  · exact none rfl run
  · split at run
    · simp only [bind_eq_ok_iff] at run
      obtain ⟨label, -, count, -, run⟩ := run
      cases run
      simp [SessionCall.operands]
    · cases run
  · simp only [bind_eq_ok_iff] at run
    obtain ⟨⟨w, n, a⟩, read, run⟩ := run
    cases run
    exact holds_of_triple read
  · simp only [bind_eq_ok_iff] at run
    obtain ⟨⟨w, n, a⟩, read, run⟩ := run
    cases run
    exact holds_of_triple read
  · simp only [bind_eq_ok_iff] at run
    obtain ⟨⟨w, n⟩, read, run⟩ := run
    cases run
    exact holds_of_pair read
  · exact holds_of_saveAlias run
  · cases run

theorem written_session {name : List Char} (run : (do
      let call ← c.sessionCall name args
      return (Op.session call, if call.resultType.isVoid then none else some call.resultType)) =
        .ok (op, t?)) : Written c.function s op t? := by
  simp only [bind_eq_ok_iff] at run
  obtain ⟨call, read, run⟩ := run
  cases run
  refine .plain (holds_of_sessionCall read) rfl rfl rfl (by simp) (fun t ht => ⟨?_, ?_⟩) fun none => none
  · exact ht
  · split at ht
    · cases ht
    · cases ht
      exact call.legal_resultType

theorem written_instruction (run : c.instruction s = .ok (op, t?)) : Written c.function s op t? := by
  unfold instruction at run
  dsimp only at run
  have inside : trim ((splitAtChar? ' ' s).getD (s, [])).2 <:+: s := by
    refine (trim_isInfix _).trans ?_
    cases split : splitAtChar? ' ' s with
    | none => exact List.nil_infix
    | some p =>
      obtain ⟨front, back⟩ := p
      obtain ⟨e, -⟩ := splitAtChar?_eq_some_iff.1 split
      exact ⟨front ++ [' '], [], by rw [e]; simp⟩
  have single {x : Operand} {text : List Char} {op : Op} (operands : op.operands = [x])
      (hx : c.operand text = .ok x) : ∀ y ∈ op.operands, Holds c.function y := by
    rw [operands]
    exact List.forall_mem_singleton.mpr (holds_of_operand hx)
  split at run
  · exact written_alloca run
  · simp only [bind_eq_ok_iff] at run
    obtain ⟨x, hx, run⟩ := run
    cases run
    refine .plain (single rfl hx) rfl rfl rfl (by simp) (fun t ht => ?_) (by simp)
    cases ht
    exact ⟨rfl, by decide⟩
  · simp only [bind_eq_ok_iff] at run
    obtain ⟨x, hx, run⟩ := run
    cases run
    exact .plain (single rfl hx) rfl rfl rfl (by simp) (by simp) fun _ => rfl
  · exact written_phi run
  · simp only [bind_eq_ok_iff] at run
    obtain ⟨⟨x, y⟩, read, run⟩ := run
    cases run
    exact .plain (holds_of_pair read) rfl rfl rfl (by simp) (by simp) fun _ => rfl
  · exact written_cast run
  · simp only [bind_eq_ok_iff] at run
    obtain ⟨x, hx, run⟩ := run
    cases run
    exact .plain (single rfl hx) rfl rfl rfl (by simp) (by simp) fun _ => rfl
  · simp only [bind_eq_ok_iff] at run
    obtain ⟨⟨x, y⟩, read, run⟩ := run
    cases run
    exact .plain (holds_of_pair read) rfl rfl rfl (by simp) (by simp) fun _ => rfl
  · exact written_compare run
  · exact written_call inside run
  · simp only [bind_eq_ok_iff] at run
    obtain ⟨b, hb, run⟩ := run
    cases run
    refine ⟨by simp [Op.operands], ?_, by simp [Op.types], by simp, by simp, fun _ => rfl⟩
    exact List.forall_mem_singleton.mpr (hasBlock_of_block hb)
  · exact written_condBr run
  · exact written_switch run
  · split at run
    · cases run
      exact .plain (by simp [Op.operands]) rfl rfl rfl (by simp) (by simp) fun _ => rfl
    · simp only [bind_eq_ok_iff] at run
      obtain ⟨x, hx, run⟩ := run
      cases run
      exact .plain (single rfl hx) rfl rfl rfl (by simp) (by simp) fun _ => rfl
  · split at run
    · exact written_session run
    · split at run
      · simp only [bind_eq_ok_iff] at run
        obtain ⟨⟨x, y⟩, read, run⟩ := run
        cases run
        exact .plain (holds_of_pair read) rfl rfl rfl (by simp) (by simp) fun _ => rfl
      · cases run

end Context

end Reader

end CheckpointRestart
