import CheckpointRestart.Instrument.Emission
import CheckpointRestart.Proofs.Effects
import CheckpointRestart.Proofs.Collections
import CheckpointRestart.Proofs.Program.Names

/-! # The actions of an emission

The code for a site is made by actions, one after another. Each of them adds some code to both
sides: what the checkpoint writes and what the restart reads are made together. Here it is said
what an action adds and when it may be taken; every successful emission is a list of such actions.
-/

namespace CheckpointRestart

open CheckpointRestart.Function

/-! ## Actions -/

/-- One action of an emission. The values it makes come last. -/
inductive Action where
  /-- Saves a scalar by way of a slot. -/
  | scalar (v : ValueId) (t : Ty) (slot r : ValueId)
  /-- Saves the contents of an allocation. -/
  | allocation (v : ValueId) (x : Extent) (width count : Operand) (op : Op) (r : ValueId)
  /-- Computes a derived pointer again when restarting. -/
  | reissue (v : ValueId) (op : Op) (r : ValueId)
  /-- Computes an alias member again on both sides. -/
  | recompute (m : ValueId) (saving restoring : Op) (c r : ValueId)
  /-- Gives an alias member an empty entry. -/
  | anchor (m : ValueId) (address restored : Operand)
  /-- Saves a merged pointer as a reference. -/
  | reference (v : ValueId) (x : Extent) (width count : Operand) (members : List AliasCandidate)
    (t : Ty) (raw r : ValueId)

namespace Action

open Emission (call)

def checkpoint : Action → List Instruction
  | scalar v t slot _ =>
    [.effect (.store (.value v) (.value slot)),
      call (.savePointer (.i64 (.ofNat t.bitWidth)) (.i64 1) (.value slot))]
  | allocation v x _ _ _ _ => [call (.savePointer x.width x.count (.value v))]
  | reissue _ _ _ => []
  | recompute _ op _ c _ => [.define c op]
  | anchor _ address _ => [call (.savePointer (.i64 8) (.i64 0) address)]
  | reference v x _ _ members _ _ _ => [call (.saveAlias x.width x.count (.value v) members)]

def restart : Action → List Instruction
  | scalar _ t slot r =>
    [call (.readPointer (.i64 (.ofNat t.bitWidth)) (.i64 1) (.value slot)),
      .define r (.load (.value slot))]
  | allocation _ _ width count op r =>
    [.define r op, call (.readPointer width count (.value r))]
  | reissue _ op r => [.define r op]
  | recompute _ _ op _ r => [.define r op]
  | anchor _ _ restored => [call (.readPointer (.i64 8) (.i64 0) restored)]
  | reference _ _ width count _ t raw r =>
    .define raw (.session (.readAlias width count)) ::
      if t = .bytePtr then [] else [.define r (.cast (.value raw) t)]

/-- The value for which an action writes an entry. -/
def saved? : Action → Option ValueId
  | scalar v _ _ _ | allocation v _ _ _ _ _ | anchor v _ _ | reference v _ _ _ _ _ _ _ => some v
  | reissue _ _ _ | recompute _ _ _ _ _ => none

/-- The value that an action restores, and what it is restored as. -/
def restores? : Action → Option (ValueId × ValueId)
  | scalar v _ _ r | allocation v _ _ _ _ r | reissue v _ r | reference v _ _ _ _ _ _ r => some (v, r)
  | recompute _ _ _ _ _ | anchor _ _ _ => none

/-- The alias member that an action computes again, and both its results. -/
def recomputes? : Action → Option (ValueId × ValueId × ValueId)
  | recompute m _ _ c r => some (m, c, r)
  | _ => none

def anchors? : Action → Option (ValueId × Operand)
  | anchor m address _ => some (m, address)
  | _ => none

/-- The values that an action makes, slots apart, with their types. -/
def made (f : Function) : Action → List (ValueId × Ty)
  | scalar _ t _ r => [(r, t)]
  | allocation v _ _ _ _ r | reissue v _ r => [(r, f.valueType v)]
  | recompute m _ _ c r => [(c, f.valueType m), (r, f.valueType m)]
  | anchor _ _ _ => []
  | reference _ _ _ _ _ t raw r => (raw, .bytePtr) :: if t = .bytePtr then [] else [(r, t)]

end Action

/-! ## When actions may be taken -/

namespace EmissionPlan

/-- What is visited: the live values, and whatever the extents of visited values name. -/
inductive Visited (plan : EmissionPlan) : ValueId → Prop
  | live {v : ValueId} : v ∈ plan.live → Visited plan v
  | size {v c : ValueId} {x : Extent} : Visited plan v → v ∉ plan.params →
    plan.extents.get? v = some x → c ∈ x.sizeValues → Visited plan c
  | source {v s : ValueId} {x : Extent} : Visited plan v → v ∉ plan.params →
    plan.extents.get? v = some x → x.provenance = .derived s → Visited plan s
  | index {v c s : ValueId} {x : Extent} : Visited plan v → v ∉ plan.params →
    plan.extents.get? v = some x → x.provenance = .derived s → x.index = some c → Visited plan c

/-- An alias member of a merged pointer that is visited. -/
def Member (plan : EmissionPlan) (m : ValueId) : Prop :=
  ∃ v x, plan.Visited v ∧ v ∉ plan.params ∧ plan.extents.get? v = some x ∧
    x.provenance = .merge ∧ m ∈ x.aliases

end EmissionPlan

namespace Emission

variable (plan : EmissionPlan)

/-- Both sides of an operand: it is restored as it is, or has been computed again. -/
def Both (taken : List Action) (st : Emission) (x saving restoring : Operand) : Prop :=
  (saving = x ∧ counterpart? plan st x = some restoring) ∨
    ∃ m op op' c r, x = .value m ∧ .recompute m op op' c r ∈ taken ∧ saving = .value c ∧
      restoring = .value r

/-- A value that is visited and has not been restored yet. -/
structure Open (st : Emission) (v : ValueId) : Prop where
  visited : plan.Visited v
  given : v ∉ plan.params
  new : v ∉ st.restored

/-- The condition under which an action is taken. -/
def May (taken : List Action) (st : Emission) : Action → Prop
  | .scalar v t _ _ => Open plan st v ∧ plan.extents.get? v = none ∧
    t = st.function.valueType v ∧ t.isPointer = false ∧ t.isVoid = false
  | .allocation v x width count op _ => Open plan st v ∧ plan.extents.get? v = some x ∧
    x.provenance = .allocation ∧ counterpart? plan st x.width = some width ∧
    counterpart? plan st x.count = some count ∧
    ((∃ t n, plan.pointerOps[v]? = some (.alloca t n) ∧ op = .alloca t n) ∨
      ∃ bytes, plan.pointerOps[v]? = some (.malloc bytes) ∧ op = .malloc count)
  | .reissue v op _ => Open plan st v ∧ (∃ x s, plan.extents.get? v = some x ∧
    x.provenance = .derived s) ∧ reissued? plan st v = some op
  | .recompute m saving restoring _ _ => m ∉ plan.live ∧
    ((∃ x y cx rx cy ry, plan.pointerOps[m]? = some (.gep x y) ∧ Both plan taken st x cx rx ∧
        Both plan taken st y cy ry ∧ saving = .gep cx cy ∧ restoring = .gep rx ry) ∨
      ∃ x t cx rx, plan.pointerOps[m]? = some (.cast x t) ∧ Both plan taken st x cx rx ∧
        saving = .cast cx t ∧ restoring = .cast rx t)
  | .anchor m address restored => plan.Member m ∧
    Both plan taken st (.value m) address restored
  | .reference v x width count members t raw r => Open plan st v ∧
    plan.extents.get? v = some x ∧ x.provenance = .merge ∧
    counterpart? plan st x.width = some width ∧ counterpart? plan st x.count = some count ∧
    members = candidates plan st (writtenMembers st x.aliases.toList) ∧
    t = st.function.valueType v ∧ (t = .bytePtr → r = raw)

/-- One action, taken after the actions `taken`. -/
structure Takes (taken : List Action) (st : Emission) (a : Action) (st' : Emission) : Prop where
  may : May plan taken st a
  /-- Slots are made before other values. -/
  grows : ∃ slots, st'.slots.created = st.slots.created ++ slots ∧
    st.function.Grows st'.function
      (slots.map (fun p : ValueId × Ty => (p.1, Ty.ptr p.2)) ++ a.made st.function)
  free : ∀ t s, (t, s) ∈ st'.slots.free → (t, s) ∈ st.slots.free ∨ (s, t) ∈ st'.slots.created
  slot : ∀ v t s r, a = .scalar v t s r → (t, s) ∈ st.slots.free ∨ (s, t) ∈ st'.slots.created
  spilled : ∀ p ∈ st'.slots.created, p ∈ st.slots.created ∨ ∃ v r, a = .scalar v p.2 p.1 r
  checkpoint : st'.checkpoint = st.checkpoint ++ a.checkpoint
  restart : st'.restart = st.restart ++ a.restart
  written : st'.written = a.saved?.elim st.written st.written.insert
  restored : st'.restored =
    a.restores?.elim st.restored fun (v, r) => st.restored.insert v (.value r)
  recomputed : st'.recomputed =
    a.recomputes?.elim st.recomputed fun (m, c, r) => st.recomputed.insert m (.value c, .value r)
  anchors : st'.anchors = a.anchors?.elim st.anchors fun (m, x) => st.anchors.insert m x
  visiting : st'.visiting = st.visiting

/-- Actions taken one after another. Which values are being visited has no part in it. -/
inductive Performs (taken : List Action) (st : Emission) : List Action → Emission → Prop
  | refl : Performs taken st taken st
  | visiting {as : List Action} {st' : Emission} (s : ValueSet) : Performs taken st as st' →
    Performs taken st as { st' with visiting := s }
  | act {as : List Action} {a : Action} {st' st'' : Emission} : Performs taken st as st' →
    Takes plan as st' a st'' → Performs taken st (as ++ [a]) st''

/-! ## The parts of an emission take actions -/

variable {plan} {taken : List Action} {st st' : Emission} {v m : ValueId} {x : Extent} {t : Ty}

theorem unsupported_ne_ok {α : Type} {reason : LiveFault} {a : α} :
    unsupported v reason st ≠ .ok a st' := by
  intro h
  cases h

theorem counterpart_eq_ok {y z : Operand} (run : counterpart plan y v st = .ok z st') :
    counterpart? plan st y = some z ∧ st' = st := by
  unfold counterpart at run
  rw [run_get_bind] at run
  cases h : counterpart? plan st y with
  | none =>
    rw [h] at run
    exact absurd run unsupported_ne_ok
  | some w =>
    rw [h] at run
    cases run
    exact ⟨rfl, rfl⟩

theorem acquire_cases (s : Slots) (f : Function) (t : Ty) :
    (∃ slot, s.acquire f t = (slot, { s with free := s.free.eraseP (·.1 == t) }, f) ∧
        (t, slot) ∈ s.free) ∨
      s.acquire f t = (⟨f.values.size⟩, { s with created := s.created ++ [(⟨f.values.size⟩, t)] },
        (f.newValue "spill" (.ptr t)).2) := by
  unfold Slots.acquire
  cases h : s.free.find? (·.1 == t) with
  | none => exact .inr rfl
  | some p =>
    obtain ⟨t', slot⟩ := p
    obtain rfl : t' = t := by simpa using List.find?_some h
    exact .inl ⟨slot, rfl, List.mem_of_find?_eq_some h⟩

theorem takes_scalar (taken : List Action) (run : scalar v st = .ok () st') (hv : Open plan st v)
    (unknown : plan.extents.get? v = none) :
    ∃ slot r, Takes plan taken st (.scalar v (st.function.valueType v) slot r) st' := by
  unfold scalar at run
  rw [run_get_bind] at run
  dsimp only at run
  split at run
  · exact absurd run unsupported_ne_ok
  next pointer =>
  split at run
  · exact absurd run unsupported_ne_ok
  next void =>
  have may : ∀ slot r, May plan taken st (.scalar v (st.function.valueType v) slot r) := fun _ _ =>
    ⟨hv, unknown, rfl, by simpa using pointer, by simpa using void⟩
  rw [run_modifyGet_bind] at run
  dsimp only at run
  rcases acquire_cases st.slots st.function (st.function.valueType v) with ⟨slot, acquired, mem⟩ | acquired
  · rw [acquired] at run
    cases run
    refine ⟨slot, ⟨st.function.values.size⟩, may _ _, ⟨[], by simp [Slots.release], ?_⟩, ?_, ?_,
      fun _ => .inl, by simp [Action.checkpoint, call], by simp [Action.restart, call], rfl, rfl, rfl, rfl, rfl⟩
    · exact .newValue_after _ v _ (by decide)
    · intro t s hs
      rcases List.mem_cons.mp hs with e | hs
      · cases e
        exact .inl mem
      · exact .inl (List.mem_of_mem_eraseP hs)
    · rintro _ _ _ _ ⟨⟩
      exact .inl mem
  · rw [acquired] at run
    cases run
    refine ⟨⟨st.function.values.size⟩, _, may _ _,
      ⟨[(⟨st.function.values.size⟩, st.function.valueType v)], rfl, ?_⟩, ?_, ?_, ?_,
      by simp [Action.checkpoint, call], by simp [Action.restart, call], rfl, rfl, rfl, rfl, rfl⟩
    · exact (Function.Grows.newValue _ _ fun _ => by decide).trans (.newValue_after _ v _ (by decide))
    · intro t s hs
      rcases List.mem_cons.mp hs with e | hs
      · cases e
        exact .inr (by simp [Slots.release])
      · exact .inl hs
    · rintro _ _ _ _ ⟨⟩
      exact .inr (by simp [Slots.release])
    · intro p hp
      refine (List.mem_append.mp hp).imp_right fun hp => ?_
      rw [List.mem_singleton.mp hp]
      exact ⟨v, _, rfl⟩

theorem takes_of_newValues {a : Action} (may : May plan taken st a)
    (scalar : ∀ v t s r, a ≠ .scalar v t s r) (slots : st'.slots = st.slots)
    (grows : st.function.Grows st'.function (a.made st.function))
    (checkpoint : st'.checkpoint = st.checkpoint ++ a.checkpoint)
    (restart : st'.restart = st.restart ++ a.restart)
    (written : st'.written = a.saved?.elim st.written st.written.insert)
    (restored : st'.restored =
      a.restores?.elim st.restored fun (v, r) => st.restored.insert v (.value r))
    (recomputed : st'.recomputed =
      a.recomputes?.elim st.recomputed fun (m, c, r) =>
        st.recomputed.insert m (.value c, .value r))
    (anchors : st'.anchors = a.anchors?.elim st.anchors fun (m, x) => st.anchors.insert m x)
    (visiting : st'.visiting = st.visiting) : Takes plan taken st a st' where
  may := may
  grows := ⟨[], by rw [slots, List.append_nil], grows⟩
  free t s h := .inl (slots ▸ h)
  slot v t s r h := absurd h (scalar v t s r)
  spilled p hp := .inl (slots ▸ hp)
  checkpoint := checkpoint
  restart := restart
  written := written
  restored := restored
  recomputed := recomputed
  anchors := anchors
  visiting := visiting

theorem takes_allocation (taken : List Action)
    (run : allocation plan v x (st.function.valueName v ++ ".restored") (st.function.valueType v) st =
      .ok () st')
    (hv : Open plan st v) (known : plan.extents.get? v = some x)
    (kind : x.provenance = .allocation) :
    ∃ width count op r, Takes plan taken st (.allocation v x width count op r) st' := by
  unfold allocation at run
  obtain ⟨width, st₁, hw, run⟩ := run_bind_eq_ok_iff.1 run
  obtain ⟨hw, rfl⟩ := counterpart_eq_ok hw
  obtain ⟨count, st₂, hc, run⟩ := run_bind_eq_ok_iff.1 run
  obtain ⟨hc, rfl⟩ := counterpart_eq_ok hc
  dsimp only at run
  have act : ∀ op r, ((∃ t n, plan.pointerOps[v]? = some (.alloca t n) ∧ op = .alloca t n) ∨
      ∃ bytes, plan.pointerOps[v]? = some (.malloc bytes) ∧ op = .malloc count) →
      May plan taken st₂ (.allocation v x width count op r) := fun op r h =>
    ⟨hv, known, kind, hw, hc, h⟩
  generalize hop : plan.pointerOps[v]? = found at run act
  split at run
  · next t n =>
    cases run
    exact ⟨width, count, .alloca t n, _, takes_of_newValues (act _ _ (.inl ⟨t, n, rfl, rfl⟩)) nofun rfl
      (.newValue_after _ v _ (by decide)) rfl (by simp [Action.restart, call]) rfl rfl rfl rfl rfl⟩
  · next bytes =>
    cases run
    exact ⟨width, count, .malloc count, _, takes_of_newValues (act _ _ (.inr ⟨bytes, rfl, rfl⟩)) nofun
      rfl (.newValue_after _ v _ (by decide)) rfl (by simp [Action.restart, call]) rfl rfl rfl rfl rfl⟩
  · exact absurd run unsupported_ne_ok

theorem takes_reissue (taken : List Action) {s : ValueId}
    (run : reissue plan v (st.function.valueName v ++ ".restored") (st.function.valueType v) st =
      .ok () st')
    (hv : Open plan st v) (known : plan.extents.get? v = some x)
    (kind : x.provenance = .derived s) :
    ∃ op r, Takes plan taken st (.reissue v op r) st' := by
  unfold reissue at run
  rw [run_get_bind] at run
  cases hop : reissued? plan st v with
  | none =>
    rw [hop] at run
    exact absurd run unsupported_ne_ok
  | some op =>
    rw [hop] at run
    cases run
    exact ⟨op, _, takes_of_newValues ⟨hv, ⟨x, s, known, kind⟩, hop⟩ nofun rfl
      (.newValue_after _ v _ (by decide))
      (List.append_nil _).symm rfl rfl rfl rfl rfl rfl⟩

theorem takes_anchor {address restored : Operand} (run : anchor m address restored st = .ok () st')
    (may : May plan taken st (.anchor m address restored)) :
    Takes plan taken st (.anchor m address restored) st' := by
  cases run
  exact takes_of_newValues may nofun rfl (.refl _) rfl rfl rfl rfl rfl rfl rfl

theorem takes_reference (taken : List Action)
    (run : reference plan v x x.aliases.toList (st.function.valueName v ++ ".restored")
      (st.function.valueType v) st = .ok () st')
    (hv : Open plan st v) (known : plan.extents.get? v = some x)
    (kind : x.provenance = .merge) :
    ∃ width count members t raw r,
      Takes plan taken st (.reference v x width count members t raw r) st' := by
  unfold reference at run
  rw [run_get_bind] at run
  dsimp only at run
  split at run
  · exact absurd run unsupported_ne_ok
  obtain ⟨width, st₁, hw, run⟩ := run_bind_eq_ok_iff.1 run
  obtain ⟨hw, rfl⟩ := counterpart_eq_ok hw
  obtain ⟨count, st₂, hc, run⟩ := run_bind_eq_ok_iff.1 run
  obtain ⟨hc, rfl⟩ := counterpart_eq_ok hc
  have rawName (named : st₂.function.Named) :
      Text.isIdentifier (st₂.function.valueName v ++ ".restored" ++ ".raw").toList = true := by
    rw [String.append_assoc]
    exact named.valueName_append v (by decide)
  obtain ⟨_, st₃, code, run⟩ := run_bind_eq_ok_iff.1 run
  cases code
  obtain ⟨raw, st₄, code, run⟩ := run_bind_eq_ok_iff.1 run
  cases code
  obtain ⟨_, st₅, code, run⟩ := run_bind_eq_ok_iff.1 run
  cases code
  dsimp only at run
  split at run
  · next byte =>
    cases run
    refine ⟨width, count, _, st₂.function.valueType v, ⟨st₂.function.values.size⟩, _,
      takes_of_newValues ⟨hv, known, kind, hw, hc, rfl, rfl, fun _ => rfl⟩ nofun rfl ?_ rfl ?_ rfl rfl
        rfl rfl rfl⟩
    · rw [Action.made, if_pos byte]
      exact .newValue _ _ rawName
    · rw [Action.restart, if_pos byte]
  · next other =>
    cases run
    refine ⟨width, count, _, st₂.function.valueType v, ⟨st₂.function.values.size⟩, _,
      takes_of_newValues ⟨hv, known, kind, hw, hc, rfl, rfl, fun byte => absurd byte other⟩ nofun rfl ?_
        rfl ?_ rfl rfl rfl rfl rfl⟩
    · rw [Action.made, if_neg other]
      exact (Function.Grows.newValue _ _ rawName).trans
        (.newValue _ _ fun named => named.of_newValue.valueName_append v (by decide))
    · rw [Action.restart, if_neg other]
      exact List.append_assoc _ _ _

theorem takes_recomputedAs {saving restoring : Op} {both : Operand × Operand}
    (run : recomputedAs m saving restoring st = .ok both st')
    (may : ∀ c r, May plan taken st (.recompute m saving restoring c r)) :
    ∃ c r, both = (.value c, .value r) ∧
      Takes plan taken st (.recompute m saving restoring c r) st' := by
  cases run
  exact ⟨_, _, rfl, takes_of_newValues (may _ _) nofun rfl
    ((Function.Grows.newValue_after _ m _ (by decide)).trans
      (.newValue _ _ fun named => named.of_newValue.valueName_append m (by decide)))
    rfl rfl rfl rfl rfl rfl rfl⟩

end Emission

end CheckpointRestart
