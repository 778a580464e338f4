import CheckpointRestart.Proofs.Instrument.Actions

/-! # Emissions are lists of actions

A successful visit takes actions, one after another, and in the end the value visited is restored.
Values that are being visited in the meantime are left alone. The proof is one induction on the
depth of the visit, over all that visits call.
-/

namespace CheckpointRestart.Emission

open CheckpointRestart.Function

variable {plan : EmissionPlan} {as as' as'' : List Action} {st st' st'' : Emission} {a : Action}
  {v w m : ValueId} {x y z : Operand}

theorem checkDerived_eq_ok (run : checkDerived plan v st = .ok () st') : st' = st := by
  unfold checkDerived at run
  generalize plan.pointerOps[v]? = found at run
  split at run
  · cases run
    rfl
  · cases run
    rfl
  · exact absurd run unsupported_ne_ok
  · exact absurd run unsupported_ne_ok

/-! ## What actions keep -/

theorem May.open {taken : List Action} {r : ValueId} (h : May plan taken st a)
    (restores : a.restores? = some (v, r)) : Open plan st v := by
  cases a <;> cases restores <;> exact h.1

theorem Takes.restored_getElem? (h : Takes plan as st a st') (hv : st.restored[v]? = some y) :
    st'.restored[v]? = some y := by
  rw [h.restored]
  cases ha : a.restores? with
  | none => exact hv
  | some p =>
    obtain ⟨w, r⟩ := p
    have new : w ≠ v := by
      rintro rfl
      exact (h.may.open ha).new (Std.ExtTreeMap.mem_iff_isSome_getElem?.mpr (by simp [hv]))
    exact TreeMap.getElem?_insert_iff.trans (by rw [if_neg new.symm, hv])

namespace Performs

theorem trans (h : Performs plan as st as' st') (h' : Performs plan as' st' as'' st'') :
    Performs plan as st as'' st'' := by
  induction h' with
  | refl => exact h
  | visiting s _ ih => exact .visiting s ih
  | act _ takes ih => exact .act ih takes

theorem mem (h : Performs plan as st as' st') (ha : a ∈ as) : a ∈ as' := by
  induction h with
  | refl => exact ha
  | visiting s _ ih => exact ih
  | act _ _ ih => exact List.mem_append_left _ ih

theorem restored_getElem? (h : Performs plan as st as' st') (hv : st.restored[v]? = some y) :
    st'.restored[v]? = some y := by
  induction h with
  | refl => exact hv
  | visiting s _ ih => exact ih
  | act _ takes ih => exact takes.restored_getElem? ih

theorem counterpart? (h : Performs plan as st as' st') (hx : counterpart? plan st x = some y) :
    Emission.counterpart? plan st' x = some y := by
  cases x with
  | const c => exact hx
  | value v =>
    by_cases given : plan.params.contains v = true
    · exact (if_pos given).trans ((if_pos given).symm.trans hx)
    · exact (if_neg given).trans (h.restored_getElem? ((if_neg given).symm.trans hx))

theorem both (h : Performs plan as st as' st') (hx : Both plan as st x y z) :
    Both plan as' st' x y z := by
  rcases hx with ⟨rfl, hx⟩ | ⟨m, op, op', c, r, rfl, mem, hy, hz⟩
  · exact .inl ⟨rfl, h.counterpart? hx⟩
  · exact .inr ⟨m, op, op', c, r, rfl, h.mem mem, hy, hz⟩

end Performs

theorem Takes.le (h : Takes plan as st a st') :
    st.function.values.size ≤ st'.function.values.size := by
  obtain ⟨slots, -, grows⟩ := h.grows
  exact grows.le

theorem Performs.valueType (h : Performs plan as st as' st')
    (hv : v.index < st.function.values.size) :
    v.index < st'.function.values.size ∧ st'.function.valueType v = st.function.valueType v := by
  induction h with
  | refl => exact ⟨hv, rfl⟩
  | visiting s _ ih => exact ih
  | act _ takes ih =>
    obtain ⟨slots, -, grows⟩ := takes.grows
    exact ⟨Nat.lt_of_lt_of_le ih.1 takes.le, (grows.old v ih.1).trans ih.2⟩

theorem Performs.valueName (h : Performs plan as st as' st')
    (hv : v.index < st.function.values.size) :
    st'.function.valueName v = st.function.valueName v := by
  induction h with
  | refl => rfl
  | visiting s _ ih => exact ih
  | act before takes ih =>
    obtain ⟨slots, -, grows⟩ := takes.grows
    exact (grows.names v (before.valueType hv).1).trans ih

/-- What is recorded as computed again has been, and pointers that have extents exist. -/
structure Traced (plan : EmissionPlan) (as : List Action) (st : Emission) : Prop where
  recomputed : ∀ (m : ValueId) (both : Operand × Operand), st.recomputed[m]? = some both →
    ∃ op op' c r, .recompute m op op' c r ∈ as ∧ both = (.value c, .value r)
  known : ∀ v x, plan.extents.get? v = some x → v.index < st.function.values.size

theorem Performs.traced (h : Performs plan as st as' st') (traced : Traced plan as st) :
    Traced plan as' st' := by
  refine ⟨?_, fun v x hx => (h.valueType (traced.known v x hx)).1⟩
  induction h with
  | refl => exact traced.recomputed
  | visiting s _ ih => exact ih
  | @act as' a st' st'' _ takes ih =>
    intro m both hm
    have old : ∀ {both}, st'.recomputed[m]? = some both → ∃ op op' c r,
        .recompute m op op' c r ∈ as' ++ [a] ∧ both = (.value c, .value r) := fun hm => by
      obtain ⟨op, op', c, r, mem, e⟩ := ih m _ hm
      exact ⟨op, op', c, r, List.mem_append_left _ mem, e⟩
    rw [takes.recomputed] at hm
    cases a with
    | recompute m' op op' c r =>
      replace hm := TreeMap.getElem?_insert_iff.symm.trans hm
      split at hm
      · next e =>
        cases hm
        exact ⟨op, op', c, r, by simp [e], rfl⟩
      · exact old hm
    | scalar | allocation | reissue | anchor | reference => exact old hm

/-! ## Visits -/

/-- Actions during which nothing happens to the values that are being visited. -/
structure Continues (plan : EmissionPlan) (as : List Action) (st : Emission) (as' : List Action)
    (st' : Emission) : Prop where
  performs : Performs plan as st as' st'
  visiting : ∀ w, w ∈ st'.visiting ↔ w ∈ st.visiting
  kept : ∀ w ∈ st.visiting, st'.restored[w]? = st.restored[w]?

namespace Continues

theorem refl : Continues plan as st as st :=
  ⟨.refl, fun _ => .rfl, fun _ _ => rfl⟩

theorem trans (h : Continues plan as st as' st') (h' : Continues plan as' st' as'' st'') :
    Continues plan as st as'' st'' :=
  ⟨h.performs.trans h'.performs, fun w => (h'.visiting w).trans (h.visiting w),
    fun w hw => (h'.kept w ((h.visiting w).mpr hw)).trans (h.kept w hw)⟩

theorem takes (h : Takes plan as st a st') (none : a.restores? = none) :
    Continues plan as st (as ++ [a]) st' :=
  ⟨.act .refl h, fun w => by rw [h.visiting], fun w _ => by rw [h.restored, none]; rfl⟩

theorem visit {r : ValueId} (new : v ∉ st.visiting)
    (inner : Continues plan as { st with visiting := st.visiting.insert v } as' st')
    (last : Takes plan as' st' a st'') (restores : a.restores? = some (v, r)) :
    Continues plan as st (as' ++ [a]) { st'' with visiting := st''.visiting.erase v } ∧
      v ∈ st''.restored := by
  have restored : st''.restored = st'.restored.insert v (.value r) := by
    rw [last.restored, restores]
    rfl
  refine ⟨⟨(Performs.visiting _ .refl).trans (.visiting _ (.act inner.performs last)), fun w => ?_,
    fun w hw => ?_⟩, ?_⟩
  · rw [TreeSet.mem_erase_iff, last.visiting, inner.visiting, TreeSet.mem_insert_iff]
    constructor
    · rintro ⟨ne, rfl | hw⟩
      · exact absurd rfl ne
      · exact hw
    · intro hw
      exact ⟨fun e => new (e ▸ hw), .inr hw⟩
  · have ne : v ≠ w := fun e => new (e ▸ hw)
    have := inner.kept w (TreeSet.mem_insert_iff.2 (.inr hw))
    rw [← this, restored, Std.ExtTreeMap.getElem?_insert]
    simp [ne]
  · rw [restored]
    exact TreeMap.mem_insert_iff.2 (.inl rfl)

theorem forM {α : Type} {step : α → Emit Unit} {xs : List α} (traced : Traced plan as st)
    (one : ∀ x ∈ xs, ∀ as st st', Traced plan as st → step x st = .ok () st' →
      ∃ as', Continues plan as st as' st') (run : xs.forM step st = .ok () st') :
    ∃ as', Continues plan as st as' st' := by
  refine forM_run_induction (fun _ st' => ∃ as', Continues plan as st as' st')
    (fun front x back split s s' ⟨as', h⟩ run => ?_) ⟨as, .refl⟩ run
  obtain ⟨as'', h'⟩ := one x (by simp [split]) as' s s' (h.performs.traced traced) run
  exact ⟨as'', h.trans h'⟩

end Continues

/-- What is known of visits, and of all that they call, at one depth. -/
structure Emits (plan : EmissionPlan) (depth : Nat) : Prop where
  visit : ∀ as st v st', Traced plan as st → plan.Visited v → visit plan depth v st = .ok () st' →
    ∃ as', Continues plan as st as' st' ∧
      (v ∈ plan.params ∨ v ∈ st'.restored ∨ v ∈ st.visiting)
  anchorMember : ∀ as st m st', Traced plan as st → plan.Member m →
    anchorMember plan depth m st = .ok () st' → ∃ as', Continues plan as st as' st'
  bothSides : ∀ as st x both st', Traced plan as st → bothSides plan depth x st = .ok both st' →
    ∃ as', Continues plan as st as' st' ∧ ∀ c r, both = some (c, r) → Both plan as' st' x c r
  recompute : ∀ as st m both st', Traced plan as st → m ∉ plan.live →
    recompute plan depth m st = .ok both st' →
    ∃ as', Continues plan as st as' st' ∧
      ∀ c r, both = some (c, r) → Both plan as' st' (.value m) c r

theorem emits_zero : Emits plan 0 where
  visit as st v st' _ _ run := absurd (by rwa [Emission.visit] at run) unsupported_ne_ok
  anchorMember as st m st' _ _ run := absurd (by rwa [Emission.anchorMember] at run) unsupported_ne_ok
  bothSides as st x both st' _ run := by
    cases x with
    | const c =>
      rw [Emission.bothSides] at run
      cases run
      refine ⟨as, .refl, ?_⟩
      rintro c r ⟨⟩
      exact .inl ⟨rfl, rfl⟩
    | value v =>
      rw [Emission.bothSides] at run
      exact absurd run unsupported_ne_ok
  recompute as st m both st' _ _ run := absurd (by rwa [Emission.recompute] at run) unsupported_ne_ok

section Step

variable {depth : Nat} (h : Emits plan depth)

include h

theorem Emits.recompute_succ {both : Option (Operand × Operand)} (traced : Traced plan as st)
    (dead : m ∉ plan.live) (run : Emission.recompute plan (depth + 1) m st = .ok both st') :
    ∃ as', Continues plan as st as' st' ∧
      ∀ c r, both = some (c, r) → Both plan as' st' (.value m) c r := by
  rw [Emission.recompute, run_get_bind] at run
  -- a new result is computed from both sides of the operands
  have last : ∀ {as' st₁ saving restoring both}, Continues plan as st as' st₁ →
      (∀ c r, May plan as' st₁ (.recompute m saving restoring c r)) →
      recomputedAs m saving restoring st₁ = .ok both st' →
      ∃ as', Continues plan as st as' st' ∧
        ∀ c r, some both = some (c, r) → Both plan as' st' (.value m) c r := by
    intro as' st₁ saving restoring both before may run
    obtain ⟨c, r, rfl, takes⟩ := takes_recomputedAs run may
    refine ⟨_, before.trans (.takes takes rfl), ?_⟩
    rintro _ _ ⟨⟩
    exact .inr ⟨m, saving, restoring, c, r, rfl, by simp, rfl, rfl⟩
  cases known : st.recomputed[m]? with
  | some both' =>
    rw [known] at run
    cases run
    refine ⟨as, .refl, ?_⟩
    rintro c r ⟨⟩
    obtain ⟨op, op', c', r', mem, e⟩ := traced.recomputed m _ known
    cases e
    exact .inr ⟨m, op, op', c', r', rfl, mem, rfl, rfl⟩
  | none =>
    rw [known] at run
    dsimp only at run
    generalize hop : plan.pointerOps[m]? = found at run
    split at run
    · next x y =>
      obtain ⟨both₁, st₁, run₁, run⟩ := run_bind_eq_ok_iff.1 run
      obtain ⟨as₁, cont₁, hx⟩ := h.bothSides as st x both₁ st₁ traced run₁
      rcases both₁ with _ | ⟨cx, rx⟩
      · cases run
        exact ⟨as₁, cont₁, nofun⟩
      obtain ⟨both₂, st₂, run₂, run⟩ := run_bind_eq_ok_iff.1 run
      obtain ⟨as₂, cont₂, hy⟩ := h.bothSides as₁ st₁ y both₂ st₂ (cont₁.performs.traced traced) run₂
      rcases both₂ with _ | ⟨cy, ry⟩
      · cases run
        exact ⟨as₂, cont₁.trans cont₂, nofun⟩
      obtain ⟨both₃, st₃, run₃, run⟩ := run_bind_eq_ok_iff.1 run
      cases run
      exact last (cont₁.trans cont₂) (fun c r => ⟨dead, .inl ⟨x, y, cx, rx, cy, ry, hop,
        cont₂.performs.both (hx cx rx rfl), hy cy ry rfl, rfl, rfl⟩⟩) run₃
    · next x t =>
      obtain ⟨both₁, st₁, run₁, run⟩ := run_bind_eq_ok_iff.1 run
      obtain ⟨as₁, cont₁, hx⟩ := h.bothSides as st x both₁ st₁ traced run₁
      rcases both₁ with _ | ⟨cx, rx⟩
      · cases run
        exact ⟨as₁, cont₁, nofun⟩
      obtain ⟨both₃, st₃, run₃, run⟩ := run_bind_eq_ok_iff.1 run
      cases run
      exact last cont₁ (fun c r => ⟨dead, .inr ⟨x, t, cx, rx, hop, hx cx rx rfl, rfl, rfl⟩⟩) run₃
    · cases run
      exact ⟨as, .refl, nofun⟩

theorem Emits.bothSides_succ {both : Option (Operand × Operand)} (traced : Traced plan as st)
    (run : Emission.bothSides plan (depth + 1) x st = .ok both st') :
    ∃ as', Continues plan as st as' st' ∧ ∀ c r, both = some (c, r) → Both plan as' st' x c r := by
  rw [Emission.bothSides, run_get_bind] at run
  generalize hx : counterpart? plan st x = found at run
  split at run
  · next y =>
    cases run
    refine ⟨as, .refl, ?_⟩
    rintro c r ⟨⟩
    exact .inl ⟨rfl, hx⟩
  · cases hx
  · next v =>
    split at run
    · next live =>
      obtain ⟨_, st₁, run₁, run⟩ := run_bind_eq_ok_iff.1 run
      obtain ⟨as₁, cont₁, -⟩ := h.visit as st v st₁ traced (.live (by simpa using live)) run₁
      rw [run_get_bind] at run
      cases run
      refine ⟨as₁, cont₁, fun c r hcr => .inl ?_⟩
      obtain ⟨y, hy, e⟩ := Option.map_eq_some_iff.mp hcr
      cases e
      exact ⟨rfl, hy⟩
    · next dead =>
      split at run
      · exact h.recompute as st v both st' traced (by simpa using dead) run
      · cases run
        exact ⟨as, .refl, nofun⟩

theorem Emits.anchorMember_succ (traced : Traced plan as st) (member : plan.Member m)
    (run : Emission.anchorMember plan (depth + 1) m st = .ok () st') :
    ∃ as', Continues plan as st as' st' := by
  rw [Emission.anchorMember, run_get_bind] at run
  split at run
  · cases run
    exact ⟨as, .refl⟩
  have last : ∀ {as' st₁ address restored}, Continues plan as st as' st₁ →
      Both plan as' st₁ (.value m) address restored →
      anchor m address restored st₁ = .ok () st' → ∃ as', Continues plan as st as' st' :=
    fun before both run => ⟨_, before.trans (.takes (takes_anchor run ⟨member, both⟩) rfl)⟩
  cases hm : counterpart? plan st (.value m) with
  | some restored =>
    rw [hm] at run
    exact last .refl (.inl ⟨rfl, hm⟩) run
  | none =>
    rw [hm] at run
    dsimp only at run
    split at run
    · next dead =>
      obtain ⟨both, st₁, run₁, run⟩ := run_bind_eq_ok_iff.1 run
      have dead : m ∉ plan.live := fun live => by simp [Std.ExtTreeSet.contains_iff_mem.mpr live] at dead
      obtain ⟨as₁, cont₁, hboth⟩ := h.recompute as st m both st₁ traced dead run₁
      rcases both with _ | ⟨address, restored⟩
      · cases run
        exact ⟨as₁, cont₁⟩
      · exact last cont₁ (hboth address restored rfl) run
    · cases run
      exact ⟨as, .refl⟩

theorem Emits.visit_succ (params : ∀ v x, plan.extents.get? v = some x →
      x.provenance = .parameter → v ∈ plan.params) (traced : Traced plan as st)
    (visited : plan.Visited v) (run : Emission.visit plan (depth + 1) v st = .ok () st') :
    ∃ as', Continues plan as st as' st' ∧
      (v ∈ plan.params ∨ v ∈ st'.restored ∨ v ∈ st.visiting) := by
  rw [Emission.visit, run_get_bind] at run
  split at run
  · next done =>
    cases run
    refine ⟨as, .refl, ?_⟩
    simpa [or_assoc] using done
  next fresh =>
  obtain ⟨⟨given, unrestored⟩, unvisited⟩ : (v ∉ plan.params ∧ v ∉ st.restored) ∧ v ∉ st.visiting := by
    simpa using fresh
  rw [run_modify_bind] at run
  -- whatever is visited on the way, `v` is still to be restored
  have still : ∀ {as₁ st₁}, Continues plan as { st with visiting := st.visiting.insert v } as₁ st₁ →
      Open plan st₁ v := fun cont => by
    refine ⟨visited, given, fun restored => unrestored ?_⟩
    rw [Std.ExtTreeMap.mem_iff_isSome_getElem?] at restored ⊢
    rwa [cont.kept v (TreeSet.mem_insert_iff.2 (.inl rfl))] at restored
  have finish : ∀ {as₁ st₁ st₂ a r},
      Continues plan as { st with visiting := st.visiting.insert v } as₁ st₁ →
      Takes plan as₁ st₁ a st₂ → a.restores? = some (v, r) →
      ∃ as', Continues plan as st as' { st₂ with visiting := st₂.visiting.erase v } ∧
        (v ∈ plan.params ∨ v ∈ st₂.restored ∨ v ∈ st.visiting) := fun cont last restores => by
    obtain ⟨cont, restored⟩ := cont.visit unvisited last restores
    exact ⟨_, cont, .inr (.inl restored)⟩
  have visits : ∀ {xs : List ValueId} {as₁ st₁ st₂}, Traced plan as₁ st₁ → (∀ c ∈ xs, plan.Visited c) →
      xs.forM (Emission.visit plan depth) st₁ = .ok () st₂ →
      ∃ as₂, Continues plan as₁ st₁ as₂ st₂ := fun traced all run =>
    Continues.forM traced (fun c hc as st st' traced run => by
      obtain ⟨as', cont, -⟩ := h.visit as st c st' traced (all c hc) run
      exact ⟨as', cont⟩) run
  have traced₀ : Traced plan as { st with visiting := st.visiting.insert v } :=
    ⟨traced.recomputed, traced.known⟩
  cases known : plan.extents.get? v with
  | none =>
    rw [known] at run
    obtain ⟨_, st₁, run₁, run⟩ := run_bind_eq_ok_iff.1 run
    obtain rfl := run_modify_eq_ok_iff.1 run
    obtain ⟨slot, r, last⟩ := takes_scalar as run₁ (still .refl) known
    exact finish .refl last rfl
  | some x =>
    rw [known] at run
    obtain ⟨_, st₁, run₁, run⟩ := run_bind_eq_ok_iff.1 run
    obtain ⟨as₁, cont₁⟩ := visits traced₀ (fun c hc => .size visited given known hc) run₁
    have traced₁ := cont₁.performs.traced traced₀
    rw [run_get_bind] at run
    dsimp only at run
    cases kind : x.provenance with
    | parameter => exact absurd (params v x known kind) given
    | allocation =>
      rw [kind] at run
      obtain ⟨_, st₂, run₂, run⟩ := run_bind_eq_ok_iff.1 run
      obtain rfl := run_modify_eq_ok_iff.1 run
      obtain ⟨_, _, _, r, last⟩ := takes_allocation as₁ run₂ (still cont₁) known kind
      exact finish cont₁ last rfl
    | derived s =>
      rw [kind] at run
      obtain ⟨_, st₂, run₂, run⟩ := run_bind_eq_ok_iff.1 run
      obtain rfl := checkDerived_eq_ok run₂
      obtain ⟨_, st₃, run₃, run⟩ := run_bind_eq_ok_iff.1 run
      obtain ⟨as₃, cont₃, -⟩ := h.visit as₁ _ s st₃ traced₁ (.source visited given known kind) run₃
      obtain ⟨_, st₄, run₄, run⟩ := run_bind_eq_ok_iff.1 run
      obtain ⟨as₄, cont₄⟩ := visits (cont₃.performs.traced traced₁) (fun c hc =>
        .index visited given known kind (Option.mem_toList.mp hc)) run₄
      obtain ⟨_, st₅, run₅, run⟩ := run_bind_eq_ok_iff.1 run
      obtain rfl := run_modify_eq_ok_iff.1 run
      have cont := (cont₁.trans cont₃).trans cont₄
      have since := (cont₃.trans cont₄).performs
      rw [← (since.valueType (traced₁.known v x known)).2,
        ← since.valueName (traced₁.known v x known)] at run₅
      obtain ⟨_, r, last⟩ := takes_reissue as₄ run₅ (still cont) known kind
      exact finish cont last rfl
    | merge =>
      rw [kind] at run
      dsimp only at run
      obtain ⟨_, st₂, run₂, run⟩ := run_bind_eq_ok_iff.1 run
      have live : ∃ as₂, Continues plan as₁ st₁ as₂ st₂ := by
        refine Continues.forM traced₁ (fun m _ as st st' traced run => ?_) run₂
        split at run
        · next live =>
          obtain ⟨as', cont, -⟩ := h.visit as st m st' traced (.live (by simpa using live)) run
          exact ⟨as', cont⟩
        · cases run
          exact ⟨as, .refl⟩
      obtain ⟨as₂, cont₂⟩ := live
      obtain ⟨_, st₃, run₃, run⟩ := run_bind_eq_ok_iff.1 run
      obtain ⟨as₃, cont₃⟩ := Continues.forM (cont₂.performs.traced traced₁)
        (fun m hm as st st' traced run => h.anchorMember as st m st' traced
          ⟨v, x, visited, given, known, kind, Std.ExtTreeSet.mem_toList.mp hm⟩ run) run₃
      obtain ⟨_, st₄, run₄, run⟩ := run_bind_eq_ok_iff.1 run
      obtain rfl := run_modify_eq_ok_iff.1 run
      have cont := (cont₁.trans cont₂).trans cont₃
      have since := (cont₂.trans cont₃).performs
      rw [← (since.valueType (traced₁.known v x known)).2,
        ← since.valueName (traced₁.known v x known)] at run₄
      obtain ⟨_, _, _, _, _, r, last⟩ := takes_reference as₃ run₄ (still cont) known kind
      exact finish cont last rfl

end Step

/-- Visits take actions, at every depth. -/
theorem emits (params : ∀ v x, plan.extents.get? v = some x → x.provenance = .parameter →
    v ∈ plan.params) (depth : Nat) : Emits plan depth := by
  induction depth with
  | zero => exact emits_zero
  | succ depth ih =>
    exact ⟨fun as st v st' => ih.visit_succ params, fun as st m st' => ih.anchorMember_succ,
      fun as st x both st' => ih.bothSides_succ, fun as st m both st' => ih.recompute_succ⟩

/-- All the actions for a site. Every live value is restored in the end. -/
theorem performs_visitAll (params : ∀ v x, plan.extents.get? v = some x →
      x.provenance = .parameter → v ∈ plan.params) {f : Function} {slots : Slots}
    {values : List ValueId} (live : ∀ v ∈ values, v ∈ plan.live)
    (known : ∀ v x, plan.extents.get? v = some x → v.index < f.values.size)
    (run : visitAll plan values (.begin f slots) = .ok () st') :
    ∃ as, Performs plan [] (.begin f slots) as st' ∧
      ∀ v ∈ values, v ∈ plan.params ∨ v ∈ st'.restored := by
  unfold visitAll at run
  rw [run_get_bind] at run
  have traced : Traced plan [] (.begin f slots) := ⟨fun m both hm => by simp [begin] at hm, known⟩
  have : ∃ as, Continues plan [] (.begin f slots) as st' ∧
      ∀ v ∈ values, v ∈ plan.params ∨ v ∈ st'.restored := by
    refine forM_run_induction (fun front st' => ∃ as, Continues plan [] (.begin f slots) as st' ∧
        ∀ v ∈ front, v ∈ plan.params ∨ v ∈ st'.restored)
      (fun front v back split st st' ⟨as, cont, restored⟩ run => ?_) ⟨[], .refl, by simp⟩ run
    obtain ⟨as', cont', done⟩ := (emits params _).visit as st v st' (cont.performs.traced traced)
      (.live (live v (by simp [split]))) run
    refine ⟨as', cont.trans cont', fun w hw => ?_⟩
    rcases List.mem_append.mp hw with hw | hw
    · refine (restored w hw).imp_right fun hw => ?_
      rw [Std.ExtTreeMap.mem_iff_isSome_getElem?, Option.isSome_iff_exists] at hw ⊢
      exact hw.imp fun y hy => cont'.performs.restored_getElem? hy
    · obtain rfl := List.mem_singleton.mp hw
      rcases done with given | done | visiting
      · exact .inl given
      · exact .inr done
      · rw [cont.visiting] at visiting
        simp [begin] at visiting
  obtain ⟨as, cont, restored⟩ := this
  exact ⟨as, cont.performs, restored⟩

end CheckpointRestart.Emission
