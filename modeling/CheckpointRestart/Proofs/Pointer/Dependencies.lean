import CheckpointRestart.Pointer.Extent
import CheckpointRestart.Proofs.Collections

/-! # What a pointer depends on

The values gathered for a pointer are justified, each by a kept member or by being a size or an
index of one.
-/

namespace CheckpointRestart

namespace Extent

/-- The scalars that an extent names. -/
def scalars (x : Extent) : List ValueId :=
  x.sizeValues ++ x.index.toList

end Extent

namespace Extents

variable {e : Extents} {kept : ValueId → Bool} {v w m : ValueId} {x : Extent}

/-- `w` is `v`, or kept, or a scalar of one of these. -/
def Justified (e : Extents) (kept : ValueId → Bool) (v w : ValueId) : Prop :=
  w = v ∨ kept w = true ∨
    ∃ w' x, (w' = v ∨ kept w' = true) ∧ e.get? w' = some x ∧ w ∈ x.scalars

/-- Everything found has a reason, and what remains to be looked at has the better one. -/
structure Gathering.Justified (e : Extents) (kept : ValueId → Bool) (v : ValueId)
    (g : Gathering) : Prop where
  seen : ∀ w ∈ g.seen, e.Justified kept v w
  todo : ∀ w ∈ g.todo, w = v ∨ kept w = true
  found : ∀ w, w ∈ g.seen ↔ w = v ∨ w ∈ g.found

namespace Gathering

variable {g : Gathering}

theorem mem_seen_add : w ∈ (g.add m).seen ↔ w = m ∨ w ∈ g.seen := by
  unfold add
  split
  · next h =>
    rw [Std.ExtTreeSet.contains_iff_mem] at h
    exact ⟨.inr, fun hw => hw.elim (fun e => e ▸ h) id⟩
  · exact TreeSet.mem_insert_iff

theorem mem_seen_keep : w ∈ (g.keep m).seen ↔ w = m ∨ w ∈ g.seen := by
  unfold keep
  split
  · next h =>
    rw [Std.ExtTreeSet.contains_iff_mem] at h
    exact ⟨.inr, fun hw => hw.elim (fun e => e ▸ h) id⟩
  · exact TreeSet.mem_insert_iff

theorem todo_add : (g.add m).todo = g.todo := by
  unfold add
  split <;> rfl

theorem mem_todo_keep (hw : w ∈ (g.keep m).todo) : w = m ∨ w ∈ g.todo := by
  unfold keep at hw
  split at hw
  · exact .inr hw
  · exact List.mem_cons.mp hw

theorem Justified.add (h : g.Justified e kept v) (why : e.Justified kept v m) :
    (g.add m).Justified e kept v := by
  refine ⟨fun w hw => ?_, fun w hw => h.todo w (todo_add ▸ hw), fun w => ?_⟩
  · rcases mem_seen_add.mp hw with rfl | hw
    · exact why
    · exact h.seen w hw
  · rw [mem_seen_add, h.found]
    unfold Gathering.add
    split
    · next hm =>
      rw [Std.ExtTreeSet.contains_iff_mem, h.found] at hm
      grind
    · simp only [List.mem_cons]
      grind

theorem Justified.keep (h : g.Justified e kept v) (hm : kept m = true) :
    (g.keep m).Justified e kept v := by
  refine ⟨fun w hw => ?_, fun w hw => ?_, fun w => ?_⟩
  · rcases mem_seen_keep.mp hw with rfl | hw
    · exact .inr (.inl hm)
    · exact h.seen w hw
  · rcases mem_todo_keep hw with rfl | hw
    · exact .inr hm
    · exact h.todo w hw
  · rw [mem_seen_keep, h.found]
    unfold Gathering.keep
    split
    · next hm =>
      rw [Std.ExtTreeSet.contains_iff_mem, h.found] at hm
      grind
    · simp only [List.mem_cons]
      grind

end Gathering

theorem justified_scanMembers (fuel : Nat) (members : List ValueId) {g : Gathering}
    (h : g.Justified e kept v) : (e.scanMembers kept fuel members g).Justified e kept v := by
  fun_induction scanMembers e kept fuel members g with
  | case1 => exact h
  | case2 => exact h
  | case3 fuel m rest g hm ih => exact ih (h.keep hm)
  | case4 fuel m rest g _ _ ih => exact ih h
  | case5 fuel m rest g _ _ _ x _ source _ ih => exact ih ⟨h.seen, h.todo, h.found⟩
  | case6 fuel m rest g _ _ _ x _ _ ih => exact ih ⟨h.seen, h.todo, h.found⟩
  | case7 fuel m rest g _ _ _ _ ih => exact ih ⟨h.seen, h.todo, h.found⟩

theorem justified_gather (fuel : Nat) {g : Gathering} (h : g.Justified e kept v) :
    (e.gather kept fuel g).Justified e kept v := by
  fun_induction gather e kept fuel g with
  | case1 => exact h
  | case2 => exact h
  | case3 fuel g w rest todo g' _ ih =>
    exact ih ⟨h.seen, fun u hu => h.todo u (todo ▸ List.mem_cons_of_mem _ hu), h.found⟩
  | case4 fuel g w rest todo g' x known g'' members ih =>
    refine ih (justified_scanMembers _ _ ?_)
    have start : Gathering.Justified e kept v { g with todo := rest } :=
      ⟨h.seen, fun u hu => h.todo u (todo ▸ List.mem_cons_of_mem _ hu), h.found⟩
    have hw := h.todo w (todo ▸ List.mem_cons_self)
    refine List.foldlRecOn (x.sizeValues ++ x.index.toList) Gathering.add start
      fun g h c hc => h.add (.inr (.inr ⟨w, x, hw, known, hc⟩))

theorem justified_of_mem_dependencies (h : w ∈ e.dependencies v kept) : e.Justified kept v w := by
  have start : Gathering.Justified e kept v ⟨[], {v}, ∅, [v]⟩ := by
    refine ⟨fun w hw => .inl (TreeSet.mem_singleton_iff.1 hw), by simp, fun w => ?_⟩
    rw [TreeSet.mem_singleton_iff]
    simp
  have final := justified_gather (e.mentions + 2) start
  exact final.seen w ((final.found w).mpr (.inr (List.mem_reverse.mp h)))

theorem dependencies_eq_nil (unknown : e.get? v = none) : e.dependencies v kept = [] := by
  simp [dependencies, gather, unknown]

end Extents

end CheckpointRestart
