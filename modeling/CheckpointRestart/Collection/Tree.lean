import Std.Data.ExtTreeMap
import Std.Data.ExtTreeSet

/-! # Sets and maps built by folding

Members of sets and entries of maps in terms of equality of keys, and what a fold that only ever
adds members has in the end.
-/

namespace CheckpointRestart

open Std

variable {α β : Type} [Ord α] [TransOrd α] [LawfulEqOrd α]

namespace TreeSet

theorem mem_insert_iff {t : ExtTreeSet α} {a k : α} : a ∈ t.insert k ↔ a = k ∨ a ∈ t := by
  rw [ExtTreeSet.mem_insert, LawfulEqCmp.compare_eq_iff_eq, eq_comm]

theorem mem_erase_iff {t : ExtTreeSet α} {a k : α} : a ∈ t.erase k ↔ a ≠ k ∧ a ∈ t := by
  rw [ExtTreeSet.mem_erase, ne_eq, LawfulEqCmp.compare_eq_iff_eq, eq_comm]

theorem mem_singleton_iff {a k : α} : a ∈ ({k} : ExtTreeSet α) ↔ a = k := by
  change a ∈ (∅ : ExtTreeSet α).insert k ↔ a = k
  rw [mem_insert_iff]
  simp

end TreeSet

/-- A fold in which each step adds a member exactly for the elements that `bring` it. -/
theorem mem_foldl_iff {γ δ : Type} (holds : δ → Prop) (bring : γ → Prop) {step : δ → γ → δ}
    (spec : ∀ s c, holds (step s c) ↔ holds s ∨ bring c) (xs : List γ) (s : δ) :
    holds (xs.foldl step s) ↔ holds s ∨ ∃ c ∈ xs, bring c := by
  induction xs generalizing s with
  | nil => simp
  | cons c xs ih =>
    rw [List.foldl_cons, ih, spec]
    simp [or_assoc]

namespace TreeSet

theorem mem_foldl_insert_iff {a : α} {xs : List α} {t : ExtTreeSet α} :
    a ∈ xs.foldl (·.insert ·) t ↔ a ∈ t ∨ a ∈ xs := by
  have spec : ∀ (t : ExtTreeSet α) k, a ∈ t.insert k ↔ a ∈ t ∨ a = k := by
    intro t k
    rw [mem_insert_iff, or_comm]
  simpa using mem_foldl_iff (fun t : ExtTreeSet α => a ∈ t) (a = ·) spec xs t

omit [LawfulEqOrd α] in
theorem any_eq_any_toList {t : ExtTreeSet α} {p : α → Bool} : t.any p = t.toList.any p := by
  have loop : t.any p = Id.run (do
      for a in t do
        if p a then return true
      return false) := by
    obtain ⟨⟨⟨t⟩⟩⟩ := t
    induction t using Quotient.ind
    rfl
  rw [loop, ExtTreeSet.forIn_eq_forIn_toList]
  induction t.toList with
  | nil => rfl
  | cons a as ih =>
    by_cases h : p a = true
    · simp [h]
    · simpa [h] using ih

end TreeSet

namespace TreeMap

theorem getElem?_insert_iff {t : ExtTreeMap α β} {k a : α} {v : β} [DecidableEq α] :
    (t.insert k v)[a]? = if a = k then some v else t[a]? := by
  rw [ExtTreeMap.getElem?_insert]
  by_cases h : a = k
  · simp [h]
  · rw [if_neg h, if_neg]
    rw [LawfulEqCmp.compare_eq_iff_eq]
    exact Ne.symm h

theorem getD_insert_iff {t : ExtTreeMap α β} {k a : α} {v d : β} [DecidableEq α] :
    (t.insert k v).getD a d = if a = k then v else t.getD a d := by
  rw [ExtTreeMap.getD_eq_getD_getElem?, getElem?_insert_iff, ExtTreeMap.getD_eq_getD_getElem?]
  split <;> rfl

theorem mem_insert_iff {t : ExtTreeMap α β} {k a : α} {v : β} :
    a ∈ t.insert k v ↔ a = k ∨ a ∈ t := by
  rw [ExtTreeMap.mem_insert, LawfulEqCmp.compare_eq_iff_eq, eq_comm]

end TreeMap

end CheckpointRestart
