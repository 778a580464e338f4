import CheckpointRestart.Collection.Tree
import Mathlib.Data.List.Perm.Subperm

/-! # Sizes of sets

A set has no more members than a list that holds them all, and a set that holds as many members as
one that includes it is that set.
-/

namespace CheckpointRestart

open Std

variable {α : Type} [Ord α] [TransOrd α] [LawfulEqOrd α]

namespace TreeSet

theorem nodup_toList (t : ExtTreeSet α) : t.toList.Nodup := by
  refine t.distinct_toList.imp fun {a b} h hab => h ?_
  rw [hab]
  exact ReflCmp.compare_self

theorem size_le_of_subset {t : ExtTreeSet α} {xs : List α} (sub : ∀ a ∈ t, a ∈ xs) :
    t.size ≤ xs.length := by
  rw [← ExtTreeSet.length_toList]
  exact ((nodup_toList t).subperm fun a ha => sub a (ExtTreeSet.mem_toList.mp ha)).length_le

theorem size_le_size {s t : ExtTreeSet α} (sub : ∀ a ∈ s, a ∈ t) : s.size ≤ t.size := by
  rw [← ExtTreeSet.length_toList (t := t)]
  exact size_le_of_subset fun a ha => ExtTreeSet.mem_toList.mpr (sub a ha)

theorem eq_of_subset_of_size_le {s t : ExtTreeSet α} (sub : ∀ a ∈ s, a ∈ t)
    (size : t.size ≤ s.size) : s = t := by
  have perm : s.toList.Perm t.toList := by
    refine ((nodup_toList s).subperm fun a ha => ?_).perm_of_length_le (by simpa using size)
    exact ExtTreeSet.mem_toList.mpr (sub a (ExtTreeSet.mem_toList.mp ha))
  exact ExtTreeSet.ext_toList perm

end TreeSet

end CheckpointRestart
