import CheckpointRestart.Program.Function

/-! # Depth-first order

The blocks that control can reach from the entry, ordered by a depth-first search. Each step of
the search leaves a block, or looks at one more successor of the block that it is in.
-/

namespace CheckpointRestart

def without (blocks : List BlockId) (b : BlockId) : List BlockId :=
  blocks.filter (· ≠ b)

@[simp, grind =] theorem mem_without {blocks : List BlockId} {b c : BlockId} :
    c ∈ without blocks b ↔ c ∈ blocks ∧ c ≠ b := by
  simp [without]

theorem without_cons {blocks : List BlockId} {b c : BlockId} :
    without (c :: blocks) b = if c = b then without blocks b else c :: without blocks b := by
  by_cases h : c = b <;> simp [without, h]

/-- The weights of some things, added up. -/
def totalWeight {α : Type} (weight : α → Nat) : List α → Nat
  | [] => 0
  | x :: rest => weight x + totalWeight weight rest

theorem totalWeight_without_le (weight : BlockId → Nat) (blocks : List BlockId) (b : BlockId) :
    totalWeight weight (without blocks b) + (if b ∈ blocks then weight b else 0) ≤
      totalWeight weight blocks := by
  induction blocks with
  | nil => simp [without, totalWeight]
  | cons c blocks ih =>
    rw [without_cons]
    by_cases h : c = b
    · subst h
      simp only [if_true, List.mem_cons, true_or, totalWeight]
      omega
    · have other : b ≠ c := Ne.symm h
      simp only [if_neg h, List.mem_cons, other, false_or, totalWeight]
      omega

/-- The blocks in the order in which the search leaves them. The stack holds the blocks that it is
in, the innermost one first, each with its successors still to be looked at. -/
def postorder (next : BlockId → List BlockId) (unvisited : List BlockId)
    (stack : List (BlockId × List BlockId)) : List BlockId :=
  match stack with
  | [] => []
  | (b, []) :: rest => b :: postorder next unvisited rest
  | (b, s :: others) :: rest =>
    if _ : s ∈ unvisited then
      postorder next (without unvisited s) ((s, next s) :: (b, others) :: rest)
    else postorder next unvisited ((b, others) :: rest)
termination_by totalWeight (fun b => (next b).length + 2) unvisited + totalWeight (·.2.length + 1) stack
decreasing_by
  · simp only [totalWeight, List.length_nil]
    omega
  · have lighter := totalWeight_without_le (fun b => (next b).length + 2) unvisited s
    rw [if_pos ‹s ∈ unvisited›] at lighter
    simp only [totalWeight, List.length_cons]
    omega
  · simp only [totalWeight, List.length_cons]
    omega

/-- The blocks that control can reach from the entry. The entry comes first, and every other block
after one that branches to it. -/
def Function.reversePostorder (f : Function) : List BlockId :=
  let next := fun b => (f.successors b).reverse
  match f.layout with
  | [] => []
  | entry :: rest => (postorder next (without rest entry) [(entry, next entry)]).reverse

end CheckpointRestart
