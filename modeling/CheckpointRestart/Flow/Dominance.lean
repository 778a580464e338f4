import CheckpointRestart.Flow.Fixpoint
import CheckpointRestart.Flow.Postorder

/-! # Dominance

A block dominates another one if every path from the entry to the other one passes through it. The
reachable blocks are numbered in reverse postorder and kept in a tree, in which the dominators of a
block come to be its ancestors. A block hangs from the nearest common ancestor of its predecessors;
as the ancestors of these may still change, the blocks are hung anew until nothing moves.
-/

namespace CheckpointRestart

/-- A tree over `0`, `1` and so on, in which every number but `0` hangs from a smaller one. -/
structure DominatorTree where
  /-- The parents of `1`, `2` and so on. -/
  parents : List Nat
  descends : ∀ n p : Nat, parents[n]? = some p → p ≤ n
  deriving DecidableEq

namespace DominatorTree

def root : DominatorTree where
  parents := []
  descends := by simp

def size (t : DominatorTree) : Nat :=
  t.parents.length + 1

def parent (t : DominatorTree) : Nat → Nat
  | 0 => 0
  | n + 1 => t.parents[n]?.getD 0

theorem parent_lt (t : DominatorTree) {n : Nat} (h : 0 < n) : t.parent n < n := by
  cases n with
  | zero => omega
  | succ n =>
    rw [parent]
    cases hp : t.parents[n]? with
    | none => simp
    | some p => exact Nat.lt_succ_of_le (t.descends n p hp)

/-- Hangs `n`, which is in the tree or the next to come, from the smaller number `p`. -/
def hang (t : DominatorTree) (n p : Nat) : DominatorTree :=
  if h : p < n ∧ n ≤ t.size then
    { parents := t.parents.take (n - 1) ++ p :: t.parents.drop n
      descends := by
        obtain ⟨smaller, within⟩ := h
        intro m q hq
        have length : (t.parents.take (n - 1)).length = n - 1 := by
          rw [List.length_take]
          unfold size at within
          omega
        rw [List.getElem?_append, List.getElem?_cons, length] at hq
        split at hq
        · exact t.descends m q (List.getElem?_take_of_lt ‹_› ▸ hq)
        · split at hq
          · cases hq
            omega
          · rw [List.getElem?_drop] at hq
            refine t.descends m q ?_
            rwa [show n + (m - (n - 1) - 1) = m by omega] at hq }
  else t

def meet (t : DominatorTree) (a b : Nat) : Nat :=
  if a < b then t.meet a (t.parent b)
  else if b < a then t.meet (t.parent a) b
  else a
termination_by a + b
decreasing_by
  · have := t.parent_lt (n := b) (by omega)
    omega
  · have := t.parent_lt (n := a) (by omega)
    omega

def isAncestor (t : DominatorTree) (a n : Nat) : Bool :=
  a = n || if _ : 0 < n then t.isAncestor a (t.parent n) else false
termination_by n
decreasing_by exact t.parent_lt ‹_›

/-- Hangs `n` from what its sources in the tree have in common. -/
def relink (sources : Nat → List Nat) (t : DominatorTree) (n : Nat) : DominatorTree :=
  match (sources n).filter (· < t.size) with
  | [] => t
  | p :: others => t.hang n (others.foldl (fun c q => t.meet q c) p)

/-- Hangs every number below `count` but the root anew, in order. -/
def sweep (sources : Nat → List Nat) (count : Nat) (t : DominatorTree) : DominatorTree :=
  (List.range' 1 (count - 1)).foldl (relink sources) t

end DominatorTree

structure Dominators where
  /-- The reachable blocks, each at its number. -/
  order : List BlockId
  tree : DominatorTree

namespace Dominators

def number? (order : List BlockId) (b : BlockId) : Option Nat :=
  order.idxOf? b

/-- The numbers of the predecessors of each reachable block. -/
def sources (f : Function) (order : List BlockId) : List (List Nat) :=
  order.map fun b => (f.predecessors b).filterMap (number? order)

def compute (f : Function) : Dominators :=
  let order := f.reversePostorder
  let table := sources f order
  { order
    tree := stabilize (DominatorTree.sweep (table[·]?.getD []) order.length) (· == ·) (order.length + 1)
      .root }

def isReachable (d : Dominators) (b : BlockId) : Bool :=
  d.order.contains b

/-- Whether `b` can be reached, and only through `a`. -/
def dominates (d : Dominators) (a b : BlockId) : Bool :=
  match number? d.order a, number? d.order b with
  | some m, some n => d.tree.isAncestor m n
  | _, _ => false

/-- The strict dominator of `b` that all others dominate; the entry and unreachable blocks have
none. -/
def immediate? (d : Dominators) (b : BlockId) : Option BlockId :=
  match number? d.order b with
  | some (n + 1) => d.order[d.tree.parent (n + 1)]?
  | _ => none

end Dominators

end CheckpointRestart
