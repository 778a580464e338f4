import CheckpointRestart.Flow.Uses

/-! # Splitting merge blocks

Every block that starts with merges is cut in two: the merges stay alone in it, and the rest moves
to a block of its own right behind. Afterwards a block is a merge block or holds no merges.
-/

namespace CheckpointRestart

namespace Function

/-- Cuts `b` behind its merges and adds it to the merge blocks, if it has any. -/
def splitBlock (state : BlockSet × Function) (b : BlockId) : BlockSet × Function :=
  let (merges, f) := state
  let block := f.block b
  if block.phis.isEmpty then (merges, f)
  else
    let (rest, f) := f.insertBlockAfter b (block.name ++ ".split")
    let f := f.setBody rest block.afterPhis
    let f := f.setBody b (block.phis ++ [.effect (.br rest)])
    (merges.insert b, (f.successors rest).foldl (fun f s => f.replacePhiBlock s b rest) f)

/-- Splits all blocks that start with merges; the merge blocks are returned beside the result. -/
def splitMerges (f : Function) : BlockSet × Function :=
  f.layout.foldl splitBlock (∅, f)

end Function

end CheckpointRestart
