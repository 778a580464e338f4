import CheckpointRestart.Program.Printer
import CheckpointRestart.Text.Escape

/-! # Drawing the control flow

The control flow of a function as a graph description: a node for each block, labelled with the
text of the block, and an edge for each branch, labelled with the case it is taken in.
-/

namespace CheckpointRestart

namespace Op

def targetLabels : Op → List String
  | condBr _ _ _ => ["T", "F"]
  | switch _ _ cases => "default" :: cases.map fun (k, _) => toString k.toInt
  | _ => [""]

end Op

namespace Drawing

def nodeName (b : BlockId) : String :=
  "bb" ++ toString b.index

/-- The graph is named for the function, with an underscore for whatever is not a letter or a
digit. -/
def graphName (f : Function) : String :=
  "fn_" ++ f.name.map fun c => if c.isAlphanum then c else '_'

/-- Escapes text for a label in which a backslash is already an escape. -/
def escapeLabel (s : String) : String :=
  .ofList (s.toList.flatMap fun c => if c = '\\' then [c] else Text.escapeToAscii c)

/-- A quote in an instruction is written with a backslash. -/
def instructionLabel (f : Function) (i : Instruction) : String :=
  .ofList ((f.renderInstruction i).toList.flatMap fun c => if c = '"' then ['\\', '"'] else [c])

/-- The label of a block: every line ends in a mark that aligns it to the left. -/
def blockLabel (f : Function) (b : BlockId) : String :=
  f.blockName b ++ ":\\l" ++
    String.join ((f.body b).map fun i => "  " ++ instructionLabel f i ++ "\\l")

def node (f : Function) (highlight : List BlockId) (b : BlockId) : String :=
  let shape := if highlight.contains b then "doubleoctagon" else "box"
  "    " ++ nodeName b ++ "[label=\"" ++ escapeLabel (blockLabel f b) ++ "\"][shape=\"" ++ shape ++
    "\"];\n"

def edges (f : Function) (b : BlockId) : List String :=
  match (f.block b).terminator? with
  | none => []
  | some t => (t.op.targets.zip t.op.targetLabels).map fun (target, label) =>
    "    " ++ nodeName b ++ " -> " ++ nodeName target ++ "[label=\"" ++ label ++ "\"];\n"

end Drawing

namespace Function

def draw (f : Function) (highlight : List BlockId) : String :=
  "digraph " ++ Drawing.graphName f ++ " \x7b\n" ++
    String.join (f.layout.map (Drawing.node f highlight)) ++
    String.join (f.layout.flatMap (Drawing.edges f)) ++ "\x7d\n"

end Function

end CheckpointRestart
