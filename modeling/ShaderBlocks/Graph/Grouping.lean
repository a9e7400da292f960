import ShaderBlocks.Graph.Basic

/-!
# Grouping

Blocks can be grouped under other blocks. A block has at most one parent, and is
never grouped under itself or under a block below it, so the groups form a forest.
Grouping has no influence on what is compiled.
-/

namespace ShaderBlocks.Graph

/-- Go up from `cursor` to the block without a parent, in at most `limit` steps, and
make sure that `child` is not met. -/
def checkAncestors (graph : Graph) (child parent : BlockIndex) :
    (limit : Nat) → (cursor : BlockIndex) → Except GraphError Unit
  | 0, _ => .error (.groupingLoop child parent)
  | limit + 1, cursor =>
    if cursor = child then
      .error (.groupingLoop child parent)
    else do
      match (← graph.get cursor).parent with
      | some next => checkAncestors graph child parent limit next
      | none => return ()

/-- Take a block out of the group of its parent. -/
def detach (graph : Graph) (child : Block) : Except GraphError Graph :=
  match child.parent with
  | some old =>
    graph.update old fun block =>
      { block with children := block.children.filter (· ≠ child.index) }
  | none => .ok graph

/-- Put a block into the group of a parent, as its last child. -/
def attach (graph : Graph) (parent child : BlockIndex) : Except GraphError Graph := do
  let listed ← graph.update parent fun group =>
    { group with children := group.children ++ [child] }
  listed.update child fun block => { block with parent := some parent }

/-- Group `child` under `parent`. A walk up meets every block at most once. -/
def adopt (graph : Graph) (parent child : BlockIndex) : Except GraphError Graph := do
  let block ← graph.get child
  checkAncestors graph child parent (graph.size + 1) parent
  (← graph.detach block).attach parent child

end ShaderBlocks.Graph
