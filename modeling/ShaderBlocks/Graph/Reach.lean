import ShaderBlocks.Graph.Basic

/-!
# What a block depends on

The blocks that can be reached from a block by going from outlets to the outlets
that feed them, in any number of steps. The block itself counts, whether it is in
the graph or not.

They are found in two ways. `explore` keeps a stack of blocks to visit, onto which a
block may be pushed again and again before it is visited. `reach` goes in rounds, and a
round looks only at what the round before has found.
-/

namespace ShaderBlocks.Graph

/-- The blocks that feed a block, once for each outlet that is fed. -/
def feeders (graph : Graph) (index : BlockIndex) : List BlockIndex :=
  match graph.find? index with
  | some block => block.outlets.filterMap fun outlet => outlet.feed.map (·.block)
  | none => []

/-! ## By a stack -/

/-- How many blocks of the graph were not visited. -/
def unvisited (graph : Graph) (visited : List BlockIndex) : Nat :=
  graph.blocks.countP (·.index ∉ visited)

/-- A visit to a block of the graph leaves fewer blocks to visit. -/
theorem unvisited_lt {graph : Graph} {visited : List BlockIndex} {index : BlockIndex}
    {block : Block} (found : graph.find? index = some block) (fresh : index ∉ visited) :
    graph.unvisited (visited ++ [index]) < graph.unvisited visited := by
  have numbered : block.index = index := by simpa using List.find?_some found
  obtain ⟨front, back, parts⟩ := List.append_of_mem (List.mem_of_find?_eq_some found)
  have fewer : ∀ blocks : List Block,
      blocks.countP (·.index ∉ visited ++ [index]) ≤ blocks.countP (·.index ∉ visited) :=
    fun blocks => List.countP_mono_left fun other _ => by simp +contextual
  have inFront := fewer front
  have inBack := fewer back
  simp only [unvisited, parts, List.countP_append, List.countP_cons, numbered, fresh]
  simp only [List.mem_append, List.mem_singleton, or_true, not_true_eq_false, decide_false,
    not_false_eq_true, decide_true, Bool.false_eq_true, if_false, if_true] at inFront inBack ⊢
  omega

/-- A visit to a block that is not in the graph leaves as many blocks to visit. -/
theorem unvisited_of_absent {graph : Graph} {index : BlockIndex}
    (absent : graph.find? index = none) (visited : List BlockIndex) :
    graph.unvisited (visited ++ [index]) = graph.unvisited visited := by
  refine List.countP_congr fun block member => ?_
  have apart : block.index ≠ index := by simpa using List.find?_eq_none.mp absent block member
  simp [apart]

/-- Visit the blocks on a stack, the first one next, and whatever feeds them. What feeds a
block that is visited is pushed one by one, visited before or not. Every visit to a block of
the graph leaves fewer of them to visit, and everything else makes the stack shorter. -/
def exploreFrom (graph : Graph) (visited : List BlockIndex) :
    (stack : List BlockIndex) → List BlockIndex
  | [] => visited
  | next :: rest =>
    if next ∈ visited then exploreFrom graph visited rest
    else exploreFrom graph (visited ++ [next]) ((graph.feeders next).reverse ++ rest)
termination_by stack => (graph.unvisited visited, stack.length)
decreasing_by
  · exact .right _ (Nat.lt_succ_self _)
  · rename_i fresh
    cases found : graph.find? next with
    | some block => exact .left _ _ (unvisited_lt found fresh)
    | none =>
      rw [unvisited_of_absent found, feeders, found]
      exact .right _ (Nat.lt_succ_self _)

/-- The blocks that can be reached from `start`, in the order they are visited. -/
def explore (graph : Graph) (start : BlockIndex) : List BlockIndex :=
  exploreFrom graph [] [start]

/-! ## In rounds -/

/-- Add to `seen` what can be reached from `frontier` in at most `limit` steps. All
of `frontier` has been seen. -/
def reachFrom (graph : Graph) : (limit : Nat) → (seen frontier : List BlockIndex) →
    List BlockIndex
  | 0, seen, _ => seen
  | limit + 1, seen, frontier =>
    match ((frontier.flatMap graph.feeders).filter (· ∉ seen)).eraseDups with
    | [] => seen
    | found => reachFrom graph limit (seen ++ found) found

/-- The blocks that can be reached from `start`, each once. Every step but the last
finds a block of the graph that was not seen before. -/
def reach (graph : Graph) (start : BlockIndex) : List BlockIndex :=
  reachFrom graph (graph.size + 1) [start] [start]

end ShaderBlocks.Graph
