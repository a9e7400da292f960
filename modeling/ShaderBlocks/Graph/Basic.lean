import ShaderBlocks.Block

/-!
# Graphs

A graph holds blocks in ascending order of their numbers, one for each number. An
input of a block is fed by at most one output; a link leads from the output to the
input and is kept at the input.
-/

namespace ShaderBlocks

/-- Some blocks, one for each number. -/
structure Graph where
  /-- The blocks, in ascending order of their numbers. -/
  blocks : List Block
  /-- Every block has a greater number than those before it. -/
  ordered : blocks.Pairwise fun first second => first.index < second.index

namespace Graph

/-- A graph without blocks. -/
def empty : Graph := ⟨[], .nil⟩

/-- The number of blocks. -/
def size (graph : Graph) : Nat :=
  graph.blocks.length

/-- The block of the given number. -/
def find? (graph : Graph) (index : BlockIndex) : Option Block :=
  graph.blocks.find? (·.index == index)

/-- The block of the given number, or the error that there is none. -/
def get (graph : Graph) (index : BlockIndex) : Except GraphError Block :=
  match graph.find? index with
  | some block => .ok block
  | none => .error (.unknownBlock index)

/-- Put a block in its place among some blocks. -/
def insertBlock (block : Block) : List Block → List Block
  | [] => [block]
  | first :: rest =>
    if block.index < first.index then block :: first :: rest
    else if block.index = first.index then block :: rest
    else first :: insertBlock block rest

/-- Only the block that is put in is new. -/
theorem eq_or_mem_of_mem_insertBlock {block other : Block} {blocks : List Block}
    (member : other ∈ insertBlock block blocks) : other = block ∨ other ∈ blocks := by
  induction blocks with
  | nil => simpa [insertBlock] using member
  | cons first rest ih =>
    simp only [insertBlock] at member
    split at member
    · simpa using member
    · split at member
      · rcases List.mem_cons.mp member with same | inRest
        · exact .inl same
        · exact .inr (List.mem_cons_of_mem _ inRest)
      · rcases List.mem_cons.mp member with same | inRest
        · exact .inr (same ▸ List.mem_cons_self)
        · exact (ih inRest).imp_right (List.mem_cons_of_mem _)

/-- A block is put in its place. -/
theorem pairwise_insertBlock (block : Block) {blocks : List Block}
    (ordered : blocks.Pairwise fun first second => first.index < second.index) :
    (insertBlock block blocks).Pairwise fun first second => first.index < second.index := by
  induction blocks with
  | nil => simp [insertBlock]
  | cons first rest ih =>
    obtain ⟨below, restOrdered⟩ := List.pairwise_cons.mp ordered
    simp only [insertBlock]
    split
    · rename_i before
      refine List.pairwise_cons.mpr ⟨?_, ordered⟩
      intro other member
      rcases List.mem_cons.mp member with same | inRest
      · exact same ▸ before
      · exact Nat.lt_trans before (below other inRest)
    · split
      · rename_i same
        exact List.pairwise_cons.mpr ⟨fun other member => same ▸ below other member, restOrdered⟩
      · rename_i notBefore notSame
        refine List.pairwise_cons.mpr ⟨?_, ih restOrdered⟩
        intro other member
        rcases eq_or_mem_of_mem_insertBlock member with same | inRest
        · exact same ▸ Nat.lt_of_le_of_ne (Nat.le_of_not_lt notBefore) (Ne.symm notSame)
        · exact below other inRest

/-- Add a block. A block of the same number is replaced. -/
def insert (graph : Graph) (block : Block) : Graph :=
  ⟨insertBlock block graph.blocks, pairwise_insertBlock block graph.ordered⟩

/-- The block with the given number changed, and any other block as it is. -/
def modifyBlock (index : BlockIndex) (change : Block → Block) (block : Block) : Block :=
  if block.index = index then change block else block

/-- A change that keeps the number of every block keeps it at one block. -/
theorem modifyBlock_index {change : Block → Block}
    (numbered : ∀ block, (change block).index = block.index) (index : BlockIndex)
    (block : Block) : (modifyBlock index change block).index = block.index := by
  unfold modifyBlock
  split
  · exact numbered block
  · rfl

/-- Change the block of the given number, if there is one. The change keeps the number. -/
def modify (graph : Graph) (index : BlockIndex) (change : Block → Block)
    (numbered : ∀ block, (change block).index = block.index := by intro block; rfl) :
    Graph where
  blocks := graph.blocks.map (modifyBlock index change)
  ordered := by
    simpa [List.pairwise_map, modifyBlock_index numbered] using graph.ordered

/-- Change the block of the given number, or fail if there is none. -/
def update (graph : Graph) (index : BlockIndex) (change : Block → Block)
    (numbered : ∀ block, (change block).index = block.index := by intro block; rfl) :
    Except GraphError Graph := do
  let _ ← graph.get index
  return graph.modify index change numbered

/-- Feed an outlet of a block, or stop feeding it. -/
def setFeed (graph : Graph) (target : Endpoint) (feed : Option Endpoint) : Graph :=
  graph.modify target.block
    (fun block => block.withOutlets (Outlet.setFeed target.outlet feed block.outlets))
    fun block => block.index_withOutlets _

/-- The outlet at an endpoint. -/
def outlet (graph : Graph) (endpoint : Endpoint) : Except GraphError Outlet := do
  (← graph.get endpoint.block).node.get endpoint.outlet

/-- Link an output to an input. A link that the input had before is given up. -/
def connect (graph : Graph) (source target : Endpoint) : Except GraphError Graph := do
  if (← graph.outlet source).direction ≠ .output then
    throw (.invalidConnection source target .sourceNotOutput)
  if (← graph.outlet target).direction ≠ .input then
    throw (.invalidConnection source target .targetNotInput)
  return graph.setFeed target (some source)

/-- Take the link off an outlet, and say where it led from. -/
def disconnect (graph : Graph) (target : Endpoint) :
    Except GraphError (Graph × Option Endpoint) := do
  let feed := (← graph.outlet target).feed
  return (graph.setFeed target none, feed)

/-- The outlet at an endpoint, with the block that its node belongs to. -/
def resolve (graph : Graph) (endpoint : Endpoint) : Except GraphError (Block × Outlet) := do
  let node := (← graph.get endpoint.block).node
  let outlet ← node.get endpoint.outlet
  match node.owner with
  | some owner => return (← graph.get owner, outlet)
  | none => throw (.unknownBlock endpoint.block)

/-- Change the values kept with a block. -/
def editProperties (graph : Graph) (index : BlockIndex)
    (change : List (String × Json) → List (String × Json)) : Except GraphError Graph :=
  graph.update index (·.editProperties change) fun block => block.index_editProperties change

/-- Keep a value with a block. -/
def setProperty (graph : Graph) (index : BlockIndex) (key : String) (value : Json) :
    Except GraphError Graph :=
  graph.editProperties index (Json.insertField key value)

end Graph

end ShaderBlocks
