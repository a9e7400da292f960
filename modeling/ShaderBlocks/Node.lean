import ShaderBlocks.Graph.Error

/-!
# Nodes

A node is a set of outlets, found by name; of several outlets with one name the
first is found. A node belongs to at most one block, for good. The identifiers of
its outlets hold the number of that block, or zero if there is none yet.
-/

namespace ShaderBlocks

/-- Some outlets and the block they belong to. -/
structure Node where
  /-- The block, once there is one. -/
  owner : Option BlockIndex
  /-- The outlets, in order. -/
  outlets : List Outlet
  deriving DecidableEq, Repr

namespace Node

/-- A node without outlets that belongs to no block. -/
def empty : Node := ⟨none, []⟩

/-- The outlet of the given name. -/
def get (node : Node) (name : String) : Except GraphError Outlet :=
  match node.outlets.find? (·.name == name) with
  | some outlet => .ok outlet
  | none => .error (.unknownOutlet node.owner name)

/-- Feed the outlet of the given name, whatever its direction. -/
def link (node : Node) (name : String) (feed : Endpoint) : Except GraphError Node := do
  let _ ← node.get name
  return { node with outlets := Outlet.setFeed name (some feed) node.outlets }

/-- Give the node to a block. -/
def bind (node : Node) (owner : BlockIndex) : Except GraphError Node :=
  match node.owner with
  | some held => .error (.alreadyOwned held)
  | none => .ok { node with owner := some owner }

/-- A node that was given to a block belongs to it. -/
theorem owner_of_bind {node bound : Node} {owner : BlockIndex}
    (done : node.bind owner = .ok bound) : bound.owner = some owner := by
  unfold bind at done
  split at done
  · contradiction
  · cases done
    rfl

/-- Replace the outlets. -/
def setOutlets (node : Node) (specs : List OutletSpec) : Node :=
  { node with outlets := Outlet.seed (node.owner.getD 0) 0 specs }

/-- A node stays with its block when its outlets are replaced. -/
theorem owner_setOutlets (node : Node) (specs : List OutletSpec) :
    (node.setOutlets specs).owner = node.owner := rfl

/-- The number of outputs. -/
def outputCount (node : Node) : Nat :=
  node.outlets.countP (·.direction = .output)

end Node

end ShaderBlocks
