import ShaderBlocks.Proofs.CompileSuccess

/-!
# What an error of the compiler says is so

Emission finds out that something is wrong deep down, after it has marked blocks, declared variables
and passed over what it holds already, and in one phase or the other. Whatever it reports is there
to be seen in the graph alone, without regard to how far emission had come: an error names a block
that is needed and what is wrong with it, or two needed places that disagree.
-/

namespace ShaderBlocks

namespace Graph

end Graph

namespace Sample

/-- The scaling feeds itself and both inputs of the surface. -/
def looped : Graph := graphWith (some scaled) none (some scaled) (some scaled)

end Sample

end ShaderBlocks
