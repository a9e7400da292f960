import ShaderBlocks.Proofs.PlainEmission
import ShaderBlocks.Proofs.ProgramHistory

/-!
# Materials that share a program

Several materials can be compiled into one program, one after the other. What a material
brings along is left out by those after it, so the order decides where a call stands and with
which priority, and where an error is met. It does not decide whether all of them can be
compiled, nor what the program holds in the end.

The argument takes a program into which all materials went in one order and follows another
order beside it. In the first program every call stands behind all that it needs. Whatever the
second order asks for is therefore there and can be put in: going from a call to what it needs
leads towards the front, so it never comes back to the path, and names have the types that they
have there.
-/

namespace ShaderBlocks

open Emission Program

/-- A call without its priority. -/
def Call.unranked (call : Call) : Call :=
  { call with priority := 0 }

/-- Compile some materials into a program, one after the other. -/
def Graph.compileAll (graph : Graph) (materials : List Block) (program : Program) :
    Except GraphError Program :=
  materials.foldlM (fun program material => material.compileInto graph program) program

namespace Program

/-- The program `small` calls and declares nothing that `large` does not. -/
structure Within (small large : Program) : Prop where
  /-- The blocks that are called. -/
  keys : small.keys ⊆ large.keys
  /-- The variables. -/
  locals : small.locals ⊆ large.locals
  /-- The names and types of the uniforms. -/
  externals : ∀ uniform ∈ small.externals,
    ∃ held ∈ large.externals, held.name = uniform.name ∧ held.type = uniform.type

/-- Two programs hold the same, up to order and priorities. -/
structure SameContent (program other : Program) : Prop where
  /-- The same blocks are remembered. -/
  included : ∀ key, program.includes key = other.includes key
  /-- The calls are the same. -/
  calls : (program.calls.map Call.unranked).Perm (other.calls.map Call.unranked)
  /-- Each phase has the same variables. -/
  locals : ∀ phase, (program.localsOf phase).Perm (other.localsOf phase)
  /-- The uniforms have the same names and types. -/
  externals : (program.externals.map fun uniform => (uniform.name, uniform.type)).Perm
    (other.externals.map fun uniform => (uniform.name, uniform.type))

namespace Within

variable {small large : Program}

/-- An empty program is within any. -/
theorem empty (large : Program) : Within .empty large := by
  constructor <;> simp [Program.empty, Program.keys]

/-- Remembering a block adds nothing. -/
theorem markIncluded (within : Within small large) (key : Key) :
    Within (small.markIncluded key) large := by
  obtain ⟨keys, -, locals, externals⟩ := small.markIncluded_keys key
  exact ⟨keys ▸ within.keys, locals ▸ within.locals, externals ▸ within.externals⟩

/-- A call of a block that is called in the large program can be added. -/
theorem addCall (within : Within small large) {call : Call} (called : call.key ∈ large.keys) :
    Within (small.addCall call) large := by
  refine ⟨?_, within.locals, within.externals⟩
  have keys : (small.addCall call).keys = small.keys ++ [call.key] := by
    simp [Program.keys, Program.addCall]
  rw [keys]
  exact List.append_subset.mpr ⟨within.keys, List.cons_subset.mpr ⟨called, List.nil_subset _⟩⟩

/-- A variable of the large program can be declared. -/
theorem declare (within : Within small large) {after : Program} {phase : Phase} {name : String}
    {type : ValueType} (held : ⟨phase, name, type⟩ ∈ large.locals)
    (declared : small.declare phase name type = .ok after) : Within after large := by
  rcases declare_eq_ok declared with ⟨rfl, -⟩ | ⟨rfl, -⟩
  · exact within
  · refine ⟨within.keys, List.append_subset.mpr ⟨within.locals, ?_⟩, within.externals⟩
    exact List.cons_subset.mpr ⟨held, List.nil_subset _⟩

/-- A uniform of the large program can be declared. -/
theorem declareExternal (within : Within small large) {after : Program} {uniform : Uniform}
    (held : ∃ held ∈ large.externals, held.name = uniform.name ∧ held.type = uniform.type)
    (declared : small.declareExternal uniform = .ok after) : Within after large := by
  rcases declareExternal_eq_ok declared with ⟨rfl, -⟩ | ⟨rfl, -⟩
  · exact within
  · refine ⟨within.keys, within.locals, fun other member => ?_⟩
    rcases List.mem_append.mp member with before | isNew
    · exact within.externals other before
    · rw [List.mem_singleton.mp isNew]
      exact held

/-- The names and types of uniforms are those of the large program. -/
theorem typed (within : Within small large) {pair : String × ValueType}
    (member : pair ∈ small.externals.map fun uniform => (uniform.name, uniform.type)) :
    pair ∈ large.externals.map fun uniform => (uniform.name, uniform.type) := by
  obtain ⟨uniform, uniformMember, rfl⟩ := List.mem_map.mp member
  obtain ⟨held, heldMember, sameName, sameType⟩ := within.externals uniform uniformMember
  exact List.mem_map.mpr ⟨held, heldMember, Prod.ext sameName sameType⟩

end Within

/-- No call is there twice, whatever the priorities. -/
theorem Tracked.nodup_unranked {path : List Key} {program : Program}
    (tracked : program.Tracked path) : (program.calls.map Call.unranked).Nodup := by
  apply List.Nodup.of_map Call.key
  rw [List.map_map]
  exact tracked.calledOnce

/-- No uniform is there twice with one type. -/
theorem Tracked.nodup_typed {path : List Key} {program : Program}
    (tracked : program.Tracked path) :
    (program.externals.map fun uniform => (uniform.name, uniform.type)).Nodup := by
  apply List.Nodup.of_map Prod.fst
  rw [List.map_map]
  exact tracked.externalsDistinct

end Program

namespace Emission

variable {graph : Graph} {large : Program}

/-- The steps ask for blocks of the graph and for what is there. -/
def MetBy (graph : Graph) (large : Program) (places : List Key) (steps : List Step) : Prop :=
  ∀ step ∈ steps, step.Met large places ∧
    ∀ block phase priority, step = .demand block phase priority →
      graph.find? block.index = some block

/-- What is in place among some calls is in place among more. -/
theorem MetBy.mono {places more : List Key} {steps : List Step}
    (met : MetBy graph large places steps) (subset : places ⊆ more) :
    MetBy graph large more steps :=
  fun step member => ⟨(met step member).1.mono (.refl large) subset, (met step member).2⟩

/-- What is asked for in front of a call of a block is in place, whatever the priority. -/
theorem metBy_preparation (placed : graph.Placed large)
    {before after : List Call} {call : Call} (split : large.calls = before ++ call :: after)
    {block : Block} (found : graph.find? block.index = some block) {phase : Phase}
    (place : call.key = (block.index, phase)) (priority : Priority) :
    MetBy graph large (before.map Call.key) (graph.preparation block phase priority) := by
  obtain ⟨owner, rank, ownerFound, isCall, met⟩ := placed before call after split
  have ownerPlace : call.key = (owner.index, call.phase) := by
    rw [isCall]
    rfl
  obtain ⟨sameIndex, samePhase⟩ := Prod.mk.inj (ownerPlace.symm.trans place)
  have sameBlock : owner = block := by
    rw [sameIndex, found] at ownerFound
    exact (Option.some.inj ownerFound).symm
  subst sameBlock
  subst samePhase
  intro step member
  refine ⟨Graph.met_preparation met priority step member, ?_⟩
  intro producer asked askedPriority isDemand
  exact Graph.find?_of_demand_mem (isDemand ▸ member)

/-- What is asked for in front of a called block is in place. -/
theorem exists_metBy_preparation (tracked : large.Tracked []) (placed : graph.Placed large)
    {front : List Call} (inFront : front <+: large.calls) {block : Block} {phase : Phase}
    (found : graph.find? block.index = some block)
    (called : (block.index, phase) ∈ front.map Call.key) (priority : Priority) :
    ∃ before, before <+: front ∧ (block.index, phase) ∉ before.map Call.key ∧
      MetBy graph large (before.map Call.key) (graph.preparation block phase priority) := by
  obtain ⟨call, member, place⟩ := List.mem_map.mp called
  obtain ⟨before, between, rfl⟩ := List.append_of_mem member
  obtain ⟨behind, split⟩ := inFront
  rw [List.append_assoc, List.cons_append] at split
  refine ⟨before, List.prefix_append _ _, ?_,
    metBy_preparation placed split.symm found place priority⟩
  have once : (before.map Call.key ++ call.key :: (between ++ behind).map Call.key).Nodup := by
    have calledOnce := tracked.calledOnce
    rw [keys, ← split, List.map_append, List.map_cons] at calledOnce
    exact calledOnce
  intro early
  rw [← place] at early
  exact List.disjoint_of_nodup_append once early List.mem_cons_self

/-- Steps that ask for what is in a program add nothing that is not in it. -/
theorem Follows.within (tracked : large.Tracked []) (placed : graph.Placed large)
    {path : List Key} {steps : List Step} {program last : Program}
    (follows : Follows graph path steps program last)
    (met : MetBy graph large large.keys steps) (before : program.Within large) :
    last.Within large := by
  induction follows with
  | done => exact before
  | held outside included next ih => exact ih (List.forall_mem_cons.mp met).2 before
  | @enter path block phase priority rest program middle last outside fresh inner next innerIh ih =>
    obtain ⟨⟨called, isFound⟩, later⟩ := List.forall_mem_cons.mp met
    have found := isFound block phase priority rfl
    obtain ⟨front, inFront, -, prepared⟩ :=
      exists_metBy_preparation tracked placed List.prefix_rfl found called priority
    have everywhere : MetBy graph large large.keys (graph.preparation block phase priority) :=
      prepared.mono (List.map_subset _ inFront.subset)
    exact ih later ((innerIh everywhere (before.markIncluded _)).addCall called)
  | declare declared next ih =>
    obtain ⟨⟨held, -⟩, later⟩ := List.forall_mem_cons.mp met
    exact ih later (before.declare held declared)
  | declareExternal declared next ih =>
    obtain ⟨⟨held, -⟩, later⟩ := List.forall_mem_cons.mp met
    exact ih later (before.declareExternal held declared)

/-- Steps that ask for what is in the front part of a program do not fail, as long as no block
on the path is called there. -/
theorem Fails.elim_within (tracked : large.Tracked []) (placed : graph.Placed large)
    {path : List Key} {steps : List Step} {program left : Program} {error : GraphError}
    (fails : Fails graph path steps program error left) {front : List Call}
    (inFront : front <+: large.calls) (met : MetBy graph large (front.map Call.key) steps)
    (apart : ∀ key ∈ path, key ∉ front.map Call.key) (before : program.Within large) : False := by
  induction fails generalizing front with
  | cycle inside =>
    obtain ⟨⟨called, -⟩, -⟩ := List.forall_mem_cons.mp met
    exact apart _ inside called
  | @enter path block phase priority rest program left error outside fresh inner ih =>
    obtain ⟨⟨called, isFound⟩, -⟩ := List.forall_mem_cons.mp met
    obtain ⟨earlier, isEarlier, notEarlier, prepared⟩ := exists_metBy_preparation tracked placed
      inFront (isFound block phase priority rfl) called priority
    -- The front moves before the call, and the block joins the path.
    refine ih (isEarlier.trans inFront) prepared (fun key member early => ?_)
      (before.markIncluded _)
    rcases List.mem_cons.mp member with same | inPath
    · exact notEarlier (same ▸ early)
    · exact apart key inPath (List.map_subset _ isEarlier.subset early)
  | declare refused =>
    obtain ⟨⟨held, -⟩, -⟩ := List.forall_mem_cons.mp met
    obtain ⟨other, otherHeld, different, -⟩ := declare_eq_error refused
    exact different (tracked.type_eq_of_mem_locals (before.locals otherHeld) held)
  | declareExternal refused =>
    obtain ⟨⟨⟨held, member, sameName, sameType⟩, -⟩, -⟩ := List.forall_mem_cons.mp met
    obtain ⟨other, otherMember, otherName, different, -⟩ := declareExternal_eq_error refused
    obtain ⟨kept, keptMember, keptName, keptType⟩ := before.externals other otherMember
    have oneType : kept.type = held.type := tracked.type_eq_of_mem_externals keptMember member
      (keptName.trans (otherName.trans sameName.symm))
    exact different (keptType.symm.trans (oneType.trans sameType))
  | fail =>
    obtain ⟨⟨impossible, -⟩, -⟩ := List.forall_mem_cons.mp met
    exact impossible
  | @later path step rest program middle left error first next ih =>
    obtain ⟨here, later⟩ := List.forall_mem_cons.mp met
    have single : MetBy graph large (front.map Call.key) [step] :=
      List.forall_mem_singleton.mpr here
    have everywhere : MetBy graph large large.keys [step] :=
      single.mono (List.map_subset _ inFront.subset)
    exact ih inFront later apart (first.within tracked placed everywhere before)

end Emission

namespace Graph

/-- Every call of a program with placed calls is the call of a block of the graph. -/
theorem Placed.isBlockCall {graph : Graph} {program : Program} (placed : graph.Placed program)
    {call : Call} (member : call ∈ program.calls) :
    ∃ block priority, graph.find? block.index = some block ∧
      call = graph.blockCall block call.phase priority := by
  obtain ⟨before, after, split⟩ := List.append_of_mem member
  obtain ⟨block, priority, found, isCall, -⟩ := placed before call after split
  exact ⟨block, priority, found, isCall⟩

/-- Calls of one block in one phase are the same up to their priority. -/
theorem unranked_eq_of_key_eq {graph : Graph} {program other : Program}
    (placed : graph.Placed program) (otherPlaced : graph.Placed other) {call twin : Call}
    (member : call ∈ program.calls) (twinMember : twin ∈ other.calls)
    (same : twin.key = call.key) : twin.unranked = call.unranked := by
  obtain ⟨block, priority, found, isCall⟩ := placed.isBlockCall member
  obtain ⟨twinBlock, twinPriority, twinFound, isTwin⟩ := otherPlaced.isBlockCall twinMember
  have samePhase : twin.phase = call.phase := congrArg Prod.snd same
  have sameIndex : twinBlock.index = block.index := by
    have origins : twin.origin = call.origin := congrArg Prod.fst same
    rw [isCall, isTwin] at origins
    exact origins
  have sameBlock : twinBlock = block := by
    rw [sameIndex, found] at twinFound
    exact (Option.some.inj twinFound).symm
  rw [isCall, isTwin, sameBlock, samePhase]
  rfl

/-- A call in one program has its counterpart in another that calls the same blocks. -/
theorem unranked_mem_of_keys_subset {graph : Graph} {program other : Program}
    (placed : graph.Placed program) (otherPlaced : graph.Placed other)
    (subset : program.keys ⊆ other.keys) {call : Call}
    (member : call ∈ program.calls.map Call.unranked) :
    call ∈ other.calls.map Call.unranked := by
  obtain ⟨ranked, rankedMember, rfl⟩ := List.mem_map.mp member
  obtain ⟨twin, twinMember, same⟩ := List.mem_map.mp (subset (List.mem_map_of_mem rankedMember))
  exact List.mem_map.mpr
    ⟨twin, twinMember, unranked_eq_of_key_eq placed otherPlaced rankedMember twinMember same⟩

/-- Programs within each other hold the same. -/
theorem sameContent_of_within {graph : Graph} {program other : Program}
    (tracked : program.Tracked []) (placed : graph.Placed program)
    (otherTracked : other.Tracked []) (otherPlaced : graph.Placed other)
    (within : program.Within other) (contains : other.Within program) :
    program.SameContent other where
  included key := by
    rw [Bool.eq_iff_iff, tracked.included, otherTracked.included]
    exact or_congr_right ⟨fun called => within.keys called, fun called => contains.keys called⟩
  calls := by
    have nodup := tracked.nodup_unranked
    have otherNodup := otherTracked.nodup_unranked
    refine (List.perm_ext_iff_of_nodup nodup otherNodup).mpr fun call => ⟨?_, ?_⟩
    · exact unranked_mem_of_keys_subset placed otherPlaced within.keys
    · exact unranked_mem_of_keys_subset otherPlaced placed contains.keys
  locals phase := by
    have nodup := tracked.localsDistinct.of_map
    have otherNodup := otherTracked.localsDistinct.of_map
    have sameLocals : program.locals.Perm other.locals :=
      (List.perm_ext_iff_of_nodup nodup otherNodup).mpr fun cell =>
        ⟨fun held => within.locals held, fun held => contains.locals held⟩
    exact sameLocals.filter _
  externals := by
    have nodup := tracked.nodup_typed
    have otherNodup := otherTracked.nodup_typed
    exact (List.perm_ext_iff_of_nodup nodup otherNodup).mpr fun pair =>
      ⟨fun held => within.typed held, fun held => contains.typed held⟩

/-- What compiling some materials into a program comes to. -/
structure Shared (graph : Graph) (materials : List Block) (program : Program) : Prop where
  /-- Blocks and names are kept track of. -/
  tracked : program.Tracked []
  /-- Every call is the call of a block, behind all that it needs. -/
  placed : graph.Placed program
  /-- The materials are sinks. -/
  sinks : ∀ material ∈ materials, material.checkSink = .ok ()
  /-- The materials are called in every phase. -/
  rooted : ∀ material ∈ materials, ∀ phase, (material.index, phase) ∈ program.keys

/-- Compiling some materials is compiling the first and then the others. -/
theorem compileAll_cons_eq_ok {graph : Graph} {material : Block} {rest : List Block}
    {program last : Program} :
    graph.compileAll (material :: rest) program = .ok last ↔
      ∃ middle, material.compileInto graph program = .ok middle ∧
        graph.compileAll rest middle = .ok last := by
  simp only [compileAll, List.foldlM_cons, bind, Except.bind]
  cases material.compileInto graph program with
  | error error => simp
  | ok middle => simp

/-- Materials that could be compiled into a program share it. -/
theorem shared_of_compileAll {graph : Graph} {materials : List Block} {program last : Program}
    (found : ∀ material ∈ materials, graph.find? material.index = some material)
    (tracked : program.Tracked []) (placed : graph.Placed program)
    (compiled : graph.compileAll materials program = .ok last) :
    program.Extends last ∧ graph.Shared materials last := by
  induction materials generalizing program with
  | nil =>
    cases compiled
    exact ⟨.refl _, tracked, placed, by simp, by simp⟩
  | cons material rest ih =>
    obtain ⟨middle, put, others⟩ := compileAll_cons_eq_ok.mp compiled
    obtain ⟨materialFound, restFound⟩ := List.forall_mem_cons.mp found
    obtain ⟨sink, follows⟩ := follows_of_compileInto put
    have middlePlaced : graph.Placed middle := by
      refine follows.placed tracked (fun step member block phase priority isDemand => ?_) placed
      obtain ⟨root, isRoot⟩ := mem_roots.mp member
      cases isRoot.symm.trans isDemand
      exact materialFound
    obtain ⟨extension, shared⟩ := ih restFound (follows.tracked tracked) middlePlaced others
    refine ⟨follows.extension.trans extension, shared.tracked, shared.placed,
      List.forall_mem_cons.mpr ⟨sink, shared.sinks⟩,
      List.forall_mem_cons.mpr ⟨fun phase => ?_, shared.rooted⟩⟩
    have called := follows.met tracked (.demand material phase 0) (mem_roots.mpr ⟨phase, rfl⟩)
    exact extension.keys_subset called

/-- Materials that share a program can be compiled in any order, and then add nothing else. -/
theorem Shared.compileAll {graph : Graph} {materials others : List Block} {large : Program}
    (shared : graph.Shared materials large) (among : others ⊆ materials)
    (found : ∀ material ∈ others, graph.find? material.index = some material)
    {program : Program} (within : program.Within large) :
    ∃ last, graph.compileAll others program = .ok last ∧ last.Within large := by
  induction others generalizing program with
  | nil => exact ⟨program, rfl, within⟩
  | cons material rest ih =>
    obtain ⟨here, restAmong⟩ := List.cons_subset.mp among
    obtain ⟨materialFound, restFound⟩ := List.forall_mem_cons.mp found
    have met : MetBy graph large large.keys (roots material) := by
      intro step member
      obtain ⟨phase, rfl⟩ := mem_roots.mp member
      refine ⟨shared.rooted material here phase, fun block asked priority same => ?_⟩
      cases same
      exact materialFound
    cases put : material.compileInto graph program with
    | error error =>
      rcases fails_of_compileInto put with noSink | ⟨-, left, fails⟩
      · rw [shared.sinks material here] at noSink
        contradiction
      · exact (fails.elim_within shared.tracked shared.placed List.prefix_rfl met (by simp)
          within).elim
    | ok middle =>
      have middleWithin : middle.Within large :=
        (follows_of_compileInto put).2.within shared.tracked shared.placed met within
      obtain ⟨last, others, lastWithin⟩ := ih restAmong restFound middleWithin
      exact ⟨last, compileAll_cons_eq_ok.mpr ⟨middle, put, others⟩, lastWithin⟩

/-- Some materials compiled into one program, in two orders: either order succeeds if the other
does, with the same content. -/
theorem compileAll_of_subset {graph : Graph} {materials others : List Block} {program : Program}
    (found : ∀ material ∈ materials, graph.find? material.index = some material)
    (subset : materials ⊆ others) (superset : others ⊆ materials)
    (compiled : graph.compileAll materials .empty = .ok program) :
    ∃ other, graph.compileAll others .empty = .ok other ∧ program.SameContent other := by
  have emptyPlaced : graph.Placed .empty := by
    intro before call after split
    simp [Program.empty] at split
  have otherFound : ∀ material ∈ others, graph.find? material.index = some material :=
    fun material member => found material (superset member)
  obtain ⟨-, shared⟩ := shared_of_compileAll found .empty emptyPlaced compiled
  obtain ⟨other, otherCompiled, contains⟩ := shared.compileAll superset otherFound (.empty _)
  obtain ⟨-, otherShared⟩ := shared_of_compileAll otherFound .empty emptyPlaced otherCompiled
  obtain ⟨again, againCompiled, within⟩ := otherShared.compileAll subset found (.empty _)
  rw [compiled] at againCompiled
  cases againCompiled
  exact ⟨other, otherCompiled, sameContent_of_within shared.tracked shared.placed
    otherShared.tracked otherShared.placed within contains⟩

end Graph

namespace Sample

/-- The surface of the sample. -/
def near : Block :=
  surface (some height) (some scaled)

/-- A second surface, with its inputs fed the other way round. -/
def far : Block :=
  { surface (some scaled) (some height) with
    index := 4
    node := ⟨some 4, (surface (some scaled) (some height)).outlets⟩
    owned := rfl }

/-- The sample with the second surface. -/
def pair : Graph :=
  graph.insert far

end Sample

namespace Graph

/-- Two materials of a graph can be compiled into one program in one order exactly when they
can be in the other, and the two programs then hold the same: they remember the same blocks,
make the same calls up to order and priority, and declare the same variables in each phase and
the same uniforms. -/
theorem compileAll_swap {graph : Graph} {first second : Block}
    (firstFound : graph.find? first.index = some first)
    (secondFound : graph.find? second.index = some second) :
    ((∃ program, graph.compileAll [first, second] .empty = .ok program) ↔
      ∃ program, graph.compileAll [second, first] .empty = .ok program) ∧
    ∀ program other, graph.compileAll [first, second] .empty = .ok program →
      graph.compileAll [second, first] .empty = .ok other → program.SameContent other := by
  have found : ∀ material ∈ [first, second], graph.find? material.index = some material := by
    simp [firstFound, secondFound]
  have swapped : [first, second] ⊆ [second, first] := (List.Perm.swap second first []).subset
  have back : [second, first] ⊆ [first, second] := (List.Perm.swap first second []).subset
  have backFound : ∀ material ∈ [second, first], graph.find? material.index = some material :=
    fun material member => found material (back member)
  refine ⟨⟨?_, ?_⟩, ?_⟩
  · rintro ⟨program, compiled⟩
    obtain ⟨other, otherCompiled, -⟩ := compileAll_of_subset found swapped back compiled
    exact ⟨other, otherCompiled⟩
  · rintro ⟨program, compiled⟩
    obtain ⟨other, otherCompiled, -⟩ := compileAll_of_subset backFound back swapped compiled
    exact ⟨other, otherCompiled⟩
  · intro program other compiled otherCompiled
    obtain ⟨result, isResult, same⟩ := compileAll_of_subset found swapped back compiled
    rw [otherCompiled] at isResult
    cases isResult
    exact same

/-- The surface of the sample and a second one share the wave and the scaling. The second one
reads the wave through the scaling first, so the wave is called with another priority when the
second one is compiled before the first, and the calls stand in another order. -/
theorem compileAll_swap_sample :
    ∃ program other,
      Sample.pair.compileAll [Sample.near, Sample.far] .empty = .ok program ∧
      Sample.pair.compileAll [Sample.far, Sample.near] .empty = .ok other ∧
      program.calls.map (fun call => (call.key, call.priority)) =
        [((1, .vertex), 1), ((3, .vertex), 0), ((1, .fragment), 1), ((2, .fragment), 1),
          ((3, .fragment), 0), ((2, .vertex), 1), ((4, .vertex), 0), ((4, .fragment), 0)] ∧
      other.calls.map (fun call => (call.key, call.priority)) =
        [((1, .vertex), 2), ((2, .vertex), 1), ((4, .vertex), 0), ((1, .fragment), 2),
          ((2, .fragment), 1), ((4, .fragment), 0), ((3, .vertex), 0), ((3, .fragment), 0)] ∧
      program.SameContent other := by
  obtain ⟨exchange, same⟩ := @compileAll_swap Sample.pair Sample.near Sample.far rfl rfl
  have compiled : ∃ program, Sample.pair.compileAll [Sample.near, Sample.far] .empty =
      .ok program := ⟨_, rfl⟩
  obtain ⟨other, otherCompiled⟩ := exchange.mp compiled
  obtain ⟨program, compiled⟩ := compiled
  refine ⟨program, other, compiled, otherCompiled, ?_, ?_, same program other compiled
    otherCompiled⟩
  · cases compiled
    rfl
  · cases otherCompiled
    rfl

end Graph

end ShaderBlocks
