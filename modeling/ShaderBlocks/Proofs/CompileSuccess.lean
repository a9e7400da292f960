import ShaderBlocks.Proofs.CallArguments

/-!
# When a block compiles

Emission checks nothing up front: it finds a missing link, a cycle or a clash of types in
the middle of its work, and it never looks twice at a block in a phase. Still it succeeds
exactly when there is nothing to find. A failure always has a reason among the blocks that
are needed: while a block is entered, everything on the path needs it, and whatever the
program declares was passed or left outside by a needed block. Conversely the order of the
calls rules out cycles, and a program that declares every name once has no clash.
-/

namespace ShaderBlocks

open Emission

/-- A block is a sink exactly when it is a material without outputs. -/
theorem Block.checkSink_eq_ok {block : Block} :
    block.checkSink = .ok () ↔
      block.isMaterial = true ∧ ∀ outlet ∈ block.outlets, outlet.direction ≠ .output := by
  have noOutputs : block.node.outputCount = 0 ↔
      ∀ outlet ∈ block.outlets, outlet.direction ≠ .output := by
    simp [Node.outputCount, Block.outlets, List.countP_eq_zero]
  rw [← noOutputs, Block.checkSink]
  cases block.isMaterial with
  | false => simp
  | true =>
    by_cases none : block.node.outputCount = 0
    · simp [none]
    · simp [none]

namespace Graph

/-- A needed block in a phase passes a variable at a type. -/
def PassedAt (graph : Graph) (material : BlockIndex) (phase : Phase) (name : String)
    (type : ValueType) : Prop :=
  ∃ block, graph.find? block.index = some block ∧ graph.Needed material (block.index, phase) ∧
    graph.Passes block phase name type

/-- A needed block in some phase has a uniform that is not linked. -/
def LeftOutside (graph : Graph) (material : BlockIndex) (uniform : Uniform) : Prop :=
  ∃ block phase, graph.find? block.index = some block ∧
    graph.Needed material (block.index, phase) ∧ block.LeavesOutside phase uniform

/-- Nothing stands in the way of compiling a block. -/
structure Compilable (graph : Graph) (block : Block) : Prop where
  /-- The block is a material. -/
  material : block.isMaterial = true
  /-- The block has no outputs. -/
  sink : ∀ outlet ∈ block.outlets, outlet.direction ≠ .output
  /-- Every input parameter of a needed block is fed. -/
  fed : ∀ needed phase, graph.find? needed.index = some needed →
    graph.Needed block.index (needed.index, phase) →
    ∀ parameter ∈ (needed.fragmentFor phase).parameters, parameter.direction = .input →
      ∃ feed, needed.feed? parameter.name = some feed
  /-- No needed block needs itself. -/
  acyclic : ∀ key, graph.Needed block.index key → ¬Relation.TransGen graph.Needs key key
  /-- In a phase a variable is passed at one type. -/
  typed : ∀ phase name first second, graph.PassedAt block.index phase name first →
    graph.PassedAt block.index phase name second → first = second
  /-- Uniforms of one name that are not linked have one type, in whatever phases. -/
  uniformsTyped : ∀ first second, graph.LeftOutside block.index first →
    graph.LeftOutside block.index second → first.name = second.name → first.type = second.type

/-- What emission can rightly complain about when it compiles a block. -/
inductive Flaw (graph : Graph) (material : BlockIndex) : GraphError → Prop
  | cycle {index : BlockIndex} {phase : Phase} (needed : graph.Needed material (index, phase))
      (loop : Relation.TransGen graph.Needs (index, phase) (index, phase)) :
      Flaw graph material (.cycle index phase)
  | missing {block : Block} {phase : Phase} {parameter : Parameter} {outlet : Outlet}
      (found : graph.find? block.index = some block)
      (needed : graph.Needed material (block.index, phase))
      (member : parameter ∈ (block.fragmentFor phase).parameters)
      (way : parameter.direction = .input)
      (outletFound : block.outlet? parameter.name = some outlet) (unfed : outlet.feed = none) :
      Flaw graph material (.missingConnection block.index parameter.name outlet.name)
  | types {phase : Phase} {name : String} {first second : ValueType}
      (passed : graph.PassedAt material phase name first)
      (again : graph.PassedAt material phase name second) (clash : first ≠ second) :
      Flaw graph material (.typeMismatch (.phase phase) name first second)
  | uniformTypes {first second : Uniform} (outside : graph.LeftOutside material first)
      (again : graph.LeftOutside material second) (same : first.name = second.name)
      (clash : first.type ≠ second.type) :
      Flaw graph material (.typeMismatch .externals second.name first.type second.type)

/-- A block that can be compiled has no flaw. -/
theorem Compilable.not_flaw {graph : Graph} {block : Block} (compilable : graph.Compilable block)
    {error : GraphError} : ¬graph.Flaw block.index error := by
  intro flaw
  cases flaw with
  | cycle needed loop => exact compilable.acyclic _ needed loop
  | missing found needed member way outletFound unfed =>
    obtain ⟨feed, fed⟩ := compilable.fed _ _ found needed _ member way
    rw [Block.feed?, outletFound, Option.bind_some, unfed] at fed
    contradiction
  | types passed again clash => exact clash (compilable.typed _ _ _ _ passed again)
  | uniformTypes outside again same clash =>
    exact clash (compilable.uniformsTyped _ _ outside again same)

/-- A step that emission takes under a path for a good reason. -/
def Justified (graph : Graph) (material : BlockIndex) (path : List Key) : Step → Prop
  | .demand block phase _ => graph.find? block.index = some block ∧
      graph.Needed material (block.index, phase) ∧
      ∀ held ∈ path, Relation.TransGen graph.Needs held (block.index, phase)
  | .declare phase name type => graph.PassedAt material phase name type
  | .declareExternal uniform => graph.LeftOutside material uniform
  | .fail error => graph.Flaw material error
  | .add _ => True

/-- Everything that a program declares was passed or left outside by a needed block. -/
structure Accounted (graph : Graph) (material : BlockIndex) (program : Program) : Prop where
  /-- Variables are passed. -/
  locals : ∀ cell ∈ program.locals, graph.PassedAt material cell.phase cell.name cell.type
  /-- Uniforms are left outside. -/
  externals : ∀ uniform ∈ program.externals, graph.LeftOutside material uniform

/-- Preparing a needed block asks for other blocks for a good reason. -/
theorem justified_of_demand_mem {graph : Graph} {material : BlockIndex} {path : List Key}
    {block producer : Block} {phase asked : Phase} {priority rank : Priority}
    (found : graph.find? block.index = some block)
    (needed : graph.Needed material (block.index, phase))
    (reached : ∀ held ∈ path, Relation.TransGen graph.Needs held (block.index, phase))
    (member : .demand producer asked rank ∈ graph.preparation block phase priority) :
    graph.Justified material ((block.index, phase) :: path) (.demand producer asked rank) := by
  have needs := needs_of_demand_mem found member
  refine ⟨find?_of_demand_mem member, needed.step needs, fun held inPath => ?_⟩
  rcases List.mem_cons.mp inPath with rfl | below
  · exact .single needs
  · exact (reached held below).tail needs

/-- In a lawful graph whose links lead from outputs, preparing a needed block is justified:
nothing can be missing but a link to an input parameter. -/
theorem justified_preparation {graph : Graph} (lawful : graph.Lawful) (linked : graph.Linked)
    {material : BlockIndex} {path : List Key} {block : Block} {phase : Phase} (priority : Priority)
    (found : graph.find? block.index = some block)
    (needed : graph.Needed material (block.index, phase))
    (reached : ∀ held ∈ path, Relation.TransGen graph.Needs held (block.index, phase)) :
    ∀ step ∈ graph.preparation block phase priority,
      graph.Justified material ((block.index, phase) :: path) step := by
  have blockMember := (find?_eq_some.mp found).1
  intro step member
  cases step with
  | demand producer asked rank => exact justified_of_demand_mem found needed reached member
  | declare scope name type =>
    obtain ⟨rfl, passes⟩ := declare_mem_preparation.mp member
    exact ⟨block, found, needed, passes⟩
  | declareExternal uniform =>
    exact ⟨block, phase, found, needed, declareExternal_mem_preparation.mp member⟩
  | fail error =>
    cases slotFor_broken_of_fail_mem member with
    | unknown described absent =>
      obtain ⟨outlet, outletFound, -⟩ := (lawful block blockMember).outlet?_of_described described
      rw [absent] at outletFound
      contradiction
    | missing inParameters way outletFound unfed =>
      exact .missing found needed inParameters way outletFound unfed
    | unresolved described fed failed =>
      obtain ⟨outlet, outletFound, isFeed⟩ := Option.bind_eq_some_iff.mp fed
      obtain ⟨producer, source, resolved, -⟩ :=
        linked block blockMember outlet (Block.mem_of_outlet? outletFound).1 _ isFeed
      rw [failed] at resolved
      contradiction
  | add call => trivial

namespace Accounted

/-- Remembering a block declares nothing. -/
theorem markIncluded {graph : Graph} {material : BlockIndex} {program : Program}
    (accounted : graph.Accounted material program) (key : Key) :
    graph.Accounted material (program.markIncluded key) := by
  obtain ⟨-, -, locals, externals⟩ := program.markIncluded_keys key
  exact ⟨locals ▸ accounted.locals, externals ▸ accounted.externals⟩

/-- A variable that is passed may be declared. -/
theorem declare {graph : Graph} {material : BlockIndex} {program after : Program} {phase : Phase}
    {name : String} {type : ValueType} (accounted : graph.Accounted material program)
    (passed : graph.PassedAt material phase name type)
    (declared : program.declare phase name type = .ok after) :
    graph.Accounted material after := by
  rcases Program.declare_eq_ok declared with ⟨rfl, -⟩ | ⟨rfl, -⟩
  · exact accounted
  · refine ⟨fun cell member => ?_, accounted.externals⟩
    rcases List.mem_append.mp member with held | isNew
    · exact accounted.locals cell held
    · rw [List.mem_singleton.mp isNew]
      exact passed

/-- A uniform that is left outside may be declared. -/
theorem declareExternal {graph : Graph} {material : BlockIndex} {program after : Program}
    {uniform : Uniform} (accounted : graph.Accounted material program)
    (outside : graph.LeftOutside material uniform)
    (declared : program.declareExternal uniform = .ok after) :
    graph.Accounted material after := by
  rcases Program.declareExternal_eq_ok declared with ⟨rfl, -⟩ | ⟨rfl, -⟩
  · exact accounted
  · refine ⟨accounted.locals, fun other member => ?_⟩
    rcases List.mem_append.mp member with held | isNew
    · exact accounted.externals other held
    · rw [List.mem_singleton.mp isNew]
      exact outside

end Accounted

/-- Justified steps that succeed declare only what is passed or left outside. -/
theorem accounted_of_follows {graph : Graph} (lawful : graph.Lawful) (linked : graph.Linked)
    {material : BlockIndex} {path : List Key} {steps : List Step} {program last : Program}
    (follows : Follows graph path steps program last)
    (justified : ∀ step ∈ steps, graph.Justified material path step)
    (accounted : graph.Accounted material program) : graph.Accounted material last := by
  induction follows with
  | done => exact accounted
  | held outside included next ih => exact ih (List.forall_mem_cons.mp justified).2 accounted
  | @enter path block phase priority rest program middle last outside fresh inner next innerIh ih =>
    obtain ⟨⟨found, needed, reached⟩, later⟩ := List.forall_mem_cons.mp justified
    have prepared := innerIh (justified_preparation lawful linked priority found needed reached)
      (accounted.markIncluded (block.index, phase))
    exact ih later ⟨prepared.locals, prepared.externals⟩
  | declare declared next ih =>
    obtain ⟨passed, later⟩ := List.forall_mem_cons.mp justified
    exact ih later (accounted.declare passed declared)
  | declareExternal declared next ih =>
    obtain ⟨outside, later⟩ := List.forall_mem_cons.mp justified
    exact ih later (accounted.declareExternal outside declared)

/-- Justified steps fail only because of a flaw. -/
theorem flaw_of_fails {graph : Graph} (lawful : graph.Lawful) (linked : graph.Linked)
    {material : BlockIndex} {path : List Key} {steps : List Step} {program left : Program}
    {error : GraphError} (fails : Fails graph path steps program error left)
    (justified : ∀ step ∈ steps, graph.Justified material path step)
    (accounted : graph.Accounted material program) : graph.Flaw material error := by
  induction fails with
  | cycle inside =>
    obtain ⟨-, needed, reached⟩ := justified _ List.mem_cons_self
    exact .cycle needed (reached _ inside)
  | @enter path block phase priority rest program left error outside fresh inner ih =>
    obtain ⟨found, needed, reached⟩ := justified _ List.mem_cons_self
    exact ih (justified_preparation lawful linked priority found needed reached)
      (accounted.markIncluded (block.index, phase))
  | declare refused =>
    obtain ⟨held, member, clash, rfl⟩ := Program.declare_eq_error refused
    exact .types (accounted.locals _ member) (justified _ List.mem_cons_self) clash
  | declareExternal refused =>
    obtain ⟨held, member, same, clash, rfl⟩ := Program.declareExternal_eq_error refused
    exact .uniformTypes (accounted.externals held member) (justified _ List.mem_cons_self) same
      clash
  | fail => exact justified _ List.mem_cons_self
  | later first next ih =>
    obtain ⟨justifiedFirst, justifiedRest⟩ := List.forall_mem_cons.mp justified
    exact ih justifiedRest (accounted_of_follows lawful linked first
      (by simpa using justifiedFirst) accounted)

/-- A block of a lawful graph whose links lead from outputs fails to compile only if it is no
sink or because of a flaw. -/
theorem flaw_of_compile {graph : Graph} (lawful : graph.Lawful) (linked : graph.Linked)
    {block : Block} {error : GraphError} (found : graph.find? block.index = some block)
    (failed : graph.compile block.index = .error error) :
    block.checkSink = .error error ∨ graph.Flaw block.index error := by
  rcases fails_of_compile found failed with noSink | ⟨-, left, fails⟩
  · exact .inl noSink
  · refine .inr (flaw_of_fails lawful linked fails (fun step member => ?_) ⟨?_, ?_⟩)
    · obtain ⟨phase, rfl⟩ := mem_roots.mp member
      exact ⟨found, .root phase, by simp⟩
    · simp [Program.empty]
    · simp [Program.empty]

namespace Emitted

variable {graph : Graph} {material : BlockIndex} {program : Program}

/-- What a call needs, directly or not, is called before it. -/
theorem producer_mem_of_transGen (emitted : graph.Emitted material program)
    (lawful : graph.Lawful) {before after : List Call}
    {call : Call} {producer : Key} (split : program.calls = before ++ call :: after)
    (needs : Relation.TransGen graph.Needs call.key producer) :
    producer ∈ before.map Call.key := by
  induction needs with
  | single needs => exact emitted.producer_mem lawful split needs
  | tail _ needs ih =>
    -- The call in between stands before, and what it needs stands before that.
    obtain ⟨middle, member, rfl⟩ := List.mem_map.mp ih
    obtain ⟨early, between, rfl⟩ := List.append_of_mem member
    have middleSplit : program.calls = early ++ middle :: (between ++ call :: after) := by
      rw [split, List.append_assoc, List.cons_append]
    have called := emitted.producer_mem lawful middleSplit needs
    rw [List.map_append]
    exact List.mem_append_left _ called

/-- No block that is called needs itself. -/
theorem acyclic (emitted : graph.Emitted material program) (lawful : graph.Lawful) {key : Key}
    (needed : graph.Needed material key) : ¬Relation.TransGen graph.Needs key key := by
  intro loop
  obtain ⟨call, member, rfl⟩ := List.mem_map.mp ((emitted.mem_keys lawful).mpr needed)
  obtain ⟨before, after, split⟩ := List.append_of_mem member
  have calledBefore := emitted.producer_mem_of_transGen lawful split loop
  have distinct := emitted.tracked.calledOnce
  rw [Program.keys, split, List.map_append, List.nodup_append] at distinct
  exact distinct.2.2 _ calledBefore _ (List.mem_map_of_mem List.mem_cons_self) rfl

/-- The preparation of a needed block is met in the whole program. -/
theorem preparation_met (emitted : graph.Emitted material program)
    (lawful : graph.Lawful) {block : Block}
    {phase : Phase} (found : graph.find? block.index = some block)
    (needed : graph.Needed material (block.index, phase)) :
    ∃ priority, ∀ step ∈ graph.preparation block phase priority,
      step.Met program program.keys := by
  obtain ⟨call, member, place⟩ := List.mem_map.mp ((emitted.mem_keys lawful).mpr needed)
  obtain ⟨before, after, split⟩ := List.append_of_mem member
  obtain ⟨other, priority, otherFound, isCall, met, -⟩ := emitted.block_of_call split
  have placeOther : call.key = (other.index, call.phase) := congrArg Call.key isCall
  obtain ⟨sameIndex, samePhase⟩ := Prod.mk.inj (placeOther.symm.trans place)
  obtain rfl : other = block := Option.some.inj (otherFound.symm.trans (sameIndex ▸ found))
  rw [samePhase] at met
  refine ⟨priority, fun step stepMember => (met step stepMember).mono (.refl _) ?_⟩
  rw [Program.keys, split, List.map_append]
  exact List.subset_append_left _ _

/-- A variable that a needed block passes is declared. -/
theorem mem_locals (emitted : graph.Emitted material program)
    (lawful : graph.Lawful) {phase : Phase}
    {name : String} {type : ValueType} (passed : graph.PassedAt material phase name type) :
    ⟨phase, name, type⟩ ∈ program.locals := by
  obtain ⟨block, found, needed, passes⟩ := passed
  obtain ⟨priority, met⟩ := emitted.preparation_met lawful found needed
  exact met _ (declare_mem_preparation.mpr ⟨rfl, passes⟩)

/-- A uniform that a needed block leaves outside is declared. -/
theorem mem_externals (emitted : graph.Emitted material program)
    (lawful : graph.Lawful) {uniform : Uniform}
    (outside : graph.LeftOutside material uniform) :
    ∃ held ∈ program.externals, held.name = uniform.name ∧ held.type = uniform.type := by
  obtain ⟨block, phase, found, needed, leaves⟩ := outside
  obtain ⟨priority, met⟩ := emitted.preparation_met lawful found needed
  exact met _ (declareExternal_mem_preparation.mpr leaves)

/-- A material that was emitted could be compiled. -/
theorem compilable {graph : Graph} {block : Block} {program : Program}
    (emitted : graph.Emitted block.index program) (lawful : graph.Lawful)
    (sink : block.checkSink = .ok ()) : graph.Compilable block where
  material := (Block.checkSink_eq_ok.mp sink).1
  sink := (Block.checkSink_eq_ok.mp sink).2
  fed := by
    intro needed phase found isNeeded parameter member way
    obtain ⟨priority, met⟩ := emitted.preparation_met lawful found isNeeded
    have place : ⟨parameter.name, .input⟩ ∈ (needed.callee phase).places :=
      Block.mem_places.mpr (.inl ⟨parameter, member, by rw [way]⟩)
    have passes := isSome_passed (lawful needed (find?_eq_some.mp found).1)
      (fun error failing => met _ failing) place
    obtain ⟨cell, isPassed⟩ := Option.isSome_iff_exists.mp passes
    obtain ⟨feed, -, -, isFeed, -⟩ := passed_input.mp isPassed
    exact ⟨feed, isFeed⟩
  acyclic := fun _ => emitted.acyclic lawful
  typed := by
    intro phase name first second passed again
    exact emitted.tracked.type_eq_of_mem_locals (emitted.mem_locals lawful passed)
      (emitted.mem_locals lawful again)
  uniformsTyped := by
    intro first second outside again same
    obtain ⟨held, member, heldName, heldType⟩ := emitted.mem_externals lawful outside
    obtain ⟨other, otherMember, otherName, otherType⟩ := emitted.mem_externals lawful again
    rw [← heldType, ← otherType]
    exact emitted.tracked.type_eq_of_mem_externals member otherMember
      (heldName.trans (same.trans otherName.symm))

end Emitted

/-- A block of a built graph compiles exactly when it is a material without outputs, every
input parameter of a needed block is fed, no needed block needs itself, and no two needed
blocks disagree about the type of a variable in a phase or of a uniform that is fed from
outside. It never fails because an outlet or a block is not there. -/
theorem compile_isOk_iff {graph : Graph} {block : Block} (built : graph.Built)
    (found : graph.find? block.index = some block) :
    ((∃ compiled, graph.compile block.index = .ok compiled) ↔ graph.Compilable block) ∧
      ∀ error, graph.compile block.index = .error error →
        (∀ owner outlet, error ≠ .unknownOutlet owner outlet) ∧
          ∀ index, error ≠ .unknownBlock index := by
  have lawful := built.lawful
  constructor
  · constructor
    · rintro ⟨compiled, compiles⟩
      obtain ⟨other, program, otherFound, sink, emitted, -⟩ := emitted_of_compile compiles
      obtain rfl := Option.some.inj (otherFound.symm.trans found)
      exact emitted.compilable lawful sink
    · intro compilable
      cases outcome : graph.compile block.index with
      | ok compiled => exact ⟨compiled, rfl⟩
      | error error =>
        rcases flaw_of_compile lawful built.linked found outcome with noSink | flaw
        · rw [Block.checkSink_eq_ok.mpr ⟨compilable.material, compilable.sink⟩] at noSink
          contradiction
        · exact absurd flaw compilable.not_flaw
  · intro error failed
    rcases flaw_of_compile lawful built.linked found failed with noSink | flaw
    · simp only [Block.checkSink] at noSink
      split at noSink
      · cases noSink
        exact ⟨by simp, by simp⟩
      · split at noSink
        · contradiction
        · cases noSink
          exact ⟨by simp, by simp⟩
    · cases flaw <;> exact ⟨by simp, by simp⟩

/-- With all its links the surface of the sample can be compiled, without any it cannot. -/
theorem compile_isOk_iff_sample :
    Sample.graph.Built ∧
      Sample.graph.Compilable (Sample.surface (some Sample.height) (some Sample.scaled)) ∧
      (Sample.graphWith none none none none).Built ∧
      ¬(Sample.graphWith none none none none).Compilable (Sample.surface none none) := by
  obtain ⟨compiled, compiles, -⟩ := Sample.graph_compiles
  refine ⟨Sample.graph_built, ?_, Sample.graphWith_built, fun compilable => ?_⟩
  · exact (compile_isOk_iff Sample.graph_built rfl).1.mp ⟨compiled, compiles⟩
  · obtain ⟨other, succeeds⟩ := (compile_isOk_iff Sample.graphWith_built rfl).1.mpr compilable
    have fails : (Sample.graphWith none none none none).compile 3 =
        .error (.missingConnection 3 "aIn" "aIn") := rfl
    exact absurd (fails.symm.trans succeeds) (by simp)

end Graph

end ShaderBlocks
