import ShaderBlocks.Proofs.Renumbering

/-!
# Emission in lockstep

Two graphs that differ in the numbers of their blocks are put into programs side by side. The
programs correspond at every moment: the blocks they hold, the variables they declare and the calls
they make, one by one, and the uniforms that are fed from outside are the same. So a question put to
the one program has the same answer as its counterpart put to the other, each step succeeds on both
sides or fails on both, and the programs correspond again after it. Only what is left over after a
failure may differ, which no finished program shows.
-/

namespace ShaderBlocks.BuiltGraph

open Emission Relator

/-- Two blocks in a phase are the same but for their numbers. -/
def SameKey (built twin : BuiltGraph) (key other : Key) : Prop :=
  built.SameBlock twin key.1 other.1 ∧ key.2 = other.2

/-- Two variables are the same but for the numbers in their names. -/
structure SameVariable (built twin : BuiltGraph) (held other : Variable) : Prop where
  /-- The phase is the same. -/
  phase : held.phase = other.phase
  /-- The names belong to one outlet. -/
  name : built.SameCell twin held.name other.name
  /-- The type is the same. -/
  type : held.type = other.type

/-- Two programs are the same but for the numbers of their blocks. -/
structure ProgramTwin (built twin : BuiltGraph) (program other : Program) : Prop where
  /-- They hold the same blocks. -/
  included : List.Forall₂ (built.SameKey twin) program.included other.included
  /-- They declare the same variables in the same order. -/
  locals : List.Forall₂ (built.SameVariable twin) program.locals other.locals
  /-- They make the same calls in the same order. -/
  calls : List.Forall₂ (built.SameCall twin) program.calls other.calls
  /-- They are fed the same uniforms in the same order. -/
  externals : program.externals = other.externals

/-- Both pieces of work succeed with programs that correspond, or both fail. -/
inductive OutcomeTwin (built twin : BuiltGraph) :
    EStateM.Result GraphError Program Unit → EStateM.Result GraphError Program Unit → Prop
  | ok {program other : Program} (programs : built.ProgramTwin twin program other) :
      OutcomeTwin built twin (.ok () program) (.ok () other)
  | error {error otherError : GraphError} {left otherLeft : Program} :
      OutcomeTwin built twin (.error error left) (.error otherError otherLeft)

/-- Two ways to put blocks in have corresponding outcomes, for corresponding blocks and programs. -/
def DemandTwin (built twin : BuiltGraph)
    (demand otherDemand : Block → Phase → Priority → Emission Unit) : Prop :=
  ∀ block second phase priority program other, built.BlockTwin twin block second →
    built.ProgramTwin twin program other → OutcomeTwin built twin
      (demand block phase priority program) (otherDemand second phase priority other)

section Lockstep

variable {built twin : BuiltGraph}

namespace Renumbered

variable (alike : built.Renumbered twin)

include alike

/-- Numbers correspond one to one. -/
theorem biUnique_sameBlock : BiUnique (built.SameBlock twin) := by
  constructor
  · rintro index second other ⟨id, numbered, twinNumbered⟩ ⟨secondId, secondNumbered, same⟩
    obtain rfl := alike.twinApart id secondId other twinNumbered same
    exact Option.some.inj (numbered.symm.trans secondNumbered)
  · rintro index other second ⟨id, numbered, twinNumbered⟩ ⟨secondId, same, secondNumbered⟩
    obtain rfl := alike.apart id secondId index numbered same
    exact Option.some.inj (twinNumbered.symm.trans secondNumbered)

/-- Variables correspond one to one. -/
theorem biUnique_sameCell : BiUnique (built.SameCell twin) := by
  constructor
  · rintro cell second other ⟨place, denotes, twinDenotes⟩ ⟨secondPlace, secondDenotes, same⟩
    obtain rfl := twinDenotes.place_eq alike.twinLawful alike.twinApart same
    exact denotes.unique secondDenotes
  · rintro cell other second ⟨place, denotes, twinDenotes⟩ ⟨secondPlace, same, secondDenotes⟩
    obtain rfl := denotes.place_eq alike.lawful alike.apart same
    exact twinDenotes.unique secondDenotes

/-- Blocks in phases correspond one to one. -/
theorem biUnique_sameKey : BiUnique (built.SameKey twin) := by
  have blocks := alike.biUnique_sameBlock
  constructor
  · rintro ⟨index, phase⟩ ⟨second, secondPhase⟩ ⟨other, _⟩ ⟨same, rfl⟩ ⟨sameSecond, rfl⟩
    exact Prod.ext (blocks.1 same sameSecond) rfl
  · rintro ⟨index, phase⟩ ⟨other, _⟩ ⟨second, _⟩ ⟨same, rfl⟩ ⟨sameSecond, rfl⟩
    exact Prod.ext (blocks.2 same sameSecond) rfl

end Renumbered

/-- The empty programs correspond. -/
theorem ProgramTwin.empty : built.ProgramTwin twin .empty .empty :=
  ⟨.nil, .nil, .nil, rfl⟩

namespace ProgramTwin

variable {program other : Program} (programs : built.ProgramTwin twin program other)

include programs

/-- Corresponding programs hold corresponding blocks. -/
theorem includes (alike : built.Renumbered twin) {key otherKey : Key}
    (keys : built.SameKey twin key otherKey) : program.includes key = other.includes otherKey := by
  rw [Program.includes, Program.includes, Bool.eq_iff_iff, List.contains_iff_mem,
    List.contains_iff_mem]
  exact List.rel_mem alike.biUnique_sameKey keys programs.included

/-- Corresponding blocks can be remembered. -/
theorem markIncluded (alike : built.Renumbered twin) {key otherKey : Key}
    (keys : built.SameKey twin key otherKey) :
    built.ProgramTwin twin (program.markIncluded key) (other.markIncluded otherKey) := by
  rw [Program.markIncluded, Program.markIncluded, ← programs.includes alike keys]
  split
  · exact programs
  · exact { programs with included := .cons keys programs.included }

/-- Corresponding calls can be added. -/
theorem addCall {call otherCall : Call} (calls : built.SameCall twin call otherCall) :
    built.ProgramTwin twin (program.addCall call) (other.addCall otherCall) :=
  { programs with calls := List.rel_append programs.calls (.cons calls .nil) }

/-- To declare a variable succeeds on both sides or fails on both. -/
theorem declare (alike : built.Renumbered twin) {cell otherCell : String}
    (cells : built.SameCell twin cell otherCell) (phase : Phase) (type : ValueType) :
    OutcomeTwin built twin (change (·.declare phase cell type) program)
      (change (·.declare phase otherCell type) other) := by
  have scopes : List.Forall₂ (built.SameVariable twin) (program.localsOf phase)
      (other.localsOf phase) :=
    List.rel_filter (fun held second same => by simp [same.phase]) programs.locals
  have sameName : ∀ held second, built.SameVariable twin held second →
      (held.name == cell) = (second.name == otherCell) := fun held second same =>
    Bool.eq_iff_iff.mpr (by simpa using rel_eq alike.biUnique_sameCell same.name cells)
  rw [change_eq, change_eq, Program.declare, Program.declare]
  rcases cases_of_rel (rel_find? sameName scopes) with
    ⟨fresh, otherFresh⟩ | ⟨held, second, found, otherFound, same⟩
  · simp only [fresh, otherFresh]
    exact .ok { programs with
      locals := List.rel_append programs.locals (.cons ⟨rfl, cells, rfl⟩ .nil) }
  · simp only [found, otherFound, ← same.type]
    by_cases fits : held.type = type
    · simp only [if_pos fits]
      exact .ok programs
    · simp only [if_neg fits]
      exact .error

/-- To declare a uniform succeeds on both sides or fails on both. -/
theorem declareExternal (uniform : Uniform) :
    OutcomeTwin built twin (change (·.declareExternal uniform) program)
      (change (·.declareExternal uniform) other) := by
  rw [change_eq, change_eq, Program.declareExternal, Program.declareExternal, ← programs.externals]
  cases program.externals.find? (·.name == uniform.name) with
  | none => exact .ok { programs with externals := rfl }
  | some held =>
    by_cases fits : held.type = uniform.type
    · simp only [if_pos fits]
      exact .ok programs
    · simp only [if_neg fits]
      exact .error

end ProgramTwin

/-- Corresponding steps have corresponding outcomes, if blocks that are put in do. -/
theorem outcomeTwin_perform (alike : built.Renumbered twin)
    {demand otherDemand : Block → Phase → Priority → Emission Unit}
    (demands : built.DemandTwin twin demand otherDemand)
    {step second : Step} (steps : StepTwin built twin step second) {program other : Program}
    (programs : built.ProgramTwin twin program other) :
    OutcomeTwin built twin (perform demand step program) (perform otherDemand second other) := by
  cases steps with
  | demand twins => exact demands _ _ _ _ _ _ twins programs
  | declare cells => exact programs.declare alike cells _ _
  | declareExternal => exact programs.declareExternal _
  | fail => exact .error

/-- Corresponding steps, one after the other, have corresponding outcomes. -/
theorem outcomeTwin_follow (alike : built.Renumbered twin)
    {demand otherDemand : Block → Phase → Priority → Emission Unit}
    (demands : built.DemandTwin twin demand otherDemand)
    {steps others : List Step} (all : List.Forall₂ (StepTwin built twin) steps others)
    {program other : Program} (programs : built.ProgramTwin twin program other) :
    OutcomeTwin built twin (follow demand steps program) (follow otherDemand others other) := by
  induction all generalizing program other with
  | nil => exact .ok programs
  | @cons step second rest otherRest first _ ih =>
    have performed := outcomeTwin_perform alike demands first programs
    rw [follow_cons, follow_cons]
    generalize perform demand step program = outcome at performed ⊢
    generalize perform otherDemand second other = otherOutcome at performed ⊢
    cases performed with
    | ok middles => exact ih middles
    | error => exact .error

/-- To put blocks in has corresponding outcomes, below corresponding paths. -/
theorem demandTwin_ensureWithin (alike : built.Renumbered twin) (depth : Nat)
    {path otherPath : List Key} (paths : List.Forall₂ (built.SameKey twin) path otherPath) :
    built.DemandTwin twin (ensureWithin built.graph depth path)
      (ensureWithin twin.graph depth otherPath) := by
  induction depth generalizing path otherPath with
  | zero => exact fun _ _ _ _ _ _ _ _ => .error
  | succ depth ih =>
    intro block second phase priority program other twins programs
    have keys : built.SameKey twin (block.index, phase) (second.index, phase) := ⟨twins.index, rfl⟩
    have inPath : (block.index, phase) ∈ path ↔ (second.index, phase) ∈ otherPath :=
      List.rel_mem alike.biUnique_sameKey keys paths
    -- Both checks, for a cycle and for a block that is held, turn out the same on both sides.
    rw [ensureWithin_succ, ensureWithin_succ, ← programs.includes alike keys]
    simp only [← inPath]
    split
    · exact .error
    · split
      · exact .ok programs
      · have prepared := outcomeTwin_follow alike (ih (.cons keys paths))
          (alike.preparation twins phase priority) (programs.markIncluded alike keys)
        generalize follow _ (built.graph.preparation _ _ _) _ = outcome at prepared ⊢
        generalize follow _ (twin.graph.preparation _ _ _) _ = otherOutcome at prepared ⊢
        cases prepared with
        | ok middles => exact .ok (middles.addCall (alike.sameCall twins phase priority))
        | error => exact .error

/-- Two finished programs make the same calls in the same order, as far as they can be told without
numbers, and are fed the same uniforms in the same order. -/
structure Correspond (built twin : BuiltGraph) (compiled other : CompiledProgram) : Prop where
  /-- The calls can be told alike, one by one. -/
  calls : ∃ sketches, List.Forall₂ built.Renders sketches compiled.calls ∧
    List.Forall₂ twin.Renders sketches other.calls
  /-- The uniforms are the same, with their types and initial values. -/
  uniforms : compiled.uniforms = other.uniforms

/-- Programs that correspond still do when they are finished. -/
theorem ProgramTwin.correspond {program other : Program}
    (programs : built.ProgramTwin twin program other) :
    built.Correspond twin program.compile other.compile :=
  ⟨exists_forall₂_of_exists programs.calls, programs.externals⟩

/-- Only a sink compiles. -/
theorem compile_of_error {block : Block} (held : built.graph.find? built.material = some block)
    {error : GraphError} (refused : block.checkSink = .error error) :
    built.compile = .error error := by
  simp [BuiltGraph.compile, Graph.compile, Graph.get_eq_ok.mpr held, Block.compile,
    Block.compileInto, refused, bind, Except.bind]

/-- Compiling a sink is putting it in for every phase. -/
theorem compile_of_ok {block : Block} (held : built.graph.find? built.material = some block)
    (sink : block.checkSink = .ok ()) :
    built.compile =
      match follow (ensureWithin built.graph (depthOf built.graph) []) (roots block) .empty with
      | .ok _ program => .ok program.compile
      | .error error _ => .error error := by
  simp only [BuiltGraph.compile, Graph.compile, Graph.get_eq_ok.mpr held, Block.compile,
    Block.compileInto, sink, bind, Except.bind, EStateM.run, ensureAll_eq, roots]
  cases follow (ensureWithin built.graph (depthOf built.graph) [])
    (Phase.all.map fun phase => .demand block phase 0) .empty <;> rfl

/-- Graphs that differ in the numbers of their blocks both compile or both do not, and the finished
programs correspond. -/
theorem Renumbered.compile (alike : built.Renumbered twin) :
    (∃ error otherError, built.compile = .error error ∧ twin.compile = .error otherError) ∨
      ∃ compiled other, built.compile = .ok compiled ∧ twin.compile = .ok other ∧
        built.Correspond twin compiled other := by
  obtain ⟨block, second, numbered, otherNumbered, twins⟩ := alike.blocks _ _ alike.material
  have held := numbered ▸ twins.held
  have otherHeld := otherNumbered ▸ twins.twinHeld
  cases sink : block.checkSink with
  | error error =>
    cases otherSink : second.checkSink with
    | error otherError =>
      exact .inl ⟨error, otherError, compile_of_error held sink,
        compile_of_error otherHeld otherSink⟩
    | ok _ => cases sink.symm.trans (twins.checkSink.mpr otherSink)
  | ok _ =>
    have asked : List.Forall₂ (StepTwin built twin) (roots block) (roots second) := by
      rw [roots, roots, List.forall₂_map_left_iff, List.forall₂_map_right_iff, List.forall₂_same]
      exact fun _ _ => .demand twins
    have ran := outcomeTwin_follow alike
      (demandTwin_ensureWithin alike (depthOf built.graph) .nil) asked .empty
    -- The same depth has to bound both runs.
    have depths : depthOf twin.graph = depthOf built.graph := by
      rw [depthOf, depthOf, alike.size]
    rw [compile_of_ok held sink, compile_of_ok otherHeld (twins.checkSink.mp sink), depths]
    generalize follow _ (roots block) _ = outcome at ran ⊢
    generalize follow _ (roots second) _ = otherOutcome at ran ⊢
    cases ran with
    | ok programs => exact .inr ⟨_, _, rfl, rfl, programs.correspond⟩
    | error => exact .inl ⟨_, _, rfl, rfl⟩

end Lockstep

end ShaderBlocks.BuiltGraph
