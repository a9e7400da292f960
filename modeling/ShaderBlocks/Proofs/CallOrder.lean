import ShaderBlocks.Proofs.Construction
import ShaderBlocks.Proofs.EmissionInvariant

/-!
# The order of the calls

The calls of a compiled material are an enumeration of what the material needs. Nothing
that is needed is left out and nothing else is called, no block is called twice in a phase,
and a block that another one needs is called before it. In particular a block that
compiles does not need itself.
-/

namespace ShaderBlocks

open Emission

/-- The surface of the sample compiles, to five calls. -/
theorem Sample.graph_compiles :
    ∃ compiled, Sample.graph.compile 3 = .ok compiled ∧ compiled.calls.map Call.key =
      [(1, .vertex), (3, .vertex), (1, .fragment), (2, .fragment), (3, .fragment)] := by
  have ran : (Sample.graph.compile 3).toOption.map (fun compiled => compiled.calls.map Call.key) =
      some [(1, .vertex), (3, .vertex), (1, .fragment), (2, .fragment), (3, .fragment)] := rfl
  cases compiles : Sample.graph.compile 3 with
  | error error =>
    rw [compiles] at ran
    contradiction
  | ok compiled =>
    rw [compiles] at ran
    exact ⟨compiled, rfl, Option.some.inj ran⟩

namespace Graph

/-- What is known of the program that a material compiles to, before its text is
written. -/
structure Emitted (graph : Graph) (material : BlockIndex) (program : Program) : Prop where
  /-- Blocks and names are kept track of. -/
  tracked : program.Tracked []
  /-- Every call is the call of a block, behind all that it needs. -/
  placed : graph.Placed program
  /-- Nothing but what is needed is called. -/
  needed : ∀ key ∈ program.keys, graph.Needed material key
  /-- The material is called in every phase. -/
  rooted : ∀ phase, (material, phase) ∈ program.keys

/-- A material that compiles is a sink of the graph, and what it compiles to was emitted. -/
theorem emitted_of_compile {graph : Graph} {material : BlockIndex}
    {compiled : CompiledProgram} (compiles : graph.compile material = .ok compiled) :
    ∃ block program, graph.find? material = some block ∧ block.checkSink = .ok () ∧
      graph.Emitted material program ∧ compiled = program.compile := by
  obtain ⟨block, program, found, sink, follows, rfl⟩ := follows_of_compile compiles
  have numbered : block.index = material := (find?_eq_some.mp found).2
  have asked : ∀ step ∈ roots block, ∀ other phase priority,
      step = .demand other phase priority → other = block := by
    rintro step member other phase priority rfl
    obtain ⟨_, same⟩ := mem_roots.mp member
    injection same
  refine ⟨block, program, found, sink, ⟨follows.tracked .empty, ?_, ?_, fun phase => ?_⟩, rfl⟩
  · refine follows.placed .empty (fun step member other phase priority isDemand => ?_) ?_
    · rw [asked step member other phase priority isDemand, numbered, found]
    · intro before call after split
      simp [Program.empty] at split
  · refine follows.keys_within (fun _ _ => .step)
      (fun step member other phase priority isDemand => ?_) ?_
    · rw [asked step member other phase priority isDemand, numbered]
      exact ⟨found, .root phase⟩
    · simp [Program.keys, Program.empty]
  · have met := follows.met .empty _ (mem_roots.mpr ⟨phase, rfl⟩)
    rwa [Step.Met, numbered] at met

namespace Emitted

variable {graph : Graph} {material : BlockIndex} {program : Program}

/-- The call at a place of an emitted program, and the steps that prepared it. -/
theorem block_of_call (emitted : graph.Emitted material program)
    {before after : List Call} {call : Call}
    (split : program.calls = before ++ call :: after) :
    ∃ block priority, graph.find? block.index = some block ∧
      call = graph.blockCall block call.phase priority ∧
      (∀ step ∈ graph.preparation block call.phase priority,
        step.Met program (before.map Call.key)) ∧
      ∀ error, Step.fail error ∉ graph.preparation block call.phase priority := by
  obtain ⟨block, priority, found, isCall, met⟩ := emitted.placed before call after split
  exact ⟨block, priority, found, isCall, met, fun error member => met _ member⟩

/-- What a call needs is called before it. -/
theorem producer_mem (emitted : graph.Emitted material program) (lawful : graph.Lawful)
    {before after : List Call} {call : Call} {producer : Key}
    (split : program.calls = before ++ call :: after)
    (needs : graph.Needs call.key producer) : producer ∈ before.map Call.key := by
  obtain ⟨block, priority, found, isCall, met, sound⟩ := emitted.block_of_call split
  have place : call.key = (block.index, call.phase) := congrArg Call.key isCall
  rw [place] at needs
  obtain ⟨other, rank, named, demanded⟩ :=
    demand_mem_of_needs found (lawful block (find?_eq_some.mp found).1) needs sound
  have called : (other.index, producer.2) ∈ before.map Call.key := met _ demanded
  rwa [named] at called

/-- The calls are those of the needed blocks. -/
theorem mem_keys (emitted : graph.Emitted material program) (lawful : graph.Lawful) {key : Key} :
    key ∈ program.keys ↔ graph.Needed material key := by
  constructor
  · exact emitted.needed key
  · intro needed
    induction needed with
    | root phase => exact emitted.rooted phase
    | @step consumer producer needed needs called =>
      obtain ⟨call, member, rfl⟩ := List.mem_map.mp called
      obtain ⟨before, after, split⟩ := List.append_of_mem member
      have producerCalled := emitted.producer_mem lawful split needs
      rw [Program.keys, split, List.map_append]
      exact List.mem_append_left _ producerCalled

end Emitted

/-- The calls of a compiled material are those of the least set that holds the material in
both phases and whatever a block in it needs; every one is made once, and behind all that
it needs. -/
theorem calls_enumerate_needed {graph : Graph} {material : BlockIndex}
    {compiled : CompiledProgram} (obtainable : graph.Obtainable)
    (compiles : graph.compile material = .ok compiled) :
    (∀ key, key ∈ compiled.calls.map Call.key ↔ graph.Needed material key) ∧
      (compiled.calls.map Call.key).Nodup ∧
      ∀ before call after producer, compiled.calls = before ++ call :: after →
        graph.Needs call.key producer → producer ∈ before.map Call.key := by
  obtain ⟨block, program, -, -, emitted, rfl⟩ := emitted_of_compile compiles
  have lawful := obtainable.lawful
  refine ⟨fun key => emitted.mem_keys lawful, emitted.tracked.calledOnce, ?_⟩
  intro before call after producer split needs
  exact emitted.producer_mem lawful split needs

/-- In the sample the wave is called once in each phase, before the surface, and the
scaling only where it is needed. -/
theorem calls_enumerate_needed_sample :
    Sample.graph.Obtainable ∧
      ∃ compiled, Sample.graph.compile 3 = .ok compiled ∧
        compiled.calls.map Call.key =
          [(1, .vertex), (3, .vertex), (1, .fragment), (2, .fragment), (3, .fragment)] ∧
        (∀ key, key ∈ compiled.calls.map Call.key ↔ Sample.graph.Needed 3 key) ∧
        (compiled.calls.map Call.key).Nodup ∧
        ∀ before call after producer, compiled.calls = before ++ call :: after →
          Sample.graph.Needs call.key producer → producer ∈ before.map Call.key := by
  have obtainable := Sample.graph_built.obtainable
  obtain ⟨compiled, compiles, keys⟩ := Sample.graph_compiles
  exact ⟨obtainable, compiled, compiles, keys, calls_enumerate_needed obtainable compiles⟩

end Graph

end ShaderBlocks
