import ShaderBlocks.Proofs.EmissionRun

/-!
# What emission keeps

Steps that succeed only add to a program. While they are followed, the blocks that the
program remembers are those on the path and those whose call has been added, every one
once; and names stay unique in their scope. So when a call is added, everything that its
preparation asked for is in place: the calls of the blocks it needs stand before it, and
what it passes is declared.
-/

namespace ShaderBlocks

namespace Program

/-- The places of the calls, in order. -/
def keys (program : Program) : List Key :=
  program.calls.map Call.key

/-- The program `after` holds what `before` held, in the same places, and maybe more
behind it. -/
structure Extends (before after : Program) : Prop where
  /-- Calls stay. -/
  calls : before.calls <+: after.calls
  /-- Variables stay. -/
  locals : before.locals <+: after.locals
  /-- Uniforms stay. -/
  externals : before.externals <+: after.externals

namespace Extends

/-- A program extends itself. -/
theorem refl (program : Program) : Extends program program :=
  ⟨List.prefix_rfl, List.prefix_rfl, List.prefix_rfl⟩

/-- What extends an extension is an extension. -/
theorem trans {first second third : Program} (early : Extends first second)
    (late : Extends second third) : Extends first third :=
  ⟨early.calls.trans late.calls, early.locals.trans late.locals,
    early.externals.trans late.externals⟩

/-- The places of calls stay. -/
theorem keys_subset {before after : Program} (extension : Extends before after) :
    before.keys ⊆ after.keys :=
  List.map_subset _ extension.calls.subset

end Extends

/-- What a successful declaration of a variable comes to. -/
theorem declare_eq_ok {program after : Program} {phase : Phase} {name : String}
    {type : ValueType} (declared : program.declare phase name type = .ok after) :
    after = program ∧ ⟨phase, name, type⟩ ∈ program.locals ∨
      after = { program with locals := program.locals ++ [⟨phase, name, type⟩] } ∧
        ∀ held ∈ program.locals, ¬(held.phase = phase ∧ held.name = name) := by
  simp only [declare] at declared
  split at declared
  · rename_i held found
    split at declared
    · rename_i sameType
      have member := List.mem_of_find?_eq_some found
      simp only [localsOf, List.mem_filter, decide_eq_true_eq] at member
      have sameName : held.name = name := by simpa using List.find?_some found
      obtain ⟨heldPhase, heldName, heldType⟩ := held
      obtain ⟨inLocals, rfl⟩ := member
      simp only at sameType sameName
      cases declared
      exact .inl ⟨rfl, sameType ▸ sameName ▸ inLocals⟩
    · contradiction
  · rename_i absent
    cases declared
    refine .inr ⟨rfl, fun held member same => ?_⟩
    have := List.find?_eq_none.mp absent held
      (List.mem_filter.mpr ⟨member, by simpa using same.1⟩)
    exact this (by simpa using same.2)

/-- A declaration of a variable fails when the name has another type. -/
theorem declare_eq_error {program : Program} {phase : Phase} {name : String}
    {type : ValueType} {error : GraphError}
    (refused : program.declare phase name type = .error error) :
    ∃ held, ⟨phase, name, held⟩ ∈ program.locals ∧ held ≠ type ∧
      error = .typeMismatch (.phase phase) name held type := by
  simp only [declare] at refused
  split at refused
  · rename_i held found
    split at refused
    · contradiction
    · rename_i otherType
      have member := List.mem_of_find?_eq_some found
      simp only [localsOf, List.mem_filter, decide_eq_true_eq] at member
      have sameName : held.name = name := by simpa using List.find?_some found
      obtain ⟨heldPhase, heldName, heldType⟩ := held
      obtain ⟨inLocals, rfl⟩ := member
      simp only at otherType sameName
      cases refused
      exact ⟨heldType, sameName ▸ inLocals, otherType, rfl⟩
  · contradiction

/-- What a successful declaration of a uniform comes to. -/
theorem declareExternal_eq_ok {program after : Program} {uniform : Uniform}
    (declared : program.declareExternal uniform = .ok after) :
    after = program ∧
        (∃ held ∈ program.externals, held.name = uniform.name ∧ held.type = uniform.type) ∨
      after = { program with externals := program.externals ++ [uniform] } ∧
        ∀ held ∈ program.externals, held.name ≠ uniform.name := by
  simp only [declareExternal] at declared
  split at declared
  · rename_i held found
    split at declared
    · rename_i sameType
      cases declared
      exact .inl ⟨rfl, held, List.mem_of_find?_eq_some found,
        by simpa using List.find?_some found, sameType⟩
    · contradiction
  · rename_i absent
    cases declared
    exact .inr ⟨rfl, fun held member => by simpa using List.find?_eq_none.mp absent held member⟩

/-- A declaration of a uniform fails when the name has another type. -/
theorem declareExternal_eq_error {program : Program} {uniform : Uniform} {error : GraphError}
    (refused : program.declareExternal uniform = .error error) :
    ∃ held ∈ program.externals, held.name = uniform.name ∧ held.type ≠ uniform.type ∧
      error = .typeMismatch .externals uniform.name held.type uniform.type := by
  simp only [declareExternal] at refused
  split at refused
  · rename_i held found
    split at refused
    · contradiction
    · rename_i otherType
      cases refused
      exact ⟨held, List.mem_of_find?_eq_some found, by simpa using List.find?_some found,
        otherType, rfl⟩
  · contradiction

/-- A program remembers what it is told to, besides what it remembered. -/
theorem includes_markIncluded (program : Program) (key other : Key) :
    (program.markIncluded key).includes other = true ↔
      other = key ∨ program.includes other = true := by
  unfold markIncluded
  split
  · rename_i already
    constructor
    · exact .inr
    · rintro (rfl | held)
      · exact already
      · exact held
  · simp [includes]

/-- Remembering a block changes nothing else. -/
theorem markIncluded_keys (program : Program) (key : Key) :
    (program.markIncluded key).keys = program.keys ∧
      (program.markIncluded key).calls = program.calls ∧
        (program.markIncluded key).locals = program.locals ∧
          (program.markIncluded key).externals = program.externals := by
  unfold markIncluded
  split <;> exact ⟨rfl, rfl, rfl, rfl⟩

/-- Remembering a block extends a program. -/
theorem extends_markIncluded (program : Program) (key : Key) :
    Extends program (program.markIncluded key) := by
  obtain ⟨-, calls, locals, externals⟩ := program.markIncluded_keys key
  exact ⟨calls ▸ List.prefix_rfl, locals ▸ List.prefix_rfl, externals ▸ List.prefix_rfl⟩

/-- Adding a call extends a program. -/
theorem extends_addCall (program : Program) (call : Call) :
    Extends program (program.addCall call) :=
  ⟨List.prefix_append _ _, List.prefix_rfl, List.prefix_rfl⟩

/-- Declaring a variable extends a program. -/
theorem extends_declare {program after : Program} {phase : Phase} {name : String}
    {type : ValueType} (declared : program.declare phase name type = .ok after) :
    Extends program after := by
  rcases declare_eq_ok declared with ⟨rfl, -⟩ | ⟨rfl, -⟩
  · exact .refl _
  · exact ⟨List.prefix_rfl, List.prefix_append _ _, List.prefix_rfl⟩

/-- Declaring a uniform extends a program. -/
theorem extends_declareExternal {program after : Program} {uniform : Uniform}
    (declared : program.declareExternal uniform = .ok after) : Extends program after := by
  rcases declareExternal_eq_ok declared with ⟨rfl, -⟩ | ⟨rfl, -⟩
  · exact .refl _
  · exact ⟨List.prefix_rfl, List.prefix_rfl, List.prefix_append _ _⟩

end Program

/-- What a step asked for is there: blocks are among those at `places`, names are declared
in the program. -/
def Step.Met (program : Program) (places : List Key) : Step → Prop
  | .demand block phase _ => (block.index, phase) ∈ places
  | .declare phase name type => ⟨phase, name, type⟩ ∈ program.locals
  | .declareExternal uniform =>
    ∃ held ∈ program.externals, held.name = uniform.name ∧ held.type = uniform.type
  | .fail _ => False
  | .add call => call ∈ program.calls

/-- What is there stays there. -/
theorem Step.Met.mono {before after : Program} {places more : List Key} {step : Step}
    (met : step.Met before places) (extension : before.Extends after) (subset : places ⊆ more) :
    step.Met after more := by
  cases step with
  | demand block phase priority => exact subset met
  | declare phase name type => exact extension.locals.subset met
  | declareExternal uniform =>
    obtain ⟨held, member, same⟩ := met
    exact ⟨held, extension.externals.subset member, same⟩
  | fail error => exact met
  | add call => exact extension.calls.subset met

namespace Program

/-- The program remembers the blocks on the path and those that have a call, each of them
once, and every name has one type in its scope. -/
structure Tracked (path : List Key) (program : Program) : Prop where
  /-- What is remembered. -/
  included : ∀ key, program.includes key = true ↔ key ∈ path ∨ key ∈ program.keys
  /-- A block on the path has no call yet. -/
  uncalled : ∀ key ∈ path, key ∉ program.keys
  /-- No block is called twice in a phase. -/
  calledOnce : program.keys.Nodup
  /-- A phase declares a variable once. -/
  localsDistinct : (program.locals.map fun cell => (cell.phase, cell.name)).Nodup
  /-- A uniform is declared once. -/
  externalsDistinct : (program.externals.map (·.name)).Nodup

namespace Tracked

/-- A program without anything in it remembers nothing. -/
theorem empty : Tracked [] Program.empty := by
  constructor <;> simp [Program.empty, keys, includes]

/-- A block that is not remembered is not on the path. -/
theorem outside {path : List Key} {program : Program} {key : Key} (tracked : Tracked path program)
    (fresh : program.includes key = false) : key ∉ path := by
  intro inside
  rw [(tracked.included key).mpr (.inl inside)] at fresh
  contradiction

/-- Entering a block puts it on the path. -/
theorem enter {path : List Key} {program : Program} {key : Key} (tracked : Tracked path program)
    (fresh : program.includes key = false) :
    Tracked (key :: path) (program.markIncluded key) := by
  obtain ⟨keys, -, locals, externals⟩ := program.markIncluded_keys key
  have notHeld : ¬(key ∈ path ∨ key ∈ program.keys) := by
    rw [← tracked.included, fresh]
    simp
  constructor
  · intro other
    rw [includes_markIncluded, tracked.included, keys, List.mem_cons, or_assoc]
  · intro other member
    rw [keys]
    rcases List.mem_cons.mp member with rfl | inPath
    · exact fun called => notHeld (.inr called)
    · exact tracked.uncalled other inPath
  · rw [keys]
    exact tracked.calledOnce
  · rw [locals]
    exact tracked.localsDistinct
  · rw [externals]
    exact tracked.externalsDistinct

/-- Adding the call of a block takes it off the path. -/
theorem leave {path : List Key} {program : Program} {key : Key} {call : Call}
    (tracked : Tracked (key :: path) program) (outside : key ∉ path) (place : call.key = key) :
    Tracked path (program.addCall call) := by
  have keys : (program.addCall call).keys = program.keys ++ [key] := by
    simp [Program.keys, addCall, place]
  have uncalled := tracked.uncalled key List.mem_cons_self
  constructor
  · intro other
    have held : (program.addCall call).includes other = program.includes other := rfl
    rw [held, tracked.included, keys, List.mem_append, List.mem_singleton, List.mem_cons]
    constructor
    · rintro ((same | inPath) | called)
      · exact .inr (.inr same)
      · exact .inl inPath
      · exact .inr (.inl called)
    · rintro (inPath | called | same)
      · exact .inl (.inr inPath)
      · exact .inr called
      · exact .inl (.inl same)
  · intro other inPath
    rw [keys, List.mem_append, List.mem_singleton]
    rintro (called | same)
    · exact tracked.uncalled other (List.mem_cons_of_mem _ inPath) called
    · exact outside (same ▸ inPath)
  · rw [keys, List.nodup_append]
    refine ⟨tracked.calledOnce, List.nodup_singleton _, fun other called last member same => ?_⟩
    rw [List.mem_singleton.mp member] at same
    exact uncalled (same ▸ called)
  · exact tracked.localsDistinct
  · exact tracked.externalsDistinct

/-- Declaring a variable keeps track. -/
theorem declare {path : List Key} {program after : Program} {phase : Phase} {name : String}
    {type : ValueType} (tracked : Tracked path program)
    (declared : program.declare phase name type = .ok after) : Tracked path after := by
  rcases declare_eq_ok declared with ⟨rfl, -⟩ | ⟨rfl, absent⟩
  · exact tracked
  · refine ⟨tracked.included, tracked.uncalled, tracked.calledOnce, ?_,
      tracked.externalsDistinct⟩
    rw [List.map_append, List.nodup_append]
    refine ⟨tracked.localsDistinct, List.nodup_singleton _,
      fun pair member last lastMember same => ?_⟩
    obtain ⟨held, heldMember, rfl⟩ := List.mem_map.mp member
    rw [List.mem_singleton.mp lastMember] at same
    exact absent held heldMember (Prod.mk.inj same)

/-- Declaring a uniform keeps track. -/
theorem declareExternal {path : List Key} {program after : Program} {uniform : Uniform}
    (tracked : Tracked path program)
    (declared : program.declareExternal uniform = .ok after) : Tracked path after := by
  rcases declareExternal_eq_ok declared with ⟨rfl, -⟩ | ⟨rfl, absent⟩
  · exact tracked
  · refine ⟨tracked.included, tracked.uncalled, tracked.calledOnce, tracked.localsDistinct, ?_⟩
    rw [List.map_append, List.nodup_append]
    refine ⟨tracked.externalsDistinct, List.nodup_singleton _,
      fun other member last lastMember same => ?_⟩
    obtain ⟨held, heldMember, rfl⟩ := List.mem_map.mp member
    rw [List.mem_singleton.mp lastMember] at same
    exact absent held heldMember same

/-- A variable that is declared twice has one type. -/
theorem type_eq_of_mem_locals {path : List Key} {program : Program}
    (tracked : Tracked path program) {phase : Phase} {name : String} {first second : ValueType}
    (member : ⟨phase, name, first⟩ ∈ program.locals)
    (secondMember : ⟨phase, name, second⟩ ∈ program.locals) : first = second := by
  have same := List.inj_on_of_nodup_map tracked.localsDistinct member secondMember rfl
  injection same

/-- A uniform that is declared twice has one type. -/
theorem type_eq_of_mem_externals {path : List Key} {program : Program}
    (tracked : Tracked path program) {first second : Uniform}
    (member : first ∈ program.externals) (secondMember : second ∈ program.externals)
    (same : first.name = second.name) : first.type = second.type :=
  congrArg Uniform.type
    (List.inj_on_of_nodup_map tracked.externalsDistinct member secondMember same)

end Tracked

end Program

namespace Emission.Follows

open Program

/-- Steps that succeed extend the program. -/
theorem extension {graph : Graph} {path : List Key} {steps : List Step}
    {program last : Program} (follows : Follows graph path steps program last) :
    program.Extends last := by
  induction follows with
  | done => exact .refl _
  | held outside included next ih => exact ih
  | enter outside fresh inner next innerIh ih =>
    exact (((extends_markIncluded _ _).trans innerIh).trans (extends_addCall _ _)).trans ih
  | declare declared next ih => exact (extends_declare declared).trans ih
  | declareExternal declared next ih => exact (extends_declareExternal declared).trans ih

/-- Steps that succeed keep track of blocks and names, also beside blocks that were entered
before and are no longer on the path. -/
theorem tracked_beside {graph : Graph} {path others : List Key} {steps : List Step}
    {program last : Program} (follows : Follows graph path steps program last)
    (before : Tracked (path ++ others) program) : Tracked (path ++ others) last := by
  induction follows with
  | done => exact before
  | held outside included next ih => exact ih before
  | enter outside fresh inner next innerIh ih =>
    exact ih ((innerIh (before.enter fresh)).leave (before.outside fresh) rfl)
  | declare declared next ih => exact ih (before.declare declared)
  | declareExternal declared next ih => exact ih (before.declareExternal declared)

/-- Steps that succeed keep track of blocks and names. -/
theorem tracked {graph : Graph} {path : List Key} {steps : List Step} {program last : Program}
    (follows : Follows graph path steps program last) (before : Tracked path program) :
    Tracked path last := by
  rw [← List.append_nil path] at before ⊢
  exact follows.tracked_beside before

/-- When steps succeed, what they asked for is there in the end. -/
theorem met {graph : Graph} {path : List Key} {steps : List Step} {program last : Program}
    (follows : Follows graph path steps program last) (before : Tracked path program) :
    ∀ step ∈ steps, step.Met last last.keys := by
  induction follows with
  | done => simp
  | held outside included next ih =>
    refine List.forall_mem_cons.mpr ⟨?_, ih before⟩
    -- A block that is remembered and not on the path has its call.
    have called := ((before.included _).mp included).resolve_left outside
    exact next.extension.keys_subset called
  | enter outside fresh inner next innerIh ih =>
    refine List.forall_mem_cons.mpr
      ⟨?_, ih ((inner.tracked (before.enter fresh)).leave outside rfl)⟩
    apply next.extension.keys_subset
    simp [keys, addCall]
  | declare declared next ih =>
    refine List.forall_mem_cons.mpr ⟨?_, ih (before.declare declared)⟩
    apply next.extension.locals.subset
    rcases declare_eq_ok declared with ⟨rfl, member⟩ | ⟨rfl, -⟩
    · exact member
    · simp
  | declareExternal declared next ih =>
    refine List.forall_mem_cons.mpr ⟨?_, ih (before.declareExternal declared)⟩
    rcases declareExternal_eq_ok declared with ⟨rfl, held, member, same⟩ | ⟨rfl, -⟩
    · exact ⟨held, next.extension.externals.subset member, same⟩
    · exact ⟨_, next.extension.externals.subset (by simp), rfl, rfl⟩

end Emission.Follows

namespace Graph

/-- Every call is the call of a block of the graph, and what its preparation asked for is
there: the calls it needs in front of it, the declarations anywhere. -/
def Placed (graph : Graph) (program : Program) : Prop :=
  ∀ before call after, program.calls = before ++ call :: after →
    ∃ block priority, graph.find? block.index = some block ∧
      call = graph.blockCall block call.phase priority ∧
      ∀ step ∈ graph.preparation block call.phase priority,
        step.Met program (before.map Call.key)

/-- A program that gets no call keeps its calls placed. -/
theorem Placed.mono {graph : Graph} {program after : Program} (placed : graph.Placed program)
    (extension : program.Extends after) (same : after.calls = program.calls) :
    graph.Placed after := by
  intro early call late split
  obtain ⟨block, priority, found, isCall, met⟩ := placed early call late (same ▸ split)
  exact ⟨block, priority, found, isCall, fun step member =>
    (met step member).mono extension (List.Subset.refl _)⟩

/-- A call whose preparation is met can be added. -/
theorem Placed.addCall {graph : Graph} {program : Program} {block : Block} {phase : Phase}
    {priority : Priority} (placed : graph.Placed program)
    (found : graph.find? block.index = some block)
    (met : ∀ step ∈ graph.preparation block phase priority, step.Met program program.keys) :
    graph.Placed (program.addCall (graph.blockCall block phase priority)) := by
  intro early call late split
  have extension := program.extends_addCall (graph.blockCall block phase priority)
  -- The call in question is the new one, or stands before it.
  rcases List.eq_nil_or_concat late with rfl | ⟨rest, last, rfl⟩
  · obtain ⟨rfl, same⟩ := List.append_inj' split rfl
    obtain rfl := List.singleton_inj.mp same
    exact ⟨block, priority, found, rfl, fun step member =>
      (met step member).mono extension (List.Subset.refl _)⟩
  · have regrouped : program.calls ++ [graph.blockCall block phase priority] =
        (early ++ call :: rest) ++ [last] := by
      simpa [Program.addCall] using split
    obtain ⟨same, -⟩ := List.append_inj' regrouped rfl
    obtain ⟨other, rank, otherFound, isCall, otherMet⟩ := placed early call rest same
    exact ⟨other, rank, otherFound, isCall, fun step member =>
      (otherMet step member).mono extension (List.Subset.refl _)⟩

end Graph

namespace Emission.Follows

open Program

/-- Steps that ask for blocks of the graph leave every call placed. -/
theorem placed {graph : Graph} {path : List Key} {steps : List Step} {program last : Program}
    (follows : Follows graph path steps program last) (tracked : Tracked path program)
    (asked : ∀ step ∈ steps, ∀ block phase priority, step = .demand block phase priority →
      graph.find? block.index = some block)
    (before : graph.Placed program) : graph.Placed last := by
  induction follows with
  | done => exact before
  | held outside included next ih => exact ih tracked (List.forall_mem_cons.mp asked).2 before
  | @enter path block phase priority rest program middle last outside fresh inner next innerIh ih =>
    obtain ⟨askedHere, askedLater⟩ := List.forall_mem_cons.mp asked
    have entered := tracked.enter fresh
    have unchanged : (program.markIncluded (block.index, phase)).calls = program.calls :=
      (program.markIncluded_keys _).2.1
    have prepared : graph.Placed middle := by
      refine innerIh entered ?_ (before.mono (extends_markIncluded _ _) unchanged)
      rintro _ member producer stage rank rfl
      exact Graph.find?_of_demand_mem member
    have added := prepared.addCall (askedHere block phase priority rfl) (inner.met entered)
    exact ih ((inner.tracked entered).leave outside rfl) askedLater added
  | declare declared next ih =>
    refine ih (tracked.declare declared) (List.forall_mem_cons.mp asked).2
      (before.mono (extends_declare declared) ?_)
    rcases declare_eq_ok declared with ⟨rfl, -⟩ | ⟨rfl, -⟩ <;> rfl
  | declareExternal declared next ih =>
    refine ih (tracked.declareExternal declared) (List.forall_mem_cons.mp asked).2
      (before.mono (extends_declareExternal declared) ?_)
    rcases declareExternal_eq_ok declared with ⟨rfl, -⟩ | ⟨rfl, -⟩ <;> rfl

/-- A set that holds what is asked for, and with a block in a phase all that it needs,
holds the places of all calls. -/
theorem keys_within {graph : Graph} {path : List Key} {steps : List Step}
    {program last : Program} (follows : Follows graph path steps program last)
    {within : Key → Prop}
    (closed : ∀ consumer producer, within consumer → graph.Needs consumer producer →
      within producer)
    (asked : ∀ step ∈ steps, ∀ block phase priority, step = .demand block phase priority →
      graph.find? block.index = some block ∧ within (block.index, phase))
    (before : ∀ key ∈ program.keys, within key) : ∀ key ∈ last.keys, within key := by
  induction follows with
  | done => exact before
  | held outside included next ih => exact ih (List.forall_mem_cons.mp asked).2 before
  | @enter path block phase priority rest program middle last outside fresh inner next innerIh ih =>
    obtain ⟨askedHere, askedLater⟩ := List.forall_mem_cons.mp asked
    obtain ⟨found, inside⟩ := askedHere block phase priority rfl
    refine ih askedLater fun key member => ?_
    simp only [keys, addCall, List.map_append, List.mem_append, List.map_cons, List.map_nil,
      List.mem_singleton, Graph.key_blockCall] at member
    rcases member with held | rfl
    · refine innerIh ?_ ?_ key held
      · rintro _ demanded producer stage rank rfl
        exact ⟨Graph.find?_of_demand_mem demanded,
          closed _ _ inside (Graph.needs_of_demand_mem found demanded)⟩
      · rw [(program.markIncluded_keys _).1]
        exact before
    · exact inside
  | declare declared next ih =>
    refine ih (List.forall_mem_cons.mp asked).2 ?_
    rcases declare_eq_ok declared with ⟨rfl, -⟩ | ⟨rfl, -⟩ <;> exact before
  | declareExternal declared next ih =>
    refine ih (List.forall_mem_cons.mp asked).2 ?_
    rcases declareExternal_eq_ok declared with ⟨rfl, -⟩ | ⟨rfl, -⟩ <;> exact before

/-- What holds of the call of any block whose preparation is met, and goes on holding when
the program grows, holds of every call. Here `own` are the blocks that may be asked for. -/
theorem forall_calls {graph : Graph} (own : Block → Prop) (holds : Program → Call → Prop)
    (mono : ∀ {before after : Program} {call : Call}, before.Extends after →
      holds before call → holds after call)
    (made : ∀ {block : Block} {phase : Phase} {priority : Priority} {program : Program}, own block →
      (∀ step ∈ graph.preparation block phase priority, step.Met program program.keys) →
        holds program (graph.blockCall block phase priority))
    (closed : ∀ {block producer : Block} {phase asked : Phase} {priority rank : Priority},
      .demand producer asked rank ∈ graph.preparation block phase priority → own producer)
    {path : List Key} {steps : List Step} {program last : Program}
    (follows : Follows graph path steps program last) (tracked : Tracked path program)
    (asked : ∀ block phase priority, .demand block phase priority ∈ steps → own block)
    (before : ∀ call ∈ program.calls, holds program call) :
    ∀ call ∈ last.calls, holds last call := by
  have later : ∀ {step : Step} {rest : List Step},
      (∀ block phase priority, .demand block phase priority ∈ step :: rest → own block) →
        ∀ block phase priority, .demand block phase priority ∈ rest → own block :=
    fun asked block phase priority member =>
      asked block phase priority (List.mem_cons_of_mem _ member)
  induction follows with
  | done => exact before
  | held outside included next ih => exact ih tracked (later asked) before
  | @enter path block phase priority rest program middle last outside fresh inner next innerIh ih =>
    have entered := tracked.enter fresh
    have prepared : ∀ call ∈ middle.calls, holds middle call := by
      refine innerIh entered (fun _ _ _ => closed) fun call member => ?_
      rw [(program.markIncluded_keys _).2.1] at member
      exact mono (extends_markIncluded _ _) (before call member)
    refine ih ((inner.tracked entered).leave outside rfl) (later asked) fun call member => ?_
    apply mono (extends_addCall _ _)
    rcases List.mem_append.mp member with held | isNew
    · exact prepared call held
    · rw [List.mem_singleton.mp isNew]
      exact made (asked block phase priority List.mem_cons_self) (inner.met entered)
  | declare declared next ih =>
    refine ih (tracked.declare declared) (later asked) fun call member => ?_
    apply mono (extends_declare declared)
    rcases declare_eq_ok declared with ⟨rfl, -⟩ | ⟨rfl, -⟩ <;> exact before call member
  | declareExternal declared next ih =>
    refine ih (tracked.declareExternal declared) (later asked) fun call member => ?_
    apply mono (extends_declareExternal declared)
    rcases declareExternal_eq_ok declared with ⟨rfl, -⟩ | ⟨rfl, -⟩ <;> exact before call member

/-- What holds of all steps that prepare blocks of the graph holds of every declaration. -/
theorem forall_declared {graph : Graph} (holds : Step → Prop)
    (prepared : ∀ {block : Block} {phase : Phase} {priority : Priority},
      graph.find? block.index = some block →
        ∀ step ∈ graph.preparation block phase priority, holds step)
    {path : List Key} {steps : List Step} {program last : Program}
    (follows : Follows graph path steps program last)
    (asked : ∀ step ∈ steps, holds step ∧
      ∀ block phase priority, step = .demand block phase priority →
        graph.find? block.index = some block)
    (before : (∀ cell ∈ program.locals, holds (.declare cell.phase cell.name cell.type)) ∧
      ∀ uniform ∈ program.externals, holds (.declareExternal uniform)) :
    (∀ cell ∈ last.locals, holds (.declare cell.phase cell.name cell.type)) ∧
      ∀ uniform ∈ last.externals, holds (.declareExternal uniform) := by
  induction follows with
  | done => exact before
  | held outside included next ih => exact ih (List.forall_mem_cons.mp asked).2 before
  | @enter path block phase priority rest program middle last outside fresh inner next innerIh ih =>
    obtain ⟨⟨-, found⟩, later⟩ := List.forall_mem_cons.mp asked
    refine ih later (innerIh (fun step member => ⟨?_, ?_⟩) ?_)
    · exact prepared (found block phase priority rfl) step member
    · rintro producer stage rank rfl
      exact Graph.find?_of_demand_mem member
    · obtain ⟨-, -, locals, externals⟩ := program.markIncluded_keys (block.index, phase)
      rw [locals, externals]
      exact before
  | declare declared next ih =>
    obtain ⟨⟨here, -⟩, later⟩ := List.forall_mem_cons.mp asked
    refine ih later ?_
    rcases declare_eq_ok declared with ⟨rfl, -⟩ | ⟨rfl, -⟩
    · exact before
    · refine ⟨fun cell member => ?_, before.2⟩
      rcases List.mem_append.mp member with held | isNew
      · exact before.1 cell held
      · rw [List.mem_singleton.mp isNew]
        exact here
  | declareExternal declared next ih =>
    obtain ⟨⟨here, -⟩, later⟩ := List.forall_mem_cons.mp asked
    refine ih later ?_
    rcases declareExternal_eq_ok declared with ⟨rfl, -⟩ | ⟨rfl, -⟩
    · exact before
    · refine ⟨before.1, fun uniform member => ?_⟩
      rcases List.mem_append.mp member with held | isNew
      · exact before.2 uniform held
      · rw [List.mem_singleton.mp isNew]
        exact here

end Emission.Follows

end ShaderBlocks
