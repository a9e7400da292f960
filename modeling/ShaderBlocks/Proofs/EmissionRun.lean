import Mathlib.Data.List.Perm.Subperm
import Mathlib.Data.List.ProdSigma
import ShaderBlocks.Proofs.Dependency

/-!
# Runs of emission

Two relations say what following some steps comes to, without a bound on the depth:
`Follows` that all of them succeed, `Fails` at which one they fail and with what left in
the program. A block that is entered is marked, prepared and then called; the path holds
the blocks that have been entered and not yet called. A run of emission is described by
one of the two relations. For failures this needs that the depth never runs out, which
holds because every block that joins the path takes up room: the blocks are those of the
graph and the one that the run began with, once for each phase, less those on the path.
-/

namespace ShaderBlocks.Emission

/-- Following some steps succeeds. -/
inductive Follows (graph : Graph) : List Key → List Step → Program → Program → Prop
  | done {path : List Key} {program : Program} : Follows graph path [] program program
  | held {path : List Key} {block : Block} {phase : Phase} {priority : Priority} {rest : List Step}
      {program last : Program} (outside : (block.index, phase) ∉ path)
      (included : program.includes (block.index, phase) = true)
      (next : Follows graph path rest program last) :
      Follows graph path (.demand block phase priority :: rest) program last
  | enter {path : List Key} {block : Block} {phase : Phase} {priority : Priority} {rest : List Step}
      {program middle last : Program} (outside : (block.index, phase) ∉ path)
      (fresh : program.includes (block.index, phase) = false)
      (inner : Follows graph ((block.index, phase) :: path)
        (graph.preparation block phase priority) (program.markIncluded (block.index, phase))
        middle)
      (next : Follows graph path rest (middle.addCall (graph.blockCall block phase priority))
        last) :
      Follows graph path (.demand block phase priority :: rest) program last
  | declare {path : List Key} {phase : Phase} {name : String} {type : ValueType}
      {rest : List Step} {program middle last : Program}
      (declared : program.declare phase name type = .ok middle)
      (next : Follows graph path rest middle last) :
      Follows graph path (.declare phase name type :: rest) program last
  | declareExternal {path : List Key} {uniform : Uniform} {rest : List Step}
      {program middle last : Program} (declared : program.declareExternal uniform = .ok middle)
      (next : Follows graph path rest middle last) :
      Follows graph path (.declareExternal uniform :: rest) program last

/-- Following some steps fails, with what was put into the program before. -/
inductive Fails (graph : Graph) :
    List Key → List Step → Program → GraphError → Program → Prop
  | cycle {path : List Key} {block : Block} {phase : Phase} {priority : Priority} {rest : List Step}
      {program : Program} (inside : (block.index, phase) ∈ path) :
      Fails graph path (.demand block phase priority :: rest) program
        (.cycle block.index phase) program
  | enter {path : List Key} {block : Block} {phase : Phase} {priority : Priority} {rest : List Step}
      {program left : Program} {error : GraphError} (outside : (block.index, phase) ∉ path)
      (fresh : program.includes (block.index, phase) = false)
      (inner : Fails graph ((block.index, phase) :: path)
        (graph.preparation block phase priority) (program.markIncluded (block.index, phase))
        error left) :
      Fails graph path (.demand block phase priority :: rest) program error left
  | declare {path : List Key} {phase : Phase} {name : String} {type : ValueType}
      {rest : List Step} {program : Program} {error : GraphError}
      (refused : program.declare phase name type = .error error) :
      Fails graph path (.declare phase name type :: rest) program error program
  | declareExternal {path : List Key} {uniform : Uniform} {rest : List Step} {program : Program}
      {error : GraphError} (refused : program.declareExternal uniform = .error error) :
      Fails graph path (.declareExternal uniform :: rest) program error program
  | fail {path : List Key} {error : GraphError} {rest : List Step} {program : Program} :
      Fails graph path (.fail error :: rest) program error program
  | later {path : List Key} {step : Step} {rest : List Step} {program middle left : Program}
      {error : GraphError} (first : Follows graph path [step] program middle)
      (next : Fails graph path rest middle error left) :
      Fails graph path (step :: rest) program error left

/-- Following steps one after the other. -/
theorem follow_cons (demand : Block → Phase → Priority → Emission Unit) (step : Step)
    (rest : List Step) (program : Program) :
    follow demand (step :: rest) program =
      match perform demand step program with
      | .ok _ middle => follow demand rest middle
      | .error error left => .error error left := by
  simp only [follow, bind, EStateM.bind]
  cases perform demand step program <;> rfl

/-- Following some steps and then some more. -/
theorem follow_append (demand : Block → Phase → Priority → Emission Unit) (steps more : List Step)
    (program : Program) :
    follow demand (steps ++ more) program =
      match follow demand steps program with
      | .ok _ middle => follow demand more middle
      | .error error left => .error error left := by
  induction steps generalizing program with
  | nil => rfl
  | cons step rest ih =>
    rw [List.cons_append, follow_cons, follow_cons]
    cases perform demand step program with
    | ok _ middle => exact ih middle
    | error error left => rfl

/-- Looking at the program leaves it as it is. -/
theorem get_apply (program : Program) :
    (get : Emission Program) program = .ok program program := rfl

/-- Changing the program or failing. -/
theorem change_eq (step : Program → Except GraphError Program) (program : Program) :
    change step program =
      match step program with
      | .ok changed => .ok () changed
      | .error error => .error error program := by
  simp only [change, bind, EStateM.bind, get_apply]
  cases step program <;> rfl

/-- Putting a block into the program, as long as there is depth left. -/
theorem ensureWithin_succ (graph : Graph) (depth : Nat) (path : List Key) (block : Block)
    (phase : Phase) (priority : Priority) (program : Program) :
    ensureWithin graph (depth + 1) path block phase priority program =
      if (block.index, phase) ∈ path then .error (.cycle block.index phase) program
      else if program.includes (block.index, phase) then .ok () program
      else
        match follow (ensureWithin graph depth ((block.index, phase) :: path))
            (graph.preparation block phase priority)
            (program.markIncluded (block.index, phase)) with
        | .ok _ middle => .ok () (middle.addCall (graph.blockCall block phase priority))
        | .error error left => .error error left := by
  simp only [ensureWithin]
  split
  · rfl
  · simp only [bind, EStateM.bind, get_apply]
    split
    · rfl
    · change follow (ensureWithin graph depth ((block.index, phase) :: path))
        (graph.blockSteps block phase priority) (program.markIncluded (block.index, phase)) = _
      rw [Graph.blockSteps_eq, follow_append]
      cases follow (ensureWithin graph depth ((block.index, phase) :: path))
        (graph.preparation block phase priority)
        (program.markIncluded (block.index, phase)) <;> rfl

/-- A successful step, and what follows it. -/
theorem Follows.cons {graph : Graph} {path : List Key} {step : Step} {rest : List Step}
    {program middle last : Program} (first : Follows graph path [step] program middle)
    (next : Follows graph path rest middle last) :
    Follows graph path (step :: rest) program last := by
  cases first with
  | held outside included done => cases done; exact .held outside included next
  | enter outside fresh inner done => cases done; exact .enter outside fresh inner next
  | declare declared done => cases done; exact .declare declared next
  | declareExternal declared done => cases done; exact .declareExternal declared next

/-- Steps that succeed make a derivation, if blocks that are put in do. -/
theorem follows_of_follow {graph : Graph} {path : List Key}
    {demand : Block → Phase → Priority → Emission Unit}
    (demands : ∀ block phase priority program last,
      demand block phase priority program = .ok () last →
        Follows graph path [.demand block phase priority] program last)
    {steps : List Step} {program last : Program} (noCall : ∀ call, Step.add call ∉ steps)
    (ran : follow demand steps program = .ok () last) :
    Follows graph path steps program last := by
  induction steps generalizing program with
  | nil =>
    cases ran
    exact .done
  | cons step rest ih =>
    have later : ∀ {middle : Program}, follow demand rest middle = .ok () last →
        Follows graph path rest middle last :=
      ih fun call member => noCall call (List.mem_cons_of_mem _ member)
    rw [follow_cons] at ran
    cases performed : perform demand step program with
    | error error left =>
      rw [performed] at ran
      contradiction
    | ok _ middle =>
      rw [performed] at ran
      have next := later ran
      cases step with
      | demand block phase priority =>
        exact (demands block phase priority program middle performed).cons next
      | declare phase name type =>
        simp only [perform, change_eq] at performed
        split at performed <;> cases performed
        rename_i declared
        exact .declare declared next
      | declareExternal uniform =>
        simp only [perform, change_eq] at performed
        split at performed <;> cases performed
        rename_i declared
        exact .declareExternal declared next
      | fail error => cases performed
      | add call => exact absurd List.mem_cons_self (noCall call)

/-- A successful run is a derivation. -/
theorem follows_of_ok {graph : Graph} {depth : Nat} {path : List Key} {steps : List Step}
    {program last : Program} (noCall : ∀ call, Step.add call ∉ steps)
    (ran : follow (ensureWithin graph depth path) steps program = .ok () last) :
    Follows graph path steps program last := by
  induction depth generalizing path steps program last with
  | zero => exact follows_of_follow (fun _ _ _ _ _ failed => by cases failed) noCall ran
  | succ depth ih =>
    refine follows_of_follow (fun block phase priority program last entered => ?_) noCall ran
    rw [ensureWithin_succ] at entered
    split at entered
    · cases entered
    · rename_i outside
      split at entered
      · rename_i included
        cases entered
        exact .held outside included .done
      · rename_i fresh
        split at entered
        · rename_i prepared
          cases entered
          exact .enter outside (by simpa using fresh)
            (ih (graph.add_notMem_preparation block phase priority) prepared) .done
        · cases entered

/-- Steps that fail make a derivation of the failure, if blocks that are put in do. -/
theorem fails_of_follow {graph : Graph} {path : List Key}
    {demand : Block → Phase → Priority → Emission Unit}
    (demands : ∀ block phase priority program last,
      demand block phase priority program = .ok () last →
        Follows graph path [.demand block phase priority] program last)
    {steps : List Step} {program left : Program} {error : GraphError}
    (refusals : ∀ block phase priority program left error,
      Step.demand block phase priority ∈ steps →
        demand block phase priority program = .error error left →
          ∀ rest, Fails graph path (.demand block phase priority :: rest) program error left)
    (noCall : ∀ call, Step.add call ∉ steps)
    (ran : follow demand steps program = .error error left) :
    Fails graph path steps program error left := by
  induction steps generalizing program with
  | nil => cases ran
  | cons step rest ih =>
    rw [follow_cons] at ran
    cases performed : perform demand step program with
    | ok _ middle =>
      rw [performed] at ran
      have first : Follows graph path [step] program middle := by
        refine follows_of_follow demands (fun call member => noCall call ?_) ?_
        · rw [List.mem_singleton.mp member]
          exact List.mem_cons_self
        · rw [follow_cons, performed]
          rfl
      refine .later first (ih (fun block phase priority program left error member => ?_) ?_ ran)
      · exact refusals block phase priority program left error (List.mem_cons_of_mem _ member)
      · exact fun call member => noCall call (List.mem_cons_of_mem _ member)
    | error refusal kept =>
      rw [performed] at ran
      cases ran
      cases step with
      | demand block phase priority =>
        exact refusals block phase priority program left error List.mem_cons_self performed rest
      | declare phase name type =>
        simp only [perform, change_eq] at performed
        split at performed <;> cases performed
        rename_i refused
        exact .declare refused
      | declareExternal uniform =>
        simp only [perform, change_eq] at performed
        split at performed <;> cases performed
        rename_i refused
        exact .declareExternal refused
      | fail other =>
        cases performed
        exact .fail
      | add call => cases performed

/-- A path without repetition is at most twice as long as there are blocks for it. -/
theorem length_le_of_nodup {path : List Key} {known : List BlockIndex} (distinct : path.Nodup)
    (within : ∀ key ∈ path, key.1 ∈ known) : path.length ≤ 2 * known.length := by
  have covered : path ⊆ known ×ˢ Phase.all := fun key member =>
    List.pair_mem_product.mpr ⟨within key member, Phase.mem_all key.2⟩
  have bound := (distinct.subperm covered).length_le
  rw [List.length_product] at bound
  simpa [Phase.all, Nat.mul_comm] using bound

/-- How many more blocks may join a path, if all of them are in `known`: those that are not on
it, counted once for each phase. -/
def room (known : List BlockIndex) (path : List Key) : Nat :=
  ((known ×ˢ Phase.all).filter (!path.contains ·)).length

/-- There is never more room than twice the number of blocks. -/
theorem room_le (known : List BlockIndex) (path : List Key) :
    room known path ≤ 2 * known.length := by
  have bound := List.length_filter_le (!path.contains ·) (known ×ˢ Phase.all)
  rw [List.length_product] at bound
  simpa [room, Phase.all, Nat.mul_comm] using bound

/-- A block that joins a path takes up room. -/
theorem room_cons_lt {known : List BlockIndex} {path : List Key} {key : Key}
    (outside : key ∉ path) (isKnown : key.1 ∈ known) :
    room known (key :: path) < room known path := by
  have free : key ∈ (known ×ˢ Phase.all).filter (!path.contains ·) := by
    refine List.mem_filter.mpr ⟨List.pair_mem_product.mpr ⟨isKnown, Phase.mem_all key.2⟩, ?_⟩
    simpa using outside
  have closed : (known ×ˢ Phase.all).filter (!(key :: path).contains ·) =
      ((known ×ˢ Phase.all).filter (!path.contains ·)).filter (· ≠ key) := by
    rw [List.filter_filter]
    refine List.filter_congr fun other _ => ?_
    simp
  rw [room, room, closed, List.length_filter_lt_length_iff_exists]
  exact ⟨key, free, by simp⟩

/-- A run that fails is a derivation of the failure, as long as the depth leaves room for all
blocks in `known`. -/
theorem fails_of_error {graph : Graph} {known : List BlockIndex}
    (inGraph : ∀ block ∈ graph.blocks, block.index ∈ known) {depth : Nat} {path : List Key}
    {steps : List Step} {program left : Program} {error : GraphError}
    (deep : room known path < depth)
    (asked : ∀ block phase priority, Step.demand block phase priority ∈ steps →
      block.index ∈ known)
    (noCall : ∀ call, Step.add call ∉ steps)
    (ran : follow (ensureWithin graph depth path) steps program = .error error left) :
    Fails graph path steps program error left := by
  induction depth generalizing path steps program error left with
  | zero => exact absurd deep (Nat.not_lt_zero _)
  | succ depth ih =>
    refine fails_of_follow (fun block phase priority program last entered => ?_)
      (fun block phase priority program left error member refused rest => ?_) noCall ran
    · have ran : follow (ensureWithin graph (depth + 1) path) [.demand block phase priority]
          program = .ok () last := by
        rw [follow_cons]
        simp only [perform, entered]
        rfl
      exact follows_of_ok (by simp) ran
    · rw [ensureWithin_succ] at refused
      split at refused
      · rename_i inside
        cases refused
        exact .cycle inside
      · rename_i outside
        split at refused
        · cases refused
        · rename_i fresh
          split at refused
          · cases refused
          · rename_i failed
            cases refused
            have deeper := room_cons_lt outside (asked block phase priority member)
            refine .enter outside (by simpa using fresh)
              (ih (Nat.lt_of_lt_of_le deeper (Nat.le_of_lt_succ deep)) ?_ ?_ failed)
            · intro producer asked' rank demanded
              exact inGraph producer (Graph.find?_eq_some.mp (Graph.find?_of_demand_mem demanded)).1
            · exact graph.add_notMem_preparation block phase priority

/-- A run that fails is a derivation of the failure, if it asks only for one block besides those
of the graph. -/
theorem fails_of_follow_error {graph : Graph} (block : Block) {path : List Key}
    {steps : List Step} {program left : Program} {error : GraphError}
    (asked : ∀ other phase priority, Step.demand other phase priority ∈ steps →
      other = block ∨ other ∈ graph.blocks)
    (noCall : ∀ call, Step.add call ∉ steps)
    (ran : follow (ensureWithin graph (depthOf graph) path) steps program = .error error left) :
    Fails graph path steps program error left := by
  have inGraph : ∀ other ∈ graph.blocks,
      other.index ∈ block.index :: graph.blocks.map (·.index) :=
    fun other member => List.mem_cons_of_mem _ (List.mem_map_of_mem member)
  refine fails_of_error inGraph ?_ (fun other phase priority member => ?_) noCall ran
  · have bound := room_le (block.index :: graph.blocks.map (·.index)) path
    simp only [List.length_cons, List.length_map] at bound
    simp only [depthOf, Graph.size]
    omega
  · rcases asked other phase priority member with rfl | held
    · exact List.mem_cons_self
    · exact inGraph other held

/-- The steps that compile a block: it is put in for every phase. -/
def roots (block : Block) : List Step :=
  Phase.all.map fun phase => .demand block phase 0

/-- Compiling a block asks for the block alone, in either phase. -/
theorem mem_roots {block : Block} {step : Step} :
    step ∈ roots block ↔ ∃ phase, step = .demand block phase 0 := by
  simp only [roots, List.mem_map, Phase.mem_all, true_and]
  exact exists_congr fun _ => eq_comm

/-- Compiling a block adds no call but those of blocks that are put in. -/
theorem add_notMem_roots (block : Block) (call : Call) : Step.add call ∉ roots block := by
  simp [mem_roots]

/-- Putting a block in for some phases is following the steps that ask for it. -/
theorem ensureAll_eq (graph : Graph) (block : Block) (phases : List Phase) (program : Program) :
    ensureAll graph block phases program =
      follow (ensureWithin graph (depthOf graph) [])
        (phases.map fun phase => .demand block phase 0) program := by
  induction phases generalizing program with
  | nil => rfl
  | cons phase rest ih =>
    rw [List.map_cons, follow_cons]
    simp only [ensureAll, bind, EStateM.bind, perform, ensure]
    cases ensureWithin graph (depthOf graph) [] block phase 0 program with
    | ok _ middle => exact ih middle
    | error error left => rfl

/-- Putting a material into a program is a derivation from its roots. -/
theorem follows_of_compileInto {graph : Graph} {block : Block} {program last : Program}
    (compiled : block.compileInto graph program = .ok last) :
    block.checkSink = .ok () ∧ Follows graph [] (roots block) program last := by
  cases sink : block.checkSink with
  | error error => simp [Block.compileInto, sink, bind, Except.bind] at compiled
  | ok _ =>
    simp only [Block.compileInto, sink, bind, Except.bind, EStateM.run, ensureAll_eq] at compiled
    split at compiled
    · rename_i ran
      cases compiled
      exact ⟨rfl, follows_of_ok (add_notMem_roots block) ran⟩
    · cases compiled

/-- Failing to put a material into a program is a derivation of the failure, unless the
block cannot be compiled at all. -/
theorem fails_of_compileInto {graph : Graph} {block : Block} {program : Program}
    {error : GraphError} (failed : block.compileInto graph program = .error error) :
    block.checkSink = .error error ∨
      block.checkSink = .ok () ∧ ∃ left, Fails graph [] (roots block) program error left := by
  cases sink : block.checkSink with
  | error refusal =>
    simp only [Block.compileInto, sink, bind, Except.bind, Except.error.injEq] at failed
    exact .inl (congrArg _ failed)
  | ok _ =>
    simp only [Block.compileInto, sink, bind, Except.bind, EStateM.run, ensureAll_eq] at failed
    split at failed
    · cases failed
    · rename_i refusal left ran
      cases failed
      refine .inr ⟨rfl, left, fails_of_follow_error block (fun other phase priority member => ?_)
        (add_notMem_roots block) ran⟩
      obtain ⟨_, same⟩ := mem_roots.mp member
      injection same with same
      exact .inl same

end ShaderBlocks.Emission

namespace ShaderBlocks.Graph

open ShaderBlocks.Emission

/-- A material that compiles is a sink of the graph, and its roots have a derivation. -/
theorem follows_of_compile {graph : Graph} {material : BlockIndex} {compiled : CompiledProgram}
    (compiles : graph.compile material = .ok compiled) :
    ∃ block program, graph.find? material = some block ∧ block.checkSink = .ok () ∧
      Follows graph [] (roots block) .empty program ∧ compiled = program.compile := by
  simp only [Graph.compile, bind, Except.bind] at compiles
  split at compiles
  · cases compiles
  · rename_i block held
    simp only [Block.compile, bind, Except.bind] at compiles
    split at compiles
    · cases compiles
    · rename_i program put
      cases compiles
      obtain ⟨sink, follows⟩ := follows_of_compileInto put
      exact ⟨block, program, get_eq_ok.mp held, sink, follows, rfl⟩

/-- A block of the graph that does not compile is no sink, or its roots have a derivation
of the failure. -/
theorem fails_of_compile {graph : Graph} {block : Block} {error : GraphError}
    (found : graph.find? block.index = some block)
    (failed : graph.compile block.index = .error error) :
    block.checkSink = .error error ∨
      block.checkSink = .ok () ∧ ∃ left, Fails graph [] (roots block) .empty error left := by
  simp only [Graph.compile, bind, Except.bind, get_eq_ok.mpr found, Block.compile] at failed
  split at failed
  · rename_i refusal put
    cases failed
    exact fails_of_compileInto put
  · cases failed

end ShaderBlocks.Graph
