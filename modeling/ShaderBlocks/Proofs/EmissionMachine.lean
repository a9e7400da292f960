import Mathlib.Logic.Function.Iterate
import ShaderBlocks.Proofs.EmissionInvariant

/-!
# Emission one step at a time

While blocks are put into a program, the ones that are being put in stand on a stack. A block is
pushed when it is entered, and taken off when its call has been added or when an error is handed
back to whoever asked for it. A `Machine` is emission with this stack laid open: it holds the
program, the stack, what is left to do and the error on its way back, and advances by one small
step at a time. Nothing bounds how long it runs or how deep the stack gets.

A machine that is given some steps to do comes to an end, with the stack as it was before, and
what it comes to is what emission says. Where emission fails, the machine reaches a point at
which the error comes up; the blocks that are then on the stack were entered and will never be
called.
-/

namespace ShaderBlocks.Emission

open Program

/-- Something that a machine has left to do. -/
inductive Task
  /-- Carry out a step. -/
  | step (step : Step)
  /-- Take the block that was entered last off the stack. -/
  | leave

/-- Emission in the middle of its work. -/
structure Machine where
  /-- The program so far. -/
  program : Program
  /-- The blocks that are being put in, the one that was entered last first. -/
  active : List Key
  /-- What is left to do, in order. -/
  todo : List Task
  /-- The error that is being handed back. -/
  failure : Option GraphError

namespace Machine

/-- A machine that has some steps to do, with blocks on the stack already. -/
def start (active : List Key) (program : Program) (steps : List Step) : Machine :=
  ⟨program, active, steps.map .step, none⟩

/-- Go on with the rest after a change of the program, or fail. -/
def change (machine : Machine) (rest : List Task) : Except GraphError Program → Machine
  | .ok program => { machine with program := program, todo := rest }
  | .error error => { machine with todo := rest, failure := some error }

/-- Carry out a step and go on with the rest. A block that is entered is marked and pushed, and
the steps to its call come before anything else. -/
def carryOut (graph : Graph) (machine : Machine) (rest : List Task) : Step → Machine
  | .demand block phase priority =>
    if machine.active.contains (block.index, phase) then
      machine.change rest (.error (.cycle block.index phase))
    else if machine.program.includes (block.index, phase) then
      { machine with todo := rest }
    else
      { machine with
        program := machine.program.markIncluded (block.index, phase)
        active := (block.index, phase) :: machine.active
        todo := (graph.blockSteps block phase priority).map .step ++ .leave :: rest }
  | .declare phase name type => machine.change rest (machine.program.declare phase name type)
  | .declareExternal uniform => machine.change rest (machine.program.declareExternal uniform)
  | .fail error => machine.change rest (.error error)
  | .add call => machine.change rest (.ok (machine.program.addCall call))

/-- Do the first thing that is left. Once there is an error, steps are skipped, but blocks are
still taken off the stack. A machine with nothing left to do rests. -/
def advance (graph : Graph) (machine : Machine) : Machine :=
  match machine.todo, machine.failure with
  | [], _ => machine
  | .leave :: rest, _ => { machine with active := machine.active.tail, todo := rest }
  | .step _ :: rest, some _ => { machine with todo := rest }
  | .step step :: rest, none => machine.carryOut graph rest step

/-- The machine after a number of steps. -/
def after (graph : Graph) (count : Nat) (machine : Machine) : Machine :=
  (advance graph)^[count] machine

/-- What the machine has to say in the end. -/
def outcome (machine : Machine) : EStateM.Result GraphError Program Unit :=
  match machine.failure with
  | none => .ok () machine.program
  | some error => .error error machine.program

/-- The machine comes to an end, with the given stack and outcome. -/
def Returns (graph : Graph) (machine : Machine) (active : List Key)
    (outcome : EStateM.Result GraphError Program Unit) : Prop :=
  ∃ count, (machine.after graph count).todo = [] ∧ (machine.after graph count).active = active ∧
    (machine.after graph count).outcome = outcome

/-- One machine becomes the other after some steps. -/
def Reaches (graph : Graph) (machine later : Machine) : Prop :=
  ∃ count, machine.after graph count = later

variable {graph : Graph}

/-- The steps of a machine add up. -/
theorem after_add (first second : Nat) (machine : Machine) :
    machine.after graph (first + second) = (machine.after graph first).after graph second := by
  rw [after, Nat.add_comm, Function.iterate_add_apply]
  rfl

/-- The last of some steps. -/
theorem after_succ (count : Nat) (machine : Machine) :
    machine.after graph (count + 1) = (machine.after graph count).advance graph :=
  Function.iterate_succ_apply' ..

namespace Reaches

/-- A machine is where it is. -/
theorem refl (machine : Machine) : Reaches graph machine machine :=
  ⟨0, rfl⟩

/-- A machine goes on from where it got to. -/
theorem trans {first second third : Machine} (early : Reaches graph first second)
    (late : Reaches graph second third) : Reaches graph first third := by
  obtain ⟨count, rfl⟩ := early
  obtain ⟨more, rfl⟩ := late
  exact ⟨count + more, after_add count more first⟩

/-- A machine goes on after its first step. -/
theorem head {first second third : Machine} (step : first.advance graph = second)
    (late : Reaches graph second third) : Reaches graph first third :=
  trans ⟨1, step⟩ late

end Reaches

/-- A block on the stack is asked for again. -/
theorem advance_cycle {path : List Key} {block : Block} {phase : Phase} {priority : Priority}
    {program : Program} {rest : List Task} (inside : (block.index, phase) ∈ path) :
    advance graph ⟨program, path, .step (.demand block phase priority) :: rest, none⟩ =
      ⟨program, path, rest, some (.cycle block.index phase)⟩ := by
  simp only [advance, carryOut, List.contains_iff_mem.mpr inside, if_true]
  rfl

/-- A block that the program holds is asked for. -/
theorem advance_held {path : List Key} {block : Block} {phase : Phase} {priority : Priority}
    {program : Program} {rest : List Task} (outside : (block.index, phase) ∉ path)
    (included : program.includes (block.index, phase) = true) :
    advance graph ⟨program, path, .step (.demand block phase priority) :: rest, none⟩ =
      ⟨program, path, rest, none⟩ := by
  simp only [advance, carryOut, List.contains_eq_mem, outside, decide_false, included, if_true,
    Bool.false_eq_true, if_false]

/-- A block is entered. -/
theorem advance_enter {path : List Key} {block : Block} {phase : Phase} {priority : Priority}
    {program : Program} {rest : List Task} (outside : (block.index, phase) ∉ path)
    (fresh : program.includes (block.index, phase) = false) :
    advance graph ⟨program, path, .step (.demand block phase priority) :: rest, none⟩ =
      ⟨program.markIncluded (block.index, phase), (block.index, phase) :: path,
        (graph.preparation block phase priority).map .step ++
          .step (.add (graph.blockCall block phase priority)) :: .leave :: rest, none⟩ := by
  simp only [advance, carryOut, List.contains_eq_mem, outside, decide_false, fresh,
    Bool.false_eq_true, if_false, Graph.blockSteps_eq, List.map_append, List.append_assoc]
  rfl

/-- Steps that succeed are carried out, with the stack as it was before. -/
theorem reaches_of_follows {path : List Key} {steps : List Step} {program last : Program}
    (follows : Follows graph path steps program last) (rest : List Task) :
    Reaches graph ⟨program, path, steps.map .step ++ rest, none⟩ ⟨last, path, rest, none⟩ := by
  induction follows generalizing rest with
  | done => exact .refl _
  | held outside included next ih => exact .head (advance_held outside included) (ih rest)
  | enter outside fresh inner next innerIh ih =>
    refine .head (advance_enter outside fresh) ((innerIh _).trans ?_)
    -- The call is added and the block taken off the stack.
    exact .head rfl (.head rfl (ih rest))
  | declare declared next ih => exact .head (congrArg (change _ _) declared) (ih rest)
  | declareExternal declared next ih => exact .head (congrArg (change _ _) declared) (ih rest)

/-- After an error the steps that are left are skipped. -/
theorem reaches_skip (program : Program) (path : List Key) (steps : List Step) (rest : List Task)
    (error : GraphError) :
    Reaches graph ⟨program, path, steps.map .step ++ rest, some error⟩
      ⟨program, path, rest, some error⟩ := by
  induction steps with
  | nil => exact .refl _
  | cons step others ih => exact .head rfl ih

/-- The machine fails after some steps: an error comes up, with the given blocks on the stack. -/
structure BreaksAt (graph : Graph) (machine : Machine) (count : Nat) (stack : List Key) :
    Prop where
  /-- Before, all was well. -/
  before : (machine.after graph count).failure = none
  /-- Now there is an error. -/
  broken : (machine.after graph (count + 1)).failure.isSome = true
  /-- The blocks on the stack. -/
  stack : (machine.after graph (count + 1)).active = stack

/-- The machine fails at its next step. -/
theorem breaksAt_zero {machine later : Machine} (step : machine.advance graph = later)
    (before : machine.failure = none) (broken : later.failure.isSome = true) :
    BreaksAt graph machine 0 later.active := by
  refine ⟨before, ?_, ?_⟩
  · rw [after_succ]
    exact step ▸ broken
  · rw [after_succ]
    exact congrArg active step

/-- A machine that gets to where it fails fails. -/
theorem BreaksAt.of_reaches {machine later : Machine} {count : Nat} {stack : List Key}
    (reaches : Reaches graph machine later) (breaks : BreaksAt graph later count stack) :
    ∃ total, BreaksAt graph machine total stack := by
  obtain ⟨steps, rfl⟩ := reaches
  refine ⟨steps + count, ?_, ?_, ?_⟩
  · rw [after_add]
    exact breaks.before
  · rw [Nat.add_assoc, after_add]
    exact breaks.broken
  · rw [Nat.add_assoc, after_add]
    exact breaks.stack

/-- Once there is an error it stays. -/
theorem failure_advance {machine : Machine} (broken : machine.failure.isSome = true) :
    (machine.advance graph).failure.isSome = true := by
  obtain ⟨program, active, todo, failure⟩ := machine
  cases failure with
  | none => contradiction
  | some error =>
    cases todo with
    | nil => rfl
    | cons task rest => cases task <;> rfl

/-- An error that is there at some time is there later. -/
theorem failure_after {machine : Machine} {early late : Nat} (ordered : early ≤ late)
    (broken : (machine.after graph early).failure.isSome = true) :
    (machine.after graph late).failure.isSome = true := by
  induction ordered with
  | refl => exact broken
  | step ordered ih =>
    rw [after_succ]
    exact failure_advance ih

/-- A machine fails once, and with one stack. -/
theorem BreaksAt.unique {machine : Machine} {first second : Nat} {stack other : List Key}
    (breaks : BreaksAt graph machine first stack) (again : BreaksAt graph machine second other) :
    stack = other := by
  have ordered : ∀ {early late : Nat} {stack other : List Key},
      BreaksAt graph machine early stack → BreaksAt graph machine late other → late ≤ early := by
    intro early late stack other breaks again
    by_contra later
    have still := failure_after (Nat.succ_le_of_lt (Nat.lt_of_not_le later)) breaks.broken
    rw [again.before] at still
    contradiction
  have same : first = second := Nat.le_antisymm (ordered again breaks) (ordered breaks again)
  rw [← breaks.stack, same, again.stack]

/-- A step that fails by itself makes the machine fail where it is. -/
theorem breaks_here {path : List Key} {step : Step} {program : Program} {error : GraphError}
    (refused : ∀ rest, advance graph ⟨program, path, .step step :: rest, none⟩ =
      ⟨program, path, rest, some error⟩) (others : List Step) (rest : List Task) :
    (∃ count, BreaksAt graph ⟨program, path, (step :: others).map .step ++ rest, none⟩ count
        path) ∧
      Reaches graph ⟨program, path, (step :: others).map .step ++ rest, none⟩
        ⟨program, path, rest, some error⟩ :=
  ⟨⟨0, breaksAt_zero (refused _) rfl rfl⟩, .head (refused _) (reaches_skip ..)⟩

/-- A machine with nothing left to do rests. -/
theorem after_of_done {machine : Machine} (done : machine.todo = []) (count : Nat) :
    machine.after graph count = machine := by
  induction count with
  | zero => rfl
  | succ count ih => rw [after_succ, ih, advance, done]

/-- A machine that gets to its end without an error does not fail. -/
theorem not_breaksAt {machine : Machine} {last : Program} {active stack : List Key}
    (reaches : Reaches graph machine ⟨last, active, [], none⟩) (count : Nat) :
    ¬BreaksAt graph machine count stack := by
  intro breaks
  obtain ⟨total, reached⟩ := reaches
  have broken : (machine.after graph (total + (count + 1))).failure.isSome = true :=
    failure_after (Nat.le_add_left _ _) breaks.broken
  rw [after_add, reached, after_of_done rfl] at broken
  contradiction

/-- Steps that fail make the machine fail. Some blocks have been entered by then and are on the
stack; the program remembers them, and they have no call. In the end they are off the stack. -/
theorem breaks_of_fails {path : List Key} {steps : List Step} {program left : Program}
    {error : GraphError} (fails : Fails graph path steps program error left) :
    ∃ entered : List Key,
      (∀ others : List Key, program.Tracked (path ++ others) →
        left.Tracked (entered ++ path ++ others)) ∧
      ∀ rest, (∃ count, BreaksAt graph ⟨program, path, steps.map .step ++ rest, none⟩ count
          (entered ++ path)) ∧
        Reaches graph ⟨program, path, steps.map .step ++ rest, none⟩
          ⟨left, path, rest, some error⟩ := by
  induction fails with
  | cycle inside =>
    exact ⟨[], fun _ tracked => tracked, breaks_here (fun _ => advance_cycle inside) _⟩
  | @enter path block phase priority others program left error outside fresh inner ih =>
    obtain ⟨entered, remembered, runs⟩ := ih
    refine ⟨entered ++ [(block.index, phase)], fun beside tracked => ?_, fun rest => ?_⟩
    · simpa using remembered beside (tracked.enter fresh)
    · obtain ⟨⟨count, breaks⟩, ends⟩ := runs (.step (.add (graph.blockCall block phase priority)) ::
        .leave :: (others.map .step ++ rest))
      have entering : Reaches graph ⟨program, path,
          (.demand block phase priority :: others).map .step ++ rest, none⟩ _ :=
        .head (advance_enter outside fresh) (.refl _)
      refine ⟨?_, entering.trans (ends.trans ?_)⟩
      · rw [List.append_assoc]
        exact breaks.of_reaches entering
      · -- The call is skipped, and the block is taken off the stack.
        exact .head rfl (.head rfl (reaches_skip ..))
  | declare refused =>
    refine ⟨[], fun _ tracked => tracked, breaks_here (fun rest => ?_) _⟩
    exact congrArg (change _ rest) refused
  | declareExternal refused =>
    refine ⟨[], fun _ tracked => tracked, breaks_here (fun rest => ?_) _⟩
    exact congrArg (change _ rest) refused
  | fail => exact ⟨[], fun _ tracked => tracked, breaks_here (fun _ => rfl) _⟩
  | @later path step others program middle left error first next ih =>
    obtain ⟨entered, remembered, runs⟩ := ih
    refine ⟨entered, fun beside tracked => remembered beside (first.tracked_beside tracked),
      fun rest => ?_⟩
    obtain ⟨⟨count, breaks⟩, ends⟩ := runs rest
    have firstDone := reaches_of_follows first (others.map .step ++ rest)
    exact ⟨breaks.of_reaches firstDone, firstDone.trans ends⟩

/-- Whatever becomes of some steps, the machine gets past them with the stack as it was before,
and to the program and the error that emission says. The steps may ask for one block besides
those of the graph. -/
theorem reaches_of_follow (block : Block) (active : List Key) {steps : List Step}
    (asked : ∀ other phase priority, Step.demand other phase priority ∈ steps →
      other = block ∨ other ∈ graph.blocks)
    (noCall : ∀ call, Step.add call ∉ steps) (program : Program) (rest : List Task) :
    Reaches graph ⟨program, active, steps.map .step ++ rest, none⟩
      (match follow (ensureWithin graph (depthOf graph) active) steps program with
      | .ok _ last => ⟨last, active, rest, none⟩
      | .error error left => ⟨left, active, rest, some error⟩) := by
  cases ran : follow (ensureWithin graph (depthOf graph) active) steps program with
  | ok _ last => exact reaches_of_follows (follows_of_ok noCall ran) rest
  | error error left =>
    obtain ⟨entered, -, runs⟩ := breaks_of_fails (fails_of_follow_error block asked noCall ran)
    exact (runs rest).2

/-- A machine that gets to where nothing is left to do returns. -/
theorem returns_of_reaches {machine : Machine} {active : List Key} {last : Program}
    {failure : Option GraphError} (reaches : Reaches graph machine ⟨last, active, [], failure⟩) :
    machine.Returns graph active (outcome ⟨last, active, [], failure⟩) := by
  obtain ⟨count, reached⟩ := reaches
  exact ⟨count, by rw [reached], by rw [reached], by rw [reached]⟩

/-- A machine returns from steps that add no call themselves. -/
theorem returns_of_noCall (block : Block) (active : List Key) {steps : List Step}
    (asked : ∀ other phase priority, Step.demand other phase priority ∈ steps →
      other = block ∨ other ∈ graph.blocks)
    (noCall : ∀ call, Step.add call ∉ steps) (program : Program) :
    (start active program steps).Returns graph active
      (follow (ensureWithin graph (depthOf graph) active) steps program) := by
  have reached := reaches_of_follow block active asked noCall program []
  rw [List.append_nil] at reached
  cases ran : follow (ensureWithin graph (depthOf graph) active) steps program with
  | ok _ last =>
    rw [ran] at reached
    exact returns_of_reaches reached
  | error error left =>
    rw [ran] at reached
    exact returns_of_reaches reached

end Machine

/-- The steps to the call of a block ask for blocks of the graph only. -/
theorem mem_blocks_of_demand_mem {graph : Graph} {block producer : Block} {phase asked : Phase}
    {priority rank : Priority}
    (member : Step.demand producer asked rank ∈ graph.blockSteps block phase priority) :
    producer ∈ graph.blocks := by
  rw [Graph.blockSteps_eq, List.mem_append, List.mem_singleton] at member
  rcases member with prepared | same
  · exact (Graph.find?_eq_some.mp (Graph.find?_of_demand_mem prepared)).1
  · contradiction

/-- What can be asked of a program under construction. -/
inductive Ask
  /-- That it holds a block for a phase. -/
  | ensure (block : Block) (phase : Phase) (priority : Priority)
  /-- That an outlet of a block can be read in a phase. -/
  | fetch (block : Block) (phase : Phase) (outlet : Outlet) (priority : Priority)
  /-- That a block is called in a phase, whether the program holds it or not. -/
  | insert (block : Block) (phase : Phase) (priority : Priority)

namespace Ask

/-- The block that is asked for. -/
def block : Ask → Block
  | ensure block _ _ => block
  | fetch block _ _ _ => block
  | insert block _ _ => block

/-- The phase that it is asked for in. -/
def phase : Ask → Phase
  | ensure _ phase _ => phase
  | fetch _ phase _ _ => phase
  | insert _ phase _ => phase

/-- The priority that it is asked for with. -/
def priority : Ask → Priority
  | ensure _ _ priority => priority
  | fetch _ _ _ priority => priority
  | insert _ _ priority => priority

/-- The block and the phase that are asked for. -/
def key (ask : Ask) : Key :=
  (ask.block.index, ask.phase)

/-- Do what is asked. -/
def run (graph : Graph) : Ask → Emission Unit
  | ensure block phase priority => Emission.ensure graph block phase priority
  | fetch block phase outlet priority => do
    let _ ← Emission.fetch graph block phase outlet priority
  | insert block phase priority => Emission.insert graph block phase priority

/-- The steps that do what is asked. -/
def steps (graph : Graph) : Ask → List Step
  | ensure block phase priority => [.demand block phase priority]
  | fetch block phase _ priority => block.demands phase priority
  | insert block phase priority => graph.blockSteps block phase priority

/-- Do what is asked, while some blocks are being put in already. -/
def runWithin (graph : Graph) (active : List Key) (ask : Ask) : Emission Unit :=
  follow (ensureWithin graph (depthOf graph) active) (ask.steps graph)

/-- Whoever asks from outside finds nothing being put in. -/
theorem run_eq (graph : Graph) (ask : Ask) (program : Program) :
    ask.run graph program = ask.runWithin graph [] program := by
  cases ask with
  | ensure block phase priority =>
    rw [runWithin, steps, follow_cons]
    simp only [run, perform, Emission.ensure]
    cases ensureWithin graph (depthOf graph) [] block phase priority program <;> rfl
  | fetch block phase outlet priority =>
    simp only [run, runWithin, steps, Emission.fetch, bind, EStateM.bind]
    have same : follow (Emission.ensure graph) (block.demands phase priority) program =
      follow (ensureWithin graph (depthOf graph) []) (block.demands phase priority) program := rfl
    rw [same]
    cases follow (ensureWithin graph (depthOf graph) []) (block.demands phase priority) program <;>
      rfl
  | insert block phase priority => rfl

/-- The steps ask for blocks of the graph, besides the one in question. -/
theorem eq_or_mem_of_demand_mem {graph : Graph} {ask : Ask} {other : Block} {phase : Phase}
    {priority : Priority} (member : Step.demand other phase priority ∈ ask.steps graph) :
    other = ask.block ∨ other ∈ graph.blocks := by
  cases ask with
  | ensure block asked rank =>
    injection List.mem_singleton.mp member with same
    exact .inl same
  | fetch block asked outlet rank =>
    rcases Graph.mem_demands.mp member with same | ⟨-, -, same⟩
    · injection same with same
      exact .inl same
    · injection same with same
      exact .inl same
  | insert block asked rank => exact .inr (mem_blocks_of_demand_mem member)

/-- Whatever is asked, with whatever blocks on the stack, the machine comes to an end with these
blocks on the stack, and with the outcome that emission says. -/
theorem returns (graph : Graph) (ask : Ask) (program : Program) (active : List Key) :
    (Machine.start active program (ask.steps graph)).Returns graph active
      (ask.runWithin graph active program) := by
  have asked : ∀ other phase priority, Step.demand other phase priority ∈ ask.steps graph →
      other = ask.block ∨ other ∈ graph.blocks := fun _ _ _ => eq_or_mem_of_demand_mem
  cases ask with
  | ensure block phase priority =>
    exact Machine.returns_of_noCall block active asked (by simp [steps]) program
  | fetch block phase outlet priority =>
    exact Machine.returns_of_noCall block active asked (by simp [steps, Graph.mem_demands]) program
  | insert block phase priority =>
    have askedBefore : ∀ other asking rank,
        Step.demand other asking rank ∈ graph.preparation block phase priority →
          other = block ∨ other ∈ graph.blocks :=
      fun other asking rank member =>
        .inr (Graph.find?_eq_some.mp (Graph.find?_of_demand_mem member)).1
    -- The call itself comes last.
    have reached := Machine.reaches_of_follow block active askedBefore
      (graph.add_notMem_preparation block phase priority) program
      [.step (.add (graph.blockCall block phase priority))]
    rw [runWithin, steps, Graph.blockSteps_eq, follow_append, Machine.start, List.map_append]
    cases ran : follow (ensureWithin graph (depthOf graph) active)
        (graph.preparation block phase priority) program with
    | ok _ middle =>
      rw [ran] at reached
      exact Machine.returns_of_reaches (reached.trans (.head rfl (.refl _)))
    | error error left =>
      rw [ran] at reached
      exact Machine.returns_of_reaches (reached.trans (.head rfl (.refl _)))

end Ask

end ShaderBlocks.Emission
