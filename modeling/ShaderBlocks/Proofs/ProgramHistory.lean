import ShaderBlocks.Proofs.CallTyping

/-!
# A program over many requests

A caller may keep one program and ask for one material after the other to be put into it,
with the graph edited in between and with requests that fail. In the middle of a request
the program is not in order: a block is remembered before its call is there, and a failure
can come at any point in between. Between requests it always is. The work is done on a copy
that replaces the program only at the end, and a run that begins in order and succeeds ends
in order; so this holds after any history, whatever graphs and blocks it went through.
-/

namespace ShaderBlocks

open Emission

/-- A request to put a material into a program, with the graph as it is at the time. -/
structure Request where
  /-- The material. -/
  material : Block
  /-- The graph. -/
  graph : Graph

namespace Program

/-- What the caller is told about a request, and the caller's program after it. -/
def serve (program : Program) (request : Request) : Except GraphError Unit × Program :=
  match request.material.compileInto request.graph program with
  | .ok changed => (.ok (), changed)
  | .error error => (.error error, program)

/-- The caller's program after some requests, made one after the other. -/
def serveAll (program : Program) : List Request → Program
  | [] => program
  | request :: rest => (program.serve request).2.serveAll rest

/-- The program that began empty, after some requests. -/
def served (requests : List Request) : Program :=
  Program.empty.serveAll requests

/-- A program is in order. -/
structure WellKept (program : Program) : Prop where
  /-- The program remembers exactly the blocks and phases of its calls. -/
  included : ∀ key, program.includes key = true ↔ key ∈ program.calls.map Call.key
  /-- No block is called twice in a phase. -/
  calledOnce : (program.calls.map Call.key).Nodup
  /-- A phase declares no name twice. -/
  variablesDistinct : ∀ phase, ((program.localsOf phase).map (·.name)).Nodup
  /-- No uniform is declared twice. -/
  externalsDistinct : (program.externals.map (·.name)).Nodup
  /-- Every argument of a call is declared in the phase of the call. -/
  argsDeclared : ∀ call ∈ program.calls, ∀ cell ∈ call.args,
    cell ∈ (program.localsOf call.phase).map (·.name)

/-- The program `after` is the program `before` with more behind it. -/
structure GrowsTo (before after : Program) : Prop where
  /-- Calls are added at the end. -/
  calls : before.calls <+: after.calls
  /-- Variables of a phase are added at the end. -/
  locals : ∀ phase, before.localsOf phase <+: after.localsOf phase
  /-- Uniforms are added at the end. -/
  externals : before.externals <+: after.externals

/-- An extension adds to every phase at the end. -/
theorem Extends.growsTo {before after : Program} (extension : before.Extends after) :
    before.GrowsTo after :=
  ⟨extension.calls, fun _ => extension.locals.filter _, extension.externals⟩

/-- A phase declares a variable of the given name. -/
def Declares (program : Program) (phase : Phase) (cell : String) : Prop :=
  ∃ type, ⟨phase, cell, type⟩ ∈ program.locals

/-- Every call passes variables that its phase declares. -/
def PassesDeclared (program : Program) : Prop :=
  ∀ call ∈ program.calls, ∀ cell ∈ call.args, program.Declares call.phase cell

/-- A program that is kept track of, with nothing left on the path, is in order. -/
theorem Tracked.wellKept {program : Program} (tracked : program.Tracked [])
    (passes : program.PassesDeclared) : program.WellKept where
  included key := by
    simpa [keys] using tracked.included key
  calledOnce := tracked.calledOnce
  variablesDistinct phase := by
    have distinct := (tracked.localsDistinct.of_map _).filter (·.phase = phase)
    refine (List.nodup_map_iff_inj_on distinct).mpr fun first member second secondMember same => ?_
    obtain ⟨firstHeld, firstPhase⟩ := List.mem_filter.mp member
    obtain ⟨secondHeld, secondPhase⟩ := List.mem_filter.mp secondMember
    have samePhase : first.phase = second.phase := by
      rw [of_decide_eq_true firstPhase, of_decide_eq_true secondPhase]
    exact List.inj_on_of_nodup_map tracked.localsDistinct firstHeld secondHeld
      (Prod.ext samePhase same)
  externalsDistinct := tracked.externalsDistinct
  argsDeclared call member cell passed := by
    obtain ⟨type, declared⟩ := passes call member cell passed
    refine List.mem_map.mpr ⟨_, List.mem_filter.mpr ⟨declared, ?_⟩, rfl⟩
    exact decide_eq_true rfl

/-- A call whose preparation is met passes variables that are declared. -/
theorem passesDeclared_of_met {graph : Graph} {block : Block} {phase : Phase} {priority : Priority}
    {program : Program} (met : ∀ step ∈ graph.preparation block phase priority,
      step.Met program program.keys) {cell : String}
    (passed : cell ∈ (graph.blockCall block phase priority).args) :
    program.Declares phase cell := by
  obtain ⟨sameLength, declared⟩ := List.forall₂_iff_get.mp (Graph.callDeclared_of_met met).args
  obtain ⟨position, below, rfl⟩ := List.mem_iff_getElem.mp passed
  exact ⟨_, declared position below (sameLength ▸ below)⟩

/-- Putting a material into a program extends the program, and leaves it with nothing on the
path and with declared arguments if it was so before. -/
theorem compileInto_keeps {graph : Graph} {block : Block} {program after : Program}
    (put : block.compileInto graph program = .ok after) (tracked : program.Tracked [])
    (passes : program.PassesDeclared) :
    program.Extends after ∧ after.Tracked [] ∧ after.PassesDeclared := by
  obtain ⟨-, follows⟩ := follows_of_compileInto put
  refine ⟨follows.extension, follows.tracked tracked, ?_⟩
  refine follows.forall_calls (fun _ => True)
    (fun program call => ∀ cell ∈ call.args, program.Declares call.phase cell) ?_ ?_
    (fun _ => trivial) tracked (fun _ _ _ _ => trivial) passes
  · intro before after call extension declared cell passed
    obtain ⟨type, member⟩ := declared cell passed
    exact ⟨type, extension.locals.subset member⟩
  · intro block phase priority program _ met cell passed
    exact passesDeclared_of_met met passed

/-- One request keeps a program in order. -/
theorem serve_keeps {program : Program} (request : Request) (tracked : program.Tracked [])
    (passes : program.PassesDeclared) :
    (program.serve request).2.Tracked [] ∧ (program.serve request).2.PassesDeclared := by
  unfold serve
  split
  · rename_i changed put
    exact (compileInto_keeps put tracked passes).2
  · exact ⟨tracked, passes⟩

/-- Any requests keep a program in order. -/
theorem serveAll_keeps {program : Program} (requests : List Request)
    (tracked : program.Tracked []) (passes : program.PassesDeclared) :
    (program.serveAll requests).Tracked [] ∧ (program.serveAll requests).PassesDeclared := by
  induction requests generalizing program with
  | nil => exact ⟨tracked, passes⟩
  | cons request rest ih =>
    obtain ⟨nextTracked, nextPasses⟩ := serve_keeps request tracked passes
    exact ih nextTracked nextPasses

/-- After any requests, with whatever materials and graphs and whether they succeeded or
failed, the program is in order: it remembers exactly what it calls, calls nothing twice,
declares no name twice and passes declared variables only. One more request that fails leaves
it exactly as it was, and one that succeeds only adds at the end. -/
theorem served_wellKept (requests : List Request) :
    (served requests).WellKept ∧ ∀ request,
      (∀ error, ((served requests).serve request).1 = .error error →
        ((served requests).serve request).2 = served requests) ∧
      (((served requests).serve request).1 = .ok () →
        (served requests).GrowsTo ((served requests).serve request).2 ∧
          ((served requests).serve request).2.WellKept) := by
  obtain ⟨tracked, passes⟩ : (served requests).Tracked [] ∧ (served requests).PassesDeclared :=
    serveAll_keeps requests .empty (by simp [PassesDeclared, Program.empty])
  refine ⟨tracked.wellKept passes, fun request => ?_⟩
  unfold serve
  split
  · rename_i changed put
    obtain ⟨extension, changedTracked, changedPasses⟩ := compileInto_keeps put tracked passes
    refine ⟨fun error told => ?_, fun _ => ?_⟩
    · contradiction
    · exact ⟨extension.growsTo, changedTracked.wellKept changedPasses⟩
  · refine ⟨fun _ _ => rfl, fun told => ?_⟩
    contradiction

/-- In the sample the surface is first asked for without its links, which fails and leaves the
program empty, and then with them. -/
theorem served_wellKept_sample :
    (Program.empty.serve ⟨Sample.surface none none, Sample.graphWith none none none none⟩).1 =
        .error (.missingConnection 3 "aIn" "aIn") ∧
      served [⟨Sample.surface none none, Sample.graphWith none none none none⟩] = .empty ∧
      (served [⟨Sample.surface none none, Sample.graphWith none none none none⟩,
        ⟨Sample.surface (some Sample.height) (some Sample.scaled), Sample.graph⟩]).calls.map
          Call.key =
        [(1, .vertex), (3, .vertex), (1, .fragment), (2, .fragment), (3, .fragment)] ∧
      (served [⟨Sample.surface none none, Sample.graphWith none none none none⟩,
        ⟨Sample.surface (some Sample.height) (some Sample.scaled), Sample.graph⟩]).WellKept := by
  have refused : (Program.empty.serve ⟨Sample.surface none none,
      Sample.graphWith none none none none⟩).1 =
        .error (.missingConnection 3 "aIn" "aIn") := rfl
  refine ⟨refused, ?_, rfl, (served_wellKept _).1⟩
  exact ((served_wellKept []).2 _).1 _ refused

end Program

end ShaderBlocks
