import Mathlib.Data.List.Induction
import ShaderBlocks.Proofs.CompileSuccess

/-!
# Emission without memory

Emission puts a block into a program once for a phase and remembers that it did. Here is
the same recursion without that memory: whoever asks for a block gets it called anew, with
all that it needs. Where nothing needs itself the two come to the same. They fail alike or
they succeed alike, they declare the same names in the same order, and emission makes the
calls of the plain recursion without those at a place that has been called before.

Two facts carry this. Calling a block again whose call is there already declares nothing new
and calls nothing new; and the blocks that are being called at any time form a path without
repetition, which bounds how deep the plain recursion goes.
-/

namespace ShaderBlocks

/-- Keep a call unless its place is taken. -/
def Call.keep (kept : List Call) (call : Call) : List Call :=
  if (kept.map Call.key).contains call.key then kept else kept ++ [call]

/-- The first call at every place, in order. -/
def Call.firsts (calls : List Call) : List Call :=
  calls.foldl Call.keep []

namespace Emission

/-- Call a block in a phase after all that it needs, whatever the program holds. -/
def expandWithin (graph : Graph) : (depth : Nat) → Block → Phase → Priority → Emission Unit
  | 0, block, phase, _ => throw (.cycle block.index phase)
  | depth + 1, block, phase, priority =>
    follow (expandWithin graph depth) (graph.blockSteps block phase priority)

/-- Call a material in every phase after all that it needs, whatever the program holds. -/
def expandAll (graph : Graph) (depth : Nat) (block : Block) : Emission Unit :=
  follow (expandWithin graph depth) (roots block)

/-- Calling a block is preparing it and adding the call. -/
theorem expandWithin_succ (graph : Graph) (depth : Nat) (block : Block) (phase : Phase)
    (priority : Priority) (program : Program) :
    expandWithin graph (depth + 1) block phase priority program =
      match follow (expandWithin graph depth) (graph.preparation block phase priority) program with
      | .ok _ middle => .ok () (middle.addCall (graph.blockCall block phase priority))
      | .error error left => .error error left := by
  rw [expandWithin, Graph.blockSteps_eq, follow_append]
  cases follow (expandWithin graph depth) (graph.preparation block phase priority) program <;> rfl

end Emission

namespace Call

/-- A call at a place that is taken is not kept. -/
theorem keep_of_mem {kept : List Call} {call : Call} (taken : call.key ∈ kept.map Call.key) :
    keep kept call = kept := by
  rw [keep, if_pos (List.contains_iff_mem.mpr taken)]

/-- A call at a new place is kept. -/
theorem keep_of_notMem {kept : List Call} {call : Call} (fresh : call.key ∉ kept.map Call.key) :
    keep kept call = kept ++ [call] := by
  rw [keep, if_neg (mt List.contains_iff_mem.mp fresh)]

/-- One more call is kept unless its place is taken. -/
theorem firsts_concat (calls : List Call) (call : Call) :
    firsts (calls ++ [call]) = keep (firsts calls) call := by
  rw [firsts, List.foldl_append]
  rfl

/-- No place is lost and none is new. -/
theorem mem_keys_firsts {calls : List Call} {key : Key} :
    key ∈ (firsts calls).map Call.key ↔ key ∈ calls.map Call.key := by
  induction calls using List.reverseRecOn with
  | nil => rfl
  | append_singleton calls call ih =>
    rw [firsts_concat, List.map_append, List.mem_append, ← ih]
    by_cases taken : call.key ∈ (firsts calls).map Call.key
    · rw [keep_of_mem taken]
      constructor
      · exact .inl
      · rintro (held | isCall)
        · exact held
        · rw [List.map_singleton, List.mem_singleton] at isCall
          exact isCall ▸ taken
    · rw [keep_of_notMem taken, List.map_append, List.mem_append]

/-- Calls at places that are taken change nothing. -/
theorem firsts_append_of_taken {calls extra : List Call}
    (taken : ∀ call ∈ extra, call.key ∈ calls.map Call.key) :
    firsts (calls ++ extra) = firsts calls := by
  induction extra using List.reverseRecOn with
  | nil => rw [List.append_nil]
  | append_singleton extra call ih =>
    have same := ih fun other member => taken other (List.mem_append_left _ member)
    have here := taken call (List.mem_append_right _ List.mem_cons_self)
    rw [← List.append_assoc, firsts_concat, same, keep_of_mem (mem_keys_firsts.mpr here)]

end Call

namespace Program

/-- The names that a program declares are distinct in their scopes. -/
structure NamesDistinct (program : Program) : Prop where
  /-- A phase declares a variable once. -/
  locals : (program.locals.map fun cell => (cell.phase, cell.name)).Nodup
  /-- A uniform is declared once. -/
  externals : (program.externals.map (·.name)).Nodup

/-- To declare a variable again changes nothing. -/
theorem declare_of_mem {program : Program} (distinct : program.NamesDistinct) {phase : Phase}
    {name : String} {type : ValueType} (member : ⟨phase, name, type⟩ ∈ program.locals) :
    program.declare phase name type = .ok program := by
  cases declared : program.declare phase name type with
  | ok after =>
    rcases declare_eq_ok declared with ⟨rfl, -⟩ | ⟨-, absent⟩
    · rfl
    · exact absurd ⟨rfl, rfl⟩ (absent _ member)
  | error error =>
    obtain ⟨held, heldMember, clash, -⟩ := declare_eq_error declared
    have same := List.inj_on_of_nodup_map distinct.locals heldMember member rfl
    exact absurd (congrArg Variable.type same) clash

/-- To declare a uniform again changes nothing. -/
theorem declareExternal_of_mem {program : Program} (distinct : program.NamesDistinct)
    {uniform held : Uniform} (member : held ∈ program.externals)
    (sameName : held.name = uniform.name) (sameType : held.type = uniform.type) :
    program.declareExternal uniform = .ok program := by
  cases declared : program.declareExternal uniform with
  | ok after =>
    rcases declareExternal_eq_ok declared with ⟨rfl, -⟩ | ⟨-, absent⟩
    · rfl
    · exact absurd sameName (absent _ member)
  | error error =>
    obtain ⟨other, otherMember, otherName, clash, -⟩ := declareExternal_eq_error declared
    have same := List.inj_on_of_nodup_map distinct.externals otherMember member
      (otherName.trans sameName.symm)
    exact absurd ((congrArg Uniform.type same).trans sameType) clash

/-- The program `after` is `before` with calls repeated at places that it calls already. -/
structure Repeats (before after : Program) : Prop where
  /-- The variables are the same. -/
  locals : after.locals = before.locals
  /-- The uniforms are the same. -/
  externals : after.externals = before.externals
  /-- Calls are added, at places that are taken. -/
  calls : ∃ extra, after.calls = before.calls ++ extra ∧ ∀ call ∈ extra, call.key ∈ before.keys

namespace Repeats

/-- Nothing need be repeated. -/
theorem refl (program : Program) : Repeats program program :=
  ⟨rfl, rfl, [], by simp, by simp⟩

/-- Repeating extends a program. -/
theorem extension {before after : Program} (repeats : Repeats before after) :
    before.Extends after := by
  obtain ⟨locals, externals, extra, calls, -⟩ := repeats
  exact ⟨calls ▸ List.prefix_append _ _, locals ▸ List.prefix_rfl, externals ▸ List.prefix_rfl⟩

/-- Repeating takes no new place. -/
theorem keys_subset {before after : Program} (repeats : Repeats before after) :
    after.keys ⊆ before.keys := by
  obtain ⟨-, -, extra, calls, taken⟩ := repeats
  intro key member
  rw [keys, calls, List.map_append, List.mem_append] at member
  rcases member with held | isExtra
  · exact held
  · obtain ⟨call, inExtra, rfl⟩ := List.mem_map.mp isExtra
    exact taken call inExtra

/-- Repeating more than once. -/
theorem trans {first second third : Program} (early : Repeats first second)
    (late : Repeats second third) : Repeats first third := by
  have noNew := early.keys_subset
  obtain ⟨locals, externals, extra, calls, taken⟩ := early
  obtain ⟨lateLocals, lateExternals, more, lateCalls, lateTaken⟩ := late
  refine ⟨lateLocals.trans locals, lateExternals.trans externals, extra ++ more, ?_, ?_⟩
  · rw [lateCalls, calls, List.append_assoc]
  · intro call member
    rcases List.mem_append.mp member with inExtra | inMore
    · exact taken call inExtra
    · exact noNew (lateTaken call inMore)

/-- A call may be repeated. -/
theorem addCall {before after : Program} (repeats : Repeats before after) {call : Call}
    (taken : call.key ∈ before.keys) : Repeats before (after.addCall call) := by
  obtain ⟨locals, externals, extra, calls, extraTaken⟩ := repeats
  refine ⟨locals, externals, extra ++ [call], ?_, ?_⟩
  · rw [Program.addCall, calls, List.append_assoc]
  · intro other member
    rcases List.mem_append.mp member with inExtra | isCall
    · exact extraTaken other inExtra
    · exact List.mem_singleton.mp isCall ▸ taken

/-- Names stay distinct. -/
theorem namesDistinct {before after : Program} (repeats : Repeats before after)
    (distinct : before.NamesDistinct) : after.NamesDistinct :=
  ⟨repeats.locals ▸ distinct.locals, repeats.externals ▸ distinct.externals⟩

end Repeats

end Program

namespace Graph

open Emission Program

/-- A step that is met is met by the same step at any priority. -/
theorem met_preparation {graph : Graph} {block : Block} {phase : Phase} {priority : Priority}
    {program : Program} {places : List Key}
    (met : ∀ step ∈ graph.preparation block phase priority, step.Met program places)
    (rank : Priority) : ∀ step ∈ graph.preparation block phase rank, step.Met program places := by
  have demanded : ∀ {slot : Slot} {producer : Block},
      slot ∈ graph.slots block.index block.node (block.fragmentFor phase) →
      (∀ step ∈ producer.demands phase (priority + 1), step ∈ slot.steps phase priority) →
        ∀ step ∈ producer.demands phase (rank + 1), step.Met program places := by
    intro slot producer slotMember included step member
    have here : ∀ other ∈ producer.demands phase (priority + 1), other.Met program places :=
      fun other asked => met other (List.mem_flatMap.mpr ⟨slot, slotMember, included other asked⟩)
    rcases mem_demands.mp member with rfl | second
    · exact here (.demand producer phase (priority + 1)) (mem_demands.mpr (.inl rfl))
    · exact here step (mem_demands.mpr (.inr second))
  intro step member
  obtain ⟨slot, slotMember, stepMember⟩ := List.mem_flatMap.mp member
  have same : step ∈ slot.steps phase priority → step.Met program places :=
    fun inSteps => met step (List.mem_flatMap.mpr ⟨slot, slotMember, inSteps⟩)
  cases slot with
  | output name type => exact same stepMember
  | external uniform => exact same stepMember
  | broken error => exact same stepMember
  | input producer name type =>
    rcases List.mem_append.mp stepMember with inDemands | isDeclare
    · exact demanded slotMember (fun _ => List.mem_append_left _) step inDemands
    · exact same (List.mem_append_right _ isDeclare)
  | replaced uniform producer name =>
    rcases List.mem_append.mp stepMember with inDemands | isDeclare
    · exact demanded slotMember (fun _ => List.mem_append_left _) step inDemands
    · exact same (List.mem_append_right _ isDeclare)

/-- An endpoint that leads nowhere names a block or an outlet that is not there. -/
theorem resolve_eq_error {graph : Graph} {endpoint : Endpoint} {error : GraphError}
    (failed : graph.resolve endpoint = .error error) :
    error = .unknownBlock endpoint.block ∨
      ∃ block, error = .unknownOutlet block endpoint.outlet := by
  simp only [resolve_eq, get, Node.get, bind, Except.bind] at failed
  cases found : graph.find? endpoint.block with
  | none =>
    simp only [found, Except.error.injEq] at failed
    exact .inl failed.symm
  | some owner =>
    simp only [found] at failed
    split at failed
    · next _ reason noOutlet =>
      obtain ⟨rfl⟩ := failed
      split at noOutlet
      · contradiction
      · exact .inr ⟨_, (Except.error.inj noOutlet).symm⟩
    · contradiction

/-- A preparation never gives up because of a cycle. -/
theorem ne_cycle_of_fail_mem {graph : Graph} {block : Block} {phase : Phase} {priority : Priority}
    {error : GraphError} (member : .fail error ∈ graph.preparation block phase priority) :
    ∀ index stage, error ≠ .cycle index stage := by
  cases slotFor_broken_of_fail_mem member with
  | unknown => simp
  | missing => simp
  | unresolved described fed failed =>
    rcases resolve_eq_error failed with rfl | ⟨block, rfl⟩ <;> simp

/-- Whatever the call of a block of the graph asks for is there, if the call is. -/
def Settled (graph : Graph) (program : Program) : Prop :=
  ∀ block phase priority, graph.find? block.index = some block →
    (block.index, phase) ∈ program.keys →
      ∀ step ∈ graph.preparation block phase priority, step.Met program program.keys

/-- Where every call is placed, what the calls ask for is there. -/
theorem Placed.settled {graph : Graph} {program : Program} (placed : graph.Placed program) :
    graph.Settled program := by
  intro block phase priority found called
  obtain ⟨call, member, place⟩ := List.mem_map.mp called
  obtain ⟨before, after, split⟩ := List.append_of_mem member
  obtain ⟨other, rank, otherFound, isCall, met⟩ := placed before call after split
  have otherPlace : call.key = (other.index, call.phase) := congrArg Call.key isCall
  obtain ⟨sameIndex, samePhase⟩ := Prod.mk.inj (otherPlace.symm.trans place)
  obtain rfl : other = block := Option.some.inj (otherFound.symm.trans (sameIndex ▸ found))
  rw [samePhase] at met
  refine met_preparation (fun step stepMember => (met step stepMember).mono (.refl _) ?_) priority
  rw [keys, split, List.map_append]
  exact List.subset_append_left _ _

/-- Repeating calls leaves a program settled. -/
theorem Settled.repeats {graph : Graph} {before after : Program} (settled : graph.Settled before)
    (repeats : before.Repeats after) : graph.Settled after := by
  intro block phase priority found called step member
  have met := settled block phase priority found (repeats.keys_subset called) step member
  exact met.mono repeats.extension repeats.extension.keys_subset

/-- The blocks that are being called: none twice for a phase, and all in the graph. -/
structure Trail (graph : Graph) (path : List Key) : Prop where
  /-- No block is met twice for a phase. -/
  distinct : path.Nodup
  /-- The blocks are in the graph. -/
  within : ∀ key ∈ path, key.1 ∈ graph.blocks.map (·.index)

/-- The depth that is left covers all trails that go on from a path. -/
def Covers (graph : Graph) (depth : Nat) (path : List Key) : Prop :=
  2 * graph.size < depth + path.length

/-- All the blocks that some steps ask for are needed by the blocks on the path. -/
def AskedBelow (graph : Graph) (material : BlockIndex) (path : List Key) (steps : List Step) :
    Prop :=
  ∀ block phase priority, .demand block phase priority ∈ steps →
    graph.Justified material path (.demand block phase priority)

section Acyclic

variable {graph : Graph} {material : BlockIndex}
  (acyclic : ∀ key, graph.Needed material key → ¬Relation.TransGen graph.Needs key key)

include acyclic

/-- Where nothing needs itself, a block that is asked for is not on the path. -/
theorem notMem_path {path : List Key} {block : Block} {phase : Phase} {priority : Priority}
    (asked : graph.Justified material path (.demand block phase priority)) :
    (block.index, phase) ∉ path := by
  obtain ⟨-, needed, reached⟩ := asked
  exact fun inPath => acyclic _ needed (reached _ inPath)

/-- The trail goes on to a block that is asked for. -/
theorem Trail.cons {path : List Key} (trail : graph.Trail path) {block : Block} {phase : Phase}
    {priority : Priority} (asked : graph.Justified material path (.demand block phase priority)) :
    graph.Trail ((block.index, phase) :: path) := by
  refine ⟨List.nodup_cons.mpr ⟨notMem_path acyclic asked, trail.distinct⟩, ?_⟩
  intro key member
  rcases List.mem_cons.mp member with rfl | inPath
  · exact List.mem_map_of_mem (find?_eq_some.mp asked.1).1
  · exact trail.within key inPath

end Acyclic

/-- While the depth covers all trails, there is depth left. -/
theorem Trail.exists_succ {graph : Graph} {path : List Key} {depth : Nat}
    (trail : graph.Trail path) (covers : graph.Covers depth path) :
    ∃ less, depth = less + 1 ∧ ∀ key, graph.Covers less (key :: path) := by
  have short := length_le_of_nodup trail.distinct trail.within
  rw [List.length_map] at short
  simp only [Covers, Graph.size, List.length_cons] at covers ⊢
  cases depth with
  | zero => omega
  | succ less => exact ⟨less, rfl, fun _ => by omega⟩

section Acyclic

variable {graph : Graph} {material : BlockIndex}
  (acyclic : ∀ key, graph.Needed material key → ¬Relation.TransGen graph.Needs key key)

include acyclic

/-- To follow steps again that are met only repeats calls. -/
theorem follow_expand_of_met {depth : Nat} {path : List Key} {steps : List Step}
    {program : Program} (trail : graph.Trail path) (covers : graph.Covers depth path)
    (asked : graph.AskedBelow material path steps) (distinct : program.NamesDistinct)
    (settled : graph.Settled program) (met : ∀ step ∈ steps, step.Met program program.keys) :
    ∃ after, follow (expandWithin graph depth) steps program = .ok () after ∧
      program.Repeats after := by
  induction depth generalizing path steps program with
  | zero =>
    obtain ⟨_, impossible, -⟩ := trail.exists_succ covers
    contradiction
  | succ depth ih =>
    induction steps generalizing program with
    | nil => exact ⟨program, rfl, .refl _⟩
    | cons step rest restIh =>
      obtain ⟨metHere, metLater⟩ := List.forall_mem_cons.mp met
      have askedLater : graph.AskedBelow material path rest :=
        fun block phase priority member =>
          asked block phase priority (List.mem_cons_of_mem _ member)
      -- What one step comes to, and then the others.
      have goOn : ∀ {middle : Program},
          perform (expandWithin graph (depth + 1)) step program = .ok () middle →
          program.Repeats middle →
          ∃ after, follow (expandWithin graph (depth + 1)) (step :: rest) program = .ok () after ∧
            program.Repeats after := by
        intro middle performed repeats
        obtain ⟨after, ran, more⟩ := restIh askedLater (repeats.namesDistinct distinct)
          (settled.repeats repeats) fun other member =>
            (metLater other member).mono repeats.extension repeats.extension.keys_subset
        rw [follow_cons, performed]
        exact ⟨after, ran, repeats.trans more⟩
      cases step with
      | demand block phase priority =>
        have justified := asked block phase priority List.mem_cons_self
        obtain ⟨_, same, covered⟩ := trail.exists_succ covers
        obtain rfl := Nat.succ.inj same
        obtain ⟨middle, prepared, repeats⟩ := ih (trail.cons acyclic justified) (covered _)
          (fun _ _ _ => justified_of_demand_mem justified.1 justified.2.1 justified.2.2)
          distinct settled (settled block phase priority justified.1 metHere)
        have repeated : program.Repeats
            (middle.addCall (graph.blockCall block phase priority)) := repeats.addCall metHere
        refine goOn ?_ repeated
        rw [perform, expandWithin_succ, prepared]
      | declare phase name type =>
        refine goOn ?_ (.refl _)
        rw [perform, change_eq, declare_of_mem distinct metHere]
      | declareExternal uniform =>
        obtain ⟨held, member, sameName, sameType⟩ := metHere
        refine goOn ?_ (.refl _)
        rw [perform, change_eq, declareExternal_of_mem distinct member sameName sameType]
      | fail error => exact metHere.elim
      | add call =>
        exact goOn rfl ((Repeats.refl _).addCall (List.mem_map_of_mem metHere))

end Acyclic

/-- A program of the plain recursion beside one of emission: the names are the same, and
emission has made the first call at every place. -/
structure Mirrors (program plain : Program) : Prop where
  /-- The variables are the same. -/
  locals : plain.locals = program.locals
  /-- The uniforms are the same. -/
  externals : plain.externals = program.externals
  /-- Emission makes the first calls. -/
  calls : program.calls = Call.firsts plain.calls

namespace Mirrors

variable {program plain : Program}

/-- The places are the same. -/
theorem mem_keys (mirrors : Mirrors program plain) {key : Key} :
    key ∈ plain.keys ↔ key ∈ program.keys := by
  rw [keys, keys, mirrors.calls]
  exact Call.mem_keys_firsts.symm

/-- What is met in the one is met in the other. -/
theorem met (mirrors : Mirrors program plain) {step : Step} (noCall : ∀ call, step ≠ .add call)
    (met : step.Met program program.keys) : step.Met plain plain.keys := by
  cases step with
  | demand block phase priority => exact mirrors.mem_keys.mpr met
  | declare phase name type =>
    change _ ∈ plain.locals
    rw [mirrors.locals]
    exact met
  | declareExternal uniform =>
    change ∃ held ∈ plain.externals, _
    rw [mirrors.externals]
    exact met
  | fail error => exact met
  | add call => exact absurd rfl (noCall call)

/-- The names are distinct in both. -/
theorem namesDistinct (mirrors : Mirrors program plain) {path : List Key}
    (tracked : program.Tracked path) : plain.NamesDistinct :=
  ⟨mirrors.locals ▸ tracked.localsDistinct, mirrors.externals ▸ tracked.externalsDistinct⟩

/-- Both are settled. -/
theorem settled (mirrors : Mirrors program plain) {graph : Graph}
    (placed : graph.Placed program) : graph.Settled plain := by
  intro block phase priority found called step member
  have met := placed.settled block phase priority found (mirrors.mem_keys.mp called) step member
  refine mirrors.met (fun call isAdd => ?_) met
  exact graph.add_notMem_preparation block phase priority call (isAdd ▸ member)

/-- Remembering a block changes nothing that the plain recursion has. -/
theorem markIncluded (mirrors : Mirrors program plain) (key : Key) :
    Mirrors (program.markIncluded key) plain := by
  obtain ⟨-, calls, locals, externals⟩ := program.markIncluded_keys key
  exact ⟨mirrors.locals.trans locals.symm, mirrors.externals.trans externals.symm,
    calls.trans mirrors.calls⟩

/-- Repeated calls are not made by emission. -/
theorem repeats (mirrors : Mirrors program plain) {after : Program}
    (repeats : plain.Repeats after) : Mirrors program after := by
  obtain ⟨locals, externals, extra, calls, taken⟩ := repeats
  refine ⟨locals.trans mirrors.locals, externals.trans mirrors.externals, ?_⟩
  rw [calls, Call.firsts_append_of_taken taken, mirrors.calls]

/-- A call at a new place is made by both. -/
theorem addCall (mirrors : Mirrors program plain) {call : Call} (fresh : call.key ∉ program.keys) :
    Mirrors (program.addCall call) (plain.addCall call) := by
  refine ⟨mirrors.locals, mirrors.externals, ?_⟩
  have free : call.key ∉ (Call.firsts plain.calls).map Call.key := mirrors.calls ▸ fresh
  rw [Program.addCall, Program.addCall, Call.firsts_concat, Call.keep_of_notMem free,
    mirrors.calls]

/-- Both declare a variable alike. -/
theorem declare (mirrors : Mirrors program plain) (phase : Phase) (name : String)
    (type : ValueType) :
    (∀ after, program.declare phase name type = .ok after →
      ∃ plainAfter, plain.declare phase name type = .ok plainAfter ∧ Mirrors after plainAfter) ∧
    ∀ error, program.declare phase name type = .error error →
      plain.declare phase name type = .error error := by
  simp only [Program.declare, localsOf, mirrors.locals]
  split
  · split
    · refine ⟨fun after same => ⟨plain, rfl, ?_⟩, fun error failed => by contradiction⟩
      cases same
      exact mirrors
    · refine ⟨fun after same => ?_, fun error failed => failed⟩
      contradiction
  · refine ⟨fun after same => ⟨_, rfl, ?_⟩, fun error failed => by contradiction⟩
    cases same
    exact ⟨rfl, mirrors.externals, mirrors.calls⟩

/-- Both declare a uniform alike. -/
theorem declareExternal (mirrors : Mirrors program plain) (uniform : Uniform) :
    (∀ after, program.declareExternal uniform = .ok after →
      ∃ plainAfter, plain.declareExternal uniform = .ok plainAfter ∧ Mirrors after plainAfter) ∧
    ∀ error, program.declareExternal uniform = .error error →
      plain.declareExternal uniform = .error error := by
  simp only [Program.declareExternal, mirrors.externals]
  split
  · split
    · refine ⟨fun after same => ⟨plain, rfl, ?_⟩, fun error failed => by contradiction⟩
      cases same
      exact mirrors
    · refine ⟨fun after same => ?_, fun error failed => failed⟩
      contradiction
  · refine ⟨fun after same => ⟨_, rfl, ?_⟩, fun error failed => by contradiction⟩
    cases same
    exact ⟨mirrors.locals, rfl, mirrors.calls⟩

end Mirrors

/-- Emission and the plain recursion are at the same point: the blocks on the path are being
called, with some depth left. -/
structure Abreast (graph : Graph) (path : List Key) (depth : Nat) (program plain : Program) :
    Prop where
  /-- Emission keeps track of blocks and names. -/
  tracked : program.Tracked path
  /-- Every call of emission is placed. -/
  placed : graph.Placed program
  /-- The path is a trail. -/
  trail : graph.Trail path
  /-- The depth covers all trails that go on from the path. -/
  covers : graph.Covers depth path
  /-- The programs mirror each other. -/
  mirrors : Mirrors program plain

namespace Abreast

variable {graph : Graph} {material : BlockIndex} {path : List Key} {depth : Nat}
  {program plain : Program}

/-- Both may begin to call a block that emission does not hold. -/
theorem enter (abreast : graph.Abreast path depth program plain)
    (acyclic : ∀ key, graph.Needed material key → ¬Relation.TransGen graph.Needs key key)
    {block : Block} {phase : Phase} {priority : Priority}
    (asked : graph.Justified material path (.demand block phase priority))
    (fresh : program.includes (block.index, phase) = false) :
    ∃ less, depth = less + 1 ∧ graph.Abreast ((block.index, phase) :: path) less
      (program.markIncluded (block.index, phase)) plain := by
  obtain ⟨less, isSucc, covered⟩ := abreast.trail.exists_succ abreast.covers
  refine ⟨less, isSucc, ⟨abreast.tracked.enter fresh, ?_, abreast.trail.cons acyclic asked,
    covered _, abreast.mirrors.markIncluded _⟩⟩
  exact abreast.placed.mono (extends_markIncluded _ _) (program.markIncluded_keys _).2.1

/-- Both add the call of a block that is prepared. -/
theorem leave {block : Block} {phase : Phase} {less : Nat} {priority : Priority}
    {middle plainMiddle : Program}
    (inner : graph.Abreast ((block.index, phase) :: path) less middle plainMiddle)
    (trail : graph.Trail path) (covers : graph.Covers depth path)
    (found : graph.find? block.index = some block) (outside : (block.index, phase) ∉ path)
    (met : ∀ step ∈ graph.preparation block phase priority, step.Met middle middle.keys) :
    graph.Abreast path depth (middle.addCall (graph.blockCall block phase priority))
      (plainMiddle.addCall (graph.blockCall block phase priority)) where
  tracked := inner.tracked.leave outside rfl
  placed := inner.placed.addCall found met
  trail := trail
  covers := covers
  mirrors := inner.mirrors.addCall (inner.tracked.uncalled _ List.mem_cons_self)

/-- Both declare a variable. -/
theorem declare (abreast : graph.Abreast path depth program plain) {phase : Phase} {name : String}
    {type : ValueType} {after : Program} (declared : program.declare phase name type = .ok after) :
    ∃ plainAfter, plain.declare phase name type = .ok plainAfter ∧
      graph.Abreast path depth after plainAfter := by
  obtain ⟨plainAfter, plainDeclared, mirrors⟩ :=
    (abreast.mirrors.declare phase name type).1 after declared
  refine ⟨plainAfter, plainDeclared, abreast.tracked.declare declared,
    abreast.placed.mono (extends_declare declared) ?_, abreast.trail, abreast.covers, mirrors⟩
  rcases declare_eq_ok declared with ⟨rfl, -⟩ | ⟨rfl, -⟩ <;> rfl

/-- Both declare a uniform. -/
theorem declareExternal (abreast : graph.Abreast path depth program plain) {uniform : Uniform}
    {after : Program} (declared : program.declareExternal uniform = .ok after) :
    ∃ plainAfter, plain.declareExternal uniform = .ok plainAfter ∧
      graph.Abreast path depth after plainAfter := by
  obtain ⟨plainAfter, plainDeclared, mirrors⟩ :=
    (abreast.mirrors.declareExternal uniform).1 after declared
  refine ⟨plainAfter, plainDeclared, abreast.tracked.declareExternal declared,
    abreast.placed.mono (extends_declareExternal declared) ?_, abreast.trail, abreast.covers,
    mirrors⟩
  rcases declareExternal_eq_ok declared with ⟨rfl, -⟩ | ⟨rfl, -⟩ <;> rfl

end Abreast

/-- Nothing is asked for above the path by the steps that remain. -/
theorem AskedBelow.tail {graph : Graph} {material : BlockIndex} {path : List Key} {step : Step}
    {rest : List Step} (asked : graph.AskedBelow material path (step :: rest)) :
    graph.AskedBelow material path rest :=
  fun block phase priority member => asked block phase priority (List.mem_cons_of_mem _ member)

/-- Preparing a block asks for what is needed by the block and by the path. -/
theorem AskedBelow.preparation {graph : Graph} {material : BlockIndex} {path : List Key}
    {block : Block} {phase : Phase} {priority : Priority}
    (asked : graph.Justified material path (.demand block phase priority)) :
    graph.AskedBelow material ((block.index, phase) :: path)
      (graph.preparation block phase priority) :=
  fun _ _ _ member => justified_of_demand_mem asked.1 asked.2.1 asked.2.2 member

section Acyclic

variable {graph : Graph} {material : BlockIndex}
  (acyclic : ∀ key, graph.Needed material key → ¬Relation.TransGen graph.Needs key key)

include acyclic

/-- What emission succeeds in, the plain recursion succeeds in. -/
theorem expand_of_follows {path : List Key} {steps : List Step} {program last : Program}
    (follows : Follows graph path steps program last) {depth : Nat} {plain : Program}
    (abreast : graph.Abreast path depth program plain)
    (asked : graph.AskedBelow material path steps) :
    ∃ after, follow (expandWithin graph depth) steps plain = .ok () after ∧
      graph.Abreast path depth last after := by
  induction follows generalizing depth plain with
  | done => exact ⟨plain, rfl, abreast⟩
  | @held path block phase priority rest program last outside included next ih =>
    -- The block has its call, so calling it again only repeats calls.
    have called := ((abreast.tracked.included _).mp included).resolve_left outside
    have askedFirst : graph.AskedBelow material path [.demand block phase priority] := by
      intro other stage rank member
      rw [List.mem_singleton] at member
      exact member ▸ asked block phase priority List.mem_cons_self
    have metFirst : ∀ step ∈ [Step.demand block phase priority],
        step.Met plain plain.keys := by
      intro step member
      rw [List.mem_singleton.mp member]
      exact abreast.mirrors.mem_keys.mpr called
    obtain ⟨middle, repeated, repeats⟩ := follow_expand_of_met acyclic abreast.trail
      abreast.covers askedFirst (abreast.mirrors.namesDistinct abreast.tracked)
      (abreast.mirrors.settled abreast.placed) metFirst
    have abreastMiddle : graph.Abreast path depth program middle :=
      { abreast with mirrors := abreast.mirrors.repeats repeats }
    obtain ⟨after, ran, abreastAfter⟩ := ih abreastMiddle asked.tail
    refine ⟨after, ?_, abreastAfter⟩
    rw [← List.singleton_append, follow_append, repeated]
    exact ran
  | @enter path block phase priority rest program middle last outside fresh inner next innerIh ih =>
    have justified := asked block phase priority List.mem_cons_self
    obtain ⟨less, rfl, entered⟩ := abreast.enter acyclic justified fresh
    obtain ⟨plainMiddle, prepared, abreastMiddle⟩ := innerIh entered (.preparation justified)
    have left := abreastMiddle.leave abreast.trail abreast.covers justified.1 outside
      (inner.met entered.tracked)
    obtain ⟨after, ran, abreastAfter⟩ := ih left asked.tail
    refine ⟨after, ?_, abreastAfter⟩
    rw [follow_cons, perform, expandWithin_succ, prepared]
    exact ran
  | declare declared next ih =>
    obtain ⟨plainMiddle, plainDeclared, abreastMiddle⟩ := abreast.declare declared
    obtain ⟨after, ran, abreastAfter⟩ := ih abreastMiddle asked.tail
    refine ⟨after, ?_, abreastAfter⟩
    rw [follow_cons, perform, change_eq, plainDeclared]
    exact ran
  | declareExternal declared next ih =>
    obtain ⟨plainMiddle, plainDeclared, abreastMiddle⟩ := abreast.declareExternal declared
    obtain ⟨after, ran, abreastAfter⟩ := ih abreastMiddle asked.tail
    refine ⟨after, ?_, abreastAfter⟩
    rw [follow_cons, perform, change_eq, plainDeclared]
    exact ran

/-- Where emission fails, the plain recursion fails with the same error. -/
theorem expand_of_fails {path : List Key} {steps : List Step} {program left : Program}
    {error : GraphError} (fails : Fails graph path steps program error left) {depth : Nat}
    {plain : Program} (abreast : graph.Abreast path depth program plain)
    (asked : graph.AskedBelow material path steps) :
    ∃ plainLeft, follow (expandWithin graph depth) steps plain = .error error plainLeft := by
  induction fails generalizing depth plain with
  | cycle inside =>
    exact absurd inside (notMem_path acyclic (asked _ _ _ List.mem_cons_self))
  | @enter path block phase priority rest program left error outside fresh inner ih =>
    have justified := asked block phase priority List.mem_cons_self
    obtain ⟨less, rfl, entered⟩ := abreast.enter acyclic justified fresh
    obtain ⟨plainLeft, failed⟩ := ih entered (.preparation justified)
    refine ⟨plainLeft, ?_⟩
    rw [follow_cons, perform, expandWithin_succ, failed]
  | @declare path phase name type rest program error refused =>
    refine ⟨plain, ?_⟩
    rw [follow_cons, perform, change_eq, (abreast.mirrors.declare phase name type).2 _ refused]
  | @declareExternal path uniform rest program error refused =>
    refine ⟨plain, ?_⟩
    rw [follow_cons, perform, change_eq, (abreast.mirrors.declareExternal uniform).2 _ refused]
  | fail => exact ⟨plain, rfl⟩
  | @later path step rest program middle left error first next ih =>
    have askedFirst : graph.AskedBelow material path [step] := by
      intro block phase priority member
      rw [List.mem_singleton] at member
      exact asked block phase priority (member ▸ List.mem_cons_self)
    obtain ⟨plainMiddle, ran, abreastMiddle⟩ := expand_of_follows acyclic first abreast askedFirst
    obtain ⟨plainLeft, failed⟩ := ih abreastMiddle asked.tail
    refine ⟨plainLeft, ?_⟩
    rw [← List.singleton_append, follow_append, ran]
    exact failed

/-- Where nothing needs itself, emission never complains of a cycle. -/
theorem ne_cycle_of_fails {path : List Key} {steps : List Step} {program left : Program}
    {error : GraphError} (fails : Fails graph path steps program error left)
    (asked : graph.AskedBelow material path steps)
    (others : ∀ reason, .fail reason ∈ steps → ∀ index phase, reason ≠ .cycle index phase) :
    ∀ index phase, error ≠ .cycle index phase := by
  induction fails with
  | cycle inside =>
    exact absurd inside (notMem_path acyclic (asked _ _ _ List.mem_cons_self))
  | @enter path block phase priority rest program left error outside fresh inner ih =>
    have justified := asked block phase priority List.mem_cons_self
    exact ih (.preparation justified) fun reason member => ne_cycle_of_fail_mem member
  | declare refused =>
    obtain ⟨held, -, -, rfl⟩ := declare_eq_error refused
    simp
  | declareExternal refused =>
    obtain ⟨held, -, -, -, rfl⟩ := declareExternal_eq_error refused
    simp
  | fail => exact others _ List.mem_cons_self
  | later first next ih =>
    exact ih asked.tail fun reason member => others reason (List.mem_cons_of_mem _ member)

end Acyclic

/-- A material of the graph that is a sink, and that needs nothing that needs itself, is
compiled as by the plain recursion, with any depth that is at least that of emission. Either
both fail with the same error, which is no cycle, or both succeed, with the same variables in
either phase and the same uniforms, and the calls of emission are the first ones of the plain
recursion at every place. -/
theorem compileInto_eq_expandAll {graph : Graph} {block : Block} {depth : Nat}
    (found : graph.find? block.index = some block) (material : block.isMaterial = true)
    (sink : ∀ outlet ∈ block.outlets, outlet.direction ≠ .output)
    (acyclic : ∀ key, graph.Needed block.index key → ¬Relation.TransGen graph.Needs key key)
    (deep : depthOf graph ≤ depth) :
    (∃ error left, block.compileInto graph .empty = .error error ∧
      expandAll graph depth block .empty = .error error left ∧
      ∀ index phase, error ≠ .cycle index phase) ∨
    ∃ program plain, block.compileInto graph .empty = .ok program ∧
      expandAll graph depth block .empty = .ok () plain ∧
      (∀ phase, program.localsOf phase = plain.localsOf phase) ∧
      program.externals = plain.externals ∧ program.calls = Call.firsts plain.calls := by
  have isSink : block.checkSink = .ok () := Block.checkSink_eq_ok.mpr ⟨material, sink⟩
  have asked : graph.AskedBelow block.index [] (roots block) := by
    intro other phase priority member
    obtain ⟨_, same⟩ := mem_roots.mp member
    injection same with isBlock
    exact ⟨isBlock ▸ found, isBlock ▸ .root phase, by simp⟩
  have abreast : graph.Abreast [] depth .empty .empty := by
    refine ⟨.empty, ?_, ⟨List.nodup_nil, by simp⟩, ?_, ⟨rfl, rfl, rfl⟩⟩
    · intro before call after split
      simp [Program.empty] at split
    · simp only [depthOf] at deep
      simp only [Covers, List.length_nil]
      omega
  cases compiled : block.compileInto graph .empty with
  | error error =>
    rcases fails_of_compileInto compiled with noSink | ⟨-, left, fails⟩
    · rw [isSink] at noSink
      contradiction
    · obtain ⟨plainLeft, failed⟩ := expand_of_fails acyclic fails abreast asked
      refine .inl ⟨error, plainLeft, rfl, failed, ne_cycle_of_fails acyclic fails asked ?_⟩
      intro reason member
      obtain ⟨_, same⟩ := mem_roots.mp member
      contradiction
  | ok program =>
    obtain ⟨-, follows⟩ := follows_of_compileInto compiled
    obtain ⟨plain, ran, abreastAfter⟩ := expand_of_follows acyclic follows abreast asked
    obtain ⟨locals, externals, calls⟩ := abreastAfter.mirrors
    refine .inr ⟨program, plain, rfl, ran, fun phase => ?_, externals.symm, calls⟩
    rw [localsOf, localsOf, locals]

/-- The plain recursion calls the wave of the sample three times in the fragment phase, where
emission calls it once. -/
theorem compileInto_eq_expandAll_sample :
    ∃ program plain,
      (Sample.surface (some Sample.height) (some Sample.scaled)).compileInto Sample.graph .empty =
        .ok program ∧
      expandAll Sample.graph (depthOf Sample.graph)
        (Sample.surface (some Sample.height) (some Sample.scaled)) .empty = .ok () plain ∧
      plain.keys = [(1, .vertex), (3, .vertex), (1, .fragment), (1, .fragment), (1, .fragment),
        (2, .fragment), (3, .fragment)] ∧
      program.keys = [(1, .vertex), (3, .vertex), (1, .fragment), (2, .fragment), (3, .fragment)] ∧
      (∀ phase, program.localsOf phase = plain.localsOf phase) ∧
      program.externals = plain.externals ∧ program.calls = Call.firsts plain.calls := by
  obtain ⟨compiled, compiles, keys⟩ := Sample.graph_compiles
  obtain ⟨_, _, _, _, emitted, _⟩ := emitted_of_compile compiles
  have acyclic : ∀ key, Sample.graph.Needed 3 key →
      ¬Relation.TransGen Sample.graph.Needs key key :=
    fun _ => emitted.acyclic Sample.graph_built.lawful
  have plainKeys : ∀ plain, expandAll Sample.graph (depthOf Sample.graph)
      (Sample.surface (some Sample.height) (some Sample.scaled)) .empty = .ok () plain →
      plain.keys = [(1, .vertex), (3, .vertex), (1, .fragment), (1, .fragment), (1, .fragment),
        (2, .fragment), (3, .fragment)] := by
    intro plain ran
    obtain ⟨rfl⟩ := ran
    rfl
  have programKeys : ∀ program,
      (Sample.surface (some Sample.height) (some Sample.scaled)).compileInto Sample.graph .empty =
        .ok program →
      program.keys =
        [(1, .vertex), (3, .vertex), (1, .fragment), (2, .fragment), (3, .fragment)] := by
    intro program ran
    obtain ⟨rfl⟩ := ran
    rfl
  have sink : ∀ outlet ∈ (Sample.surface (some Sample.height) (some Sample.scaled)).outlets,
      outlet.direction ≠ .output := by decide
  rcases compileInto_eq_expandAll rfl rfl sink acyclic (Nat.le_refl _) with
    ⟨error, left, failed, -⟩ | ⟨program, plain, ran, plainRan, same⟩
  · contradiction
  · exact ⟨program, plain, ran, plainRan, plainKeys plain plainRan, programKeys program ran, same⟩

end Graph

end ShaderBlocks
