import Mathlib.Data.List.Induction
import Mathlib.Logic.Function.Basic
import ShaderBlocks.Proofs.CallArguments

/-!
# The values that calls read

A function is taken for any map from the values at its inputs, and those of the uniforms
that stay outside, to a value for each of its outputs. On the one side this gives every
outlet of the graph a value: the function of its block applied to the values of the outlets
that feed the block. On the other side it says what the calls of a phase do to a store of
variables. The two agree. Whatever was in the store at first, every call finds at each of
its inputs the value of the outlet that is linked to it, provided that whatever is read in
the phase is an output there.
-/

namespace ShaderBlocks

universe u

/-- The values of the variables. -/
abbrev Store (V : Type u) := String → V

/-- What functions do: from the values at the inputs, in order, and the values of the
uniforms that are fed from outside, the value at each place that is an output. -/
abbrev Meaning (V : Type u) := Callee → List V → (String → V) → Nat → V

/-- The last position at which something holds. -/
def lastPosition? {α : Type} (holds : α → Bool) : List α → Option Nat
  | [] => none
  | first :: rest =>
    match lastPosition? holds rest with
    | some position => some (position + 1)
    | none => if holds first then some 0 else none

/-- There is a last position exactly when there is one at all. -/
theorem isSome_lastPosition? {α : Type} {holds : α → Bool} {items : List α} :
    (lastPosition? holds items).isSome = true ↔ ∃ item ∈ items, holds item = true := by
  induction items with
  | nil => simp [lastPosition?]
  | cons first rest ih =>
    rw [List.exists_mem_cons_iff, ← ih, lastPosition?]
    cases lastPosition? holds rest with
    | some position => simp
    | none => cases holds first <;> simp

/-- The last position depends only on what holds of the items. -/
theorem lastPosition?_congr {α : Type} {holds other : α → Bool} {items : List α}
    (same : ∀ item ∈ items, holds item = other item) :
    lastPosition? holds items = lastPosition? other items := by
  induction items with
  | nil => rfl
  | cons first rest ih =>
    obtain ⟨sameFirst, sameRest⟩ := List.forall_mem_cons.mp same
    rw [lastPosition?, lastPosition?, ih sameRest, sameFirst]

/-- The last position among images. -/
theorem lastPosition?_map {α β : Type} (holds : β → Bool) (image : α → β) (items : List α) :
    lastPosition? holds (items.map image) =
      lastPosition? (fun item => holds (image item)) items := by
  induction items with
  | nil => rfl
  | cons first rest ih => rw [List.map_cons, lastPosition?, lastPosition?, ih]

namespace Callee

/-- The names at the inputs, in order. -/
def inputNames (callee : Callee) : List String :=
  (callee.places.filter (·.direction = .input)).map (·.name)

/-- The position at which an outlet gets its value: of several outputs of its name, the
last. -/
def outputPosition? (callee : Callee) (name : String) : Option Nat :=
  lastPosition? (· == ⟨name, .output⟩) callee.places

/-- Write the results of a call to the variables at its outputs, from left to right. -/
def write {V : Type u} (results : Nat → V) : Nat → List (Place × String) → Store V → Store V
  | _, [], store => store
  | position, (place, cell) :: rest, store =>
    write results (position + 1) rest
      (if place.direction = .output then Function.update store cell (results position) else store)

/-- Call a function: read the variables at the inputs, then write those at the outputs. -/
def execute {V : Type u} (callee : Callee) (meaning : Meaning V) (outside : String → V)
    (args : List String) (store : Store V) : Store V :=
  let passed := callee.places.zip args
  let inputs := (passed.filter (·.1.direction = .input)).map fun (_, cell) => store cell
  write (meaning callee inputs outside) 0 passed store

end Callee

namespace Graph

/-- Carry out a call on a store. -/
def execute {V : Type u} (graph : Graph) (meaning : Meaning V) (outside : String → V)
    (store : Store V) (call : Call) : Option (Store V) :=
  (graph.find? call.origin).map fun block =>
    (block.callee call.phase).execute meaning outside call.args store

/-- Carry out some calls on a store, in order. -/
def run {V : Type u} (graph : Graph) (meaning : Meaning V) (outside : String → V)
    (calls : List Call) (initial : Store V) : Option (Store V) :=
  calls.foldlM (graph.execute meaning outside) initial

/-- The value of an outlet in a phase: what the function of its block makes of the values of
the outlets that feed the block. -/
inductive Denotes {V : Type u} (graph : Graph) (meaning : Meaning V) (outside : String → V)
    (phase : Phase) : Endpoint → V → Prop
  | outlet {endpoint : Endpoint} {block : Block} {position : Nat} {feeds : String → Endpoint}
      {values : String → V} (found : graph.find? endpoint.block = some block)
      (fed : ∀ name ∈ (block.callee phase).inputNames, block.feed? name = some (feeds name))
      (inputs : ∀ name ∈ (block.callee phase).inputNames,
        Denotes graph meaning outside phase (feeds name) (values name))
      (output : (block.callee phase).outputPosition? endpoint.outlet = some position) :
      Denotes graph meaning outside phase endpoint
        (meaning (block.callee phase) ((block.callee phase).inputNames.map values) outside
          position)

end Graph

namespace Callee

/-- The names at the inputs are those of the input places. -/
theorem mem_inputNames {callee : Callee} {name : String} :
    name ∈ callee.inputNames ↔ ⟨name, .input⟩ ∈ callee.places := by
  simp only [inputNames, List.mem_map, List.mem_filter, decide_eq_true_eq]
  constructor
  · rintro ⟨⟨_, direction⟩, ⟨member, rfl⟩, rfl⟩
    exact member
  · exact fun member => ⟨_, ⟨member, rfl⟩, rfl⟩

/-- A variable holds afterwards what was written to it last, if it was written to. -/
theorem write_apply {V : Type u} (results : Nat → V) (start : Nat)
    (passed : List (Place × String)) (store : Store V) (cell : String) :
    write results start passed store cell =
      match lastPosition? (fun pair => pair.1.direction == .output && pair.2 == cell) passed with
      | some position => results (start + position)
      | none => store cell := by
  induction passed generalizing start store with
  | nil => rfl
  | cons first rest ih =>
    obtain ⟨place, target⟩ := first
    rw [write, ih, lastPosition?]
    cases lastPosition? (fun pair => pair.1.direction == .output && pair.2 == cell) rest with
    | some position =>
      simp only
      rw [Nat.add_assoc, Nat.add_comm 1]
    | none =>
      by_cases output : place.direction = .output
      · by_cases same : target = cell
        · simp [output, same]
        · simp [output, same, Function.update_of_ne (Ne.symm same)]
      · simp [output]

end Callee

namespace Graph

section

variable {V : Type u} {graph : Graph} {meaning : Meaning V} {outside : String → V} {phase : Phase}

/-- An outlet has one value if the outlets that feed its block have one each. -/
theorem denotes_iff {endpoint : Endpoint} {block : Block} {position : Nat} {values : String → V}
    (found : graph.find? endpoint.block = some block)
    (output : (block.callee phase).outputPosition? endpoint.outlet = some position)
    (inputs : ∀ name ∈ (block.callee phase).inputNames, ∃ feed, block.feed? name = some feed ∧
      ∀ value, Denotes graph meaning outside phase feed value ↔ value = values name)
    (value : V) :
    Denotes graph meaning outside phase endpoint value ↔
      value = meaning (block.callee phase) ((block.callee phase).inputNames.map values) outside
        position := by
  constructor
  · intro denotes
    cases denotes with
    | @outlet _ other otherPosition feeds others otherFound fed inner otherOutput =>
      obtain rfl := Option.some.inj (otherFound.symm.trans found)
      obtain rfl := Option.some.inj (otherOutput.symm.trans output)
      have same : (other.callee phase).inputNames.map others =
          (other.callee phase).inputNames.map values := by
        refine List.map_congr_left fun name member => ?_
        obtain ⟨feed, isFeed, exactly⟩ := inputs name member
        obtain rfl := Option.some.inj (isFeed.symm.trans (fed name member))
        exact (exactly _).mp (inner name member)
      rw [same]
  · rintro rfl
    have fed : ∀ name ∈ (block.callee phase).inputNames,
        block.feed? name = some ((block.feed? name).getD endpoint) := by
      intro name member
      obtain ⟨feed, isFeed, -⟩ := inputs name member
      rw [isFeed, Option.getD_some]
    refine .outlet found fed (fun name member => ?_) output
    obtain ⟨feed, isFeed, exactly⟩ := inputs name member
    rw [isFeed, Option.getD_some]
    exact (exactly _).mpr rfl

/-- The store holds the values of all outlets that some calls of a phase have written. -/
def Holds (graph : Graph) (meaning : Meaning V) (outside : String → V) (phase : Phase)
    (done : List Call) (store : Store V) : Prop :=
  ∀ call ∈ done, ∀ block name source, graph.find? call.origin = some block →
    block.outlet? name = some source → ⟨name, .output⟩ ∈ (block.callee phase).places →
    ∀ value, Denotes graph meaning outside phase ⟨call.origin, name⟩ value ↔
      value = store source.id

/-- A call finds at its inputs the values of the outlets that feed it. -/
theorem reads_of_holds {material : BlockIndex} {program : Program}
    (emitted : graph.Emitted material program) (lawful : graph.Lawful)
    (written : graph.WritesWhatIsRead material phase) {before after : List Call} {call : Call}
    {block : Block} (split : program.compile.callsOf phase = before ++ call :: after)
    (invokes : graph.Invokes block call) {store : Store V}
    (holds : graph.Holds meaning outside phase before store) {name : String}
    (member : ⟨name, .input⟩ ∈ (block.callee phase).places) :
    ∃ feed, block.feed? name = some feed ∧ ∀ value,
      Denotes graph meaning outside phase feed value ↔
        value = store (graph.cellAt block ⟨name, .input⟩) := by
  have inPhase := (emitted.invokes_of_callsOf lawful
    (split ▸ List.mem_append_right _ List.mem_cons_self)).1
  obtain ⟨feed, owner, source, isFeed, fed, resolved, isCell⟩ :=
    fedBy_of_place member (invokes.passed _ (inPhase ▸ member))
  obtain ⟨ownerFound, sourceFound⟩ := resolve_eq_ok.mp resolved
  obtain ⟨earlier, inBefore, origin, isOutput⟩ :=
    emitted.writer_called lawful written split invokes.found fed ownerFound
  refine ⟨feed, isFeed, ?_⟩
  have held := holds earlier inBefore owner feed.outlet source (origin ▸ ownerFound) sourceFound
    isOutput
  rwa [origin, isCell] at held

/-- The places of a function next to the variables that a call passes there. -/
theorem Invokes.zip_args {block : Block} {call : Call} (invokes : graph.Invokes block call) :
    (block.callee call.phase).places.zip call.args =
      (block.callee call.phase).places.map fun place => (place, graph.cellAt block place) := by
  rw [invokes.args, List.zip_eq_zipWith, List.zipWith_map_right, List.zipWith_self]

/-- The values that a call hands to its function. -/
theorem Invokes.inputs_eq {block : Block} {call : Call} (invokes : graph.Invokes block call)
    (store : Store V) :
    ((((block.callee call.phase).places.zip call.args).filter (·.1.direction = .input)).map
        fun (_, cell) => store cell) =
      (block.callee call.phase).inputNames.map fun name =>
        store (graph.cellAt block ⟨name, .input⟩) := by
  rw [invokes.zip_args, Callee.inputNames, List.filter_map, List.map_map, List.map_map]
  refine List.map_congr_left fun place member => ?_
  have isInput : place.direction = .input := by simpa using (List.mem_filter.mp member).2
  simp only [Function.comp_apply]
  rw [← isInput]

/-- A call writes to the variable of an outlet of its block exactly what its function gives
for the outlet. -/
theorem Invokes.lastPosition?_own {block : Block} {call : Call}
    (invokes : graph.Invokes block call) (lawful : graph.Lawful) {name : String}
    {source : Outlet} (sourceFound : block.outlet? name = some source) :
    lastPosition? (fun pair => pair.1.direction == .output && pair.2 == source.id)
        ((block.callee call.phase).places.zip call.args) =
      (block.callee call.phase).outputPosition? name := by
  rw [invokes.zip_args, lastPosition?_map]
  refine lastPosition?_congr fun place member => ?_
  obtain ⟨other, direction⟩ := place
  have isPassed := invokes.passed _ member
  rw [Bool.eq_iff_iff]
  simp only [Bool.and_eq_true, beq_iff_eq, Place.mk.injEq]
  constructor
  · rintro ⟨rfl, same⟩
    obtain ⟨outlet, outletFound, isCell⟩ := passed_output.mp isPassed
    exact ⟨(lawful.eq_of_id_eq invokes.found invokes.found outletFound sourceFound
      (isCell.trans same)).2, rfl⟩
  · rintro ⟨rfl, rfl⟩
    obtain ⟨outlet, outletFound, isCell⟩ := passed_output.mp isPassed
    obtain rfl := Option.some.inj (outletFound.symm.trans sourceFound)
    exact ⟨rfl, isCell.symm⟩

/-- A call leaves the variables of other blocks as they are. -/
theorem Invokes.lastPosition?_other {block owner : Block} {call : Call}
    (invokes : graph.Invokes block call) (lawful : graph.Lawful) {index : BlockIndex}
    (ownerFound : graph.find? index = some owner) (apart : owner ≠ block) {name : String}
    {source : Outlet} (sourceFound : owner.outlet? name = some source) :
    lastPosition? (fun pair => pair.1.direction == .output && pair.2 == source.id)
        ((block.callee call.phase).places.zip call.args) = none := by
  rw [← Option.not_isSome_iff_eq_none, isSome_lastPosition?, invokes.zip_args]
  rintro ⟨pair, pairMember, writes⟩
  obtain ⟨⟨other, direction⟩, member, rfl⟩ := List.mem_map.mp pairMember
  simp only [Bool.and_eq_true, beq_iff_eq] at writes
  obtain ⟨rfl, same⟩ := writes
  obtain ⟨outlet, outletFound, isCell⟩ := passed_output.mp (invokes.passed _ member)
  exact apart (lawful.eq_of_id_eq invokes.found ownerFound outletFound sourceFound
    (isCell.trans same)).1.symm

/-- No two calls of a phase are made for one block. -/
theorem Emitted.origin_ne {material : BlockIndex} {program : Program}
    (emitted : graph.Emitted material program) {before after : List Call} {call earlier : Call}
    (split : program.compile.callsOf phase = before ++ call :: after)
    (inBefore : earlier ∈ before) : earlier.origin ≠ call.origin := by
  intro sameOrigin
  obtain ⟨early, late, whole, isBefore, inPhase⟩ := split_of_callsOf split
  obtain ⟨inEarly, earlierPhase⟩ := List.mem_filter.mp (isBefore ▸ inBefore)
  have sameKey : earlier.key = call.key :=
    Prod.ext sameOrigin ((by simpa using earlierPhase : earlier.phase = phase).trans inPhase.symm)
  have distinct := emitted.tracked.calledOnce
  rw [Program.keys, whole, List.map_append, List.nodup_append] at distinct
  exact distinct.2.2 earlier.key (List.mem_map_of_mem inEarly) call.key
    (List.mem_map_of_mem List.mem_cons_self) sameKey

/-- Carrying out the call of a block. -/
theorem Invokes.execute_eq {block : Block} {call : Call} (invokes : graph.Invokes block call)
    (meaning : Meaning V) (outside : String → V) (store : Store V) :
    ∃ after, graph.execute meaning outside store call = some after ∧
      ∀ cell, after cell =
        match lastPosition? (fun pair => pair.1.direction == .output && pair.2 == cell)
          ((block.callee call.phase).places.zip call.args) with
        | some position => meaning (block.callee call.phase)
            ((block.callee call.phase).inputNames.map fun name =>
              store (graph.cellAt block ⟨name, .input⟩)) outside position
        | none => store cell := by
  refine ⟨_, by rw [Graph.execute, invokes.found, Option.map_some], fun cell => ?_⟩
  simp only [Callee.execute, Callee.write_apply, invokes.inputs_eq, Nat.zero_add]

/-- A call leaves the store with the values of what it has written besides what was
written before. -/
theorem Holds.step {material : BlockIndex} {program : Program}
    (emitted : graph.Emitted material program) (lawful : graph.Lawful)
    (written : graph.WritesWhatIsRead material phase) {before after : List Call} {call : Call}
    (split : program.compile.callsOf phase = before ++ call :: after) {store : Store V}
    (holds : graph.Holds meaning outside phase before store) :
    ∃ next, graph.execute meaning outside store call = some next ∧
      graph.Holds meaning outside phase (before ++ [call]) next := by
  have called : call ∈ program.compile.callsOf phase :=
    split ▸ List.mem_append_right _ List.mem_cons_self
  obtain ⟨rfl, block, invokes⟩ := emitted.invokes_of_callsOf lawful called
  obtain ⟨next, executes, result⟩ := invokes.execute_eq meaning outside store
  refine ⟨next, executes, ?_⟩
  intro earlier member owner name source ownerFound sourceFound isOutput value
  rcases List.mem_append.mp member with inBefore | isLast
  · have apart : owner ≠ block := by
      rintro rfl
      have earlierNumbered := (find?_eq_some.mp ownerFound).2
      have numbered := (find?_eq_some.mp invokes.found).2
      exact emitted.origin_ne split inBefore (earlierNumbered.symm.trans numbered)
    rw [result, invokes.lastPosition?_other lawful ownerFound apart sourceFound]
    exact holds earlier inBefore owner name source ownerFound sourceFound isOutput value
  · rw [List.mem_singleton.mp isLast] at ownerFound ⊢
    obtain rfl := Option.some.inj (invokes.found.symm.trans ownerFound)
    have hasOutput : ((block.callee call.phase).outputPosition? name).isSome = true :=
      isSome_lastPosition?.mpr ⟨_, isOutput, beq_self_eq_true _⟩
    obtain ⟨position, isPosition⟩ := Option.isSome_iff_exists.mp hasOutput
    rw [result, invokes.lastPosition?_own lawful sourceFound, isPosition]
    refine denotes_iff invokes.found isPosition (fun input inputMember => ?_) value
    exact reads_of_holds emitted lawful written split invokes holds
      (Callee.mem_inputNames.mp inputMember)

/-- Carrying out the calls of a phase up to any point leaves the store with the values of all
that they have written. -/
theorem holds_run {material : BlockIndex} {program : Program}
    (emitted : graph.Emitted material program) (lawful : graph.Lawful)
    (written : graph.WritesWhatIsRead material phase) (meaning : Meaning V)
    (outside : String → V) (initial : Store V) {before after : List Call}
    (split : program.compile.callsOf phase = before ++ after) :
    ∃ store, graph.run meaning outside before initial = some store ∧
      graph.Holds meaning outside phase before store := by
  -- The calls are taken up one by one at the end of those carried out.
  induction before using List.reverseRecOn generalizing after with
  | nil => exact ⟨initial, rfl, by simp [Holds]⟩
  | append_singleton earlier call ih =>
    rw [List.append_assoc] at split
    obtain ⟨store, ran, holds⟩ := ih split
    obtain ⟨next, executes, nextHolds⟩ := holds.step emitted lawful written split
    refine ⟨next, ?_, nextHolds⟩
    rw [run, List.foldlM_append, show earlier.foldlM _ initial = some store from ran]
    simp [executes]

end

end Graph

/-- The text of a phase. -/
def CompiledProgram.text (compiled : CompiledProgram) : Phase → String
  | .vertex => compiled.vertex
  | .fragment => compiled.fragment

/-- The text of a phase has a function for every call, and a main function that makes the
calls in order, one on a line. -/
theorem Program.text_compile (program : Program) (phase : Phase) :
    ∃ header declarations, program.compile.text phase =
      header ++ String.join ((program.compile.callsOf phase).map renderBody) ++
        "void main() \x7b\n" ++ declarations ++
        String.join ((program.compile.callsOf phase).map fun call =>
          "    " ++ call.name ++ "(" ++ ", ".intercalate call.args ++ ");\n") ++ "\x7d\n" := by
  cases phase <;> exact ⟨_, _, rfl⟩

namespace Graph

/-- The blocks that are called in a phase are those that the material needs there. -/
theorem Emitted.mem_origins {graph : Graph} {material : BlockIndex} {program : Program}
    (emitted : graph.Emitted material program) (lawful : graph.Lawful) {phase : Phase}
    {index : BlockIndex} :
    index ∈ (program.compile.callsOf phase).map (·.origin) ↔
      graph.Needed material (index, phase) := by
  rw [← emitted.mem_keys lawful, Program.keys, List.mem_map, List.mem_map]
  constructor
  · rintro ⟨call, member, rfl⟩
    obtain ⟨called, inPhase⟩ := List.mem_filter.mp member
    exact ⟨call, called, Prod.ext rfl (of_decide_eq_true inPhase)⟩
  · rintro ⟨call, called, same⟩
    obtain ⟨isOrigin, inPhase⟩ := Prod.mk.inj same
    exact ⟨call, List.mem_filter.mpr ⟨called, decide_eq_true inPhase⟩, isOrigin⟩

/-- The main function of a phase hands every call the values of the graph. It calls the material
and the blocks that the material needs in the phase. Whatever was in the store at first, the
calls before any call can be carried out, the call is one of the function of its block, and at
every input of this function it finds the one value that the outlet linked to the input has in
the graph. -/
theorem calls_read_denoted_values {V : Type u} {graph : Graph} {material : BlockIndex}
    {compiled : CompiledProgram} (built : graph.Built)
    (compiles : graph.compile material = .ok compiled) {phase : Phase}
    (written : graph.WritesWhatIsRead material phase) (meaning : Meaning V)
    (outside : String → V) (initial : Store V) :
    (∃ header declarations, compiled.text phase =
      header ++ String.join ((compiled.callsOf phase).map Program.renderBody) ++
        "void main() \x7b\n" ++ declarations ++
        String.join ((compiled.callsOf phase).map fun call =>
          "    " ++ call.name ++ "(" ++ ", ".intercalate call.args ++ ");\n") ++ "\x7d\n") ∧
      material ∈ (compiled.callsOf phase).map (·.origin) ∧
      (∀ index, index ∈ (compiled.callsOf phase).map (·.origin) ↔
        graph.Needed material (index, phase)) ∧
      ∀ before call after, compiled.callsOf phase = before ++ call :: after →
        ∃ block store, graph.find? call.origin = some block ∧
          graph.run meaning outside before initial = some store ∧
          call.body = (block.fragmentFor phase).render call.name (block.callee phase).replaced ∧
          call.args.length = (block.callee phase).places.length ∧
          ∀ (position : Nat) (name : String),
            (block.callee phase).places[position]? = some ⟨name, .input⟩ →
            ∃ feed cell, block.feed? name = some feed ∧ call.args[position]? = some cell ∧
              ∀ value, graph.Denotes meaning outside phase feed value ↔ value = store cell := by
  obtain ⟨-, program, -, -, emitted, rfl⟩ := emitted_of_compile compiles
  refine ⟨program.text_compile phase, (emitted.mem_origins built.lawful).mpr (.root phase),
    fun _ => emitted.mem_origins built.lawful, fun before call after split => ?_⟩
  obtain ⟨store, ran, holds⟩ :=
    holds_run emitted built.lawful written meaning outside initial split
  have called : call ∈ program.compile.callsOf phase :=
    split ▸ List.mem_append_right _ List.mem_cons_self
  obtain ⟨rfl, block, invokes⟩ := emitted.invokes_of_callsOf built.lawful called
  refine ⟨block, store, invokes.found, ran, invokes.body, ?_, fun position name place => ?_⟩
  · rw [invokes.args, List.length_map]
  · obtain ⟨feed, isFeed, exactly⟩ := reads_of_holds emitted built.lawful written split invokes
      holds (List.mem_of_getElem? place)
    refine ⟨feed, _, isFeed, ?_, exactly⟩
    rw [invokes.args, List.getElem?_map, place, Option.map_some]

end Graph

/-- Functions without inputs give the speed from outside, all others the product of what they
are given. -/
def Sample.meaning : Meaning Nat := fun _ inputs outside _ =>
  if inputs.isEmpty then outside "speed" else inputs.foldl (· * ·) 1

namespace Graph

/-- In the sample the fragment phase calls the wave, the scaling and the surface. With functions
that multiply and a store of zeros, every one of these calls finds the values of the graph. -/
theorem calls_read_denoted_values_sample :
    Sample.graph.Built ∧ Sample.graph.WritesWhatIsRead 3 .fragment ∧
      ∃ compiled, Sample.graph.compile 3 = .ok compiled ∧
        (compiled.callsOf .fragment).map (fun call => (call.origin, call.name, call.args)) =
          [(1, "sg_fragment_wave_1", ["v_h_1_0"]),
            (2, "sg_fragment_scale_2", ["v_h_1_0", "v_y_2_1", "v_h_1_0"]),
            (3, "sg_fragment_material_3", ["v_h_1_0", "v_y_2_1"])] ∧
        ∀ before call after, compiled.callsOf .fragment = before ++ call :: after →
          ∃ block store, Sample.graph.find? call.origin = some block ∧
            Sample.graph.run Sample.meaning (fun _ => 3) before (fun _ => 0) = some store ∧
            call.body = (block.fragmentFor .fragment).render call.name
              (block.callee .fragment).replaced ∧
            call.args.length = (block.callee .fragment).places.length ∧
            ∀ (position : Nat) (name : String),
              (block.callee .fragment).places[position]? = some ⟨name, .input⟩ →
              ∃ feed cell, block.feed? name = some feed ∧ call.args[position]? = some cell ∧
                ∀ value, Sample.graph.Denotes Sample.meaning (fun _ => 3) .fragment feed value ↔
                  value = store cell := by
  have built := Sample.graph_built
  have written := Sample.graph_writesWhatIsRead .fragment
  obtain ⟨compiled, compiles, -⟩ := Sample.graph_compiles
  have called : (Sample.graph.compile 3).toOption.map (fun compiled =>
      (compiled.callsOf .fragment).map fun call => (call.origin, call.name, call.args)) = some
        [(1, "sg_fragment_wave_1", ["v_h_1_0"]),
          (2, "sg_fragment_scale_2", ["v_h_1_0", "v_y_2_1", "v_h_1_0"]),
          (3, "sg_fragment_material_3", ["v_h_1_0", "v_y_2_1"])] := rfl
  rw [compiles] at called
  exact ⟨built, written, compiled, compiles, Option.some.inj called,
    (calls_read_denoted_values built compiles written Sample.meaning
      (fun _ => 3) (fun _ => 0)).2.2.2⟩

end Graph

end ShaderBlocks
