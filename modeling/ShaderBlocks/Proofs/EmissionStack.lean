import ShaderBlocks.Proofs.CompileErrors
import ShaderBlocks.Proofs.EmissionMachine

/-!
# How deep emission goes

Links may lead in circles, to blocks that are not there and back to where they come from. All the
same, emission always comes to an end, and leaves the stack of blocks that are being put in as it
found it. The blocks on the stack above those that were there before are different from each
other and, but for the one that was asked for, belong to the graph. So the stack stays within
twice the number of blocks.

A block that is asked for by another one in the same phase gets the priority after that of the
other one; a material that is put into the vertex phase on the way starts again from zero. Hence
the priority of a block exceeds the one that was asked with by at most the number of blocks on the
stack that are there for the same phase. These are different from each other and from the one
that is entered, so there are fewer of them than blocks.

Priorities are words of 32 bits, added without a check, and zero comes after the last of them.
Emission returns all the same. A priority that has come round is smaller than it should be, so the
bounds hold whether one has or not; and they say when none has: if what was asked with and the
number of blocks add up to less than the last word. Then a check would never fail, and emission
with the check is the same. Compiling asks with zero, and the blocks of a graph have different
words other than zero for their numbers, so there no priority ever comes round.
-/

namespace ShaderBlocks.Emission

open Program

/-- What is left to do, sorted by the blocks that have been entered, the last one first: for each
of them some steps, which fit the blocks below, and then the block is left. -/
inductive Pending (known : List BlockIndex) (fits : List Key → Step → Prop) :
    List Key → List Task → Prop
  | done : Pending known fits [] []
  | step {entered : List Key} {step : Step} {rest : List Task} (here : fits entered step)
      (next : Pending known fits entered rest) : Pending known fits entered (.step step :: rest)
  | leave {key : Key} {entered : List Key} {rest : List Task} (isKnown : key.1 ∈ known)
      (next : Pending known fits entered rest) :
      Pending known fits (key :: entered) (.leave :: rest)

namespace Pending

variable {known : List BlockIndex} {fits : List Key → Step → Prop} {entered : List Key}
  {todo : List Task}

/-- Steps that fit may come first. -/
theorem append (pending : Pending known fits entered todo) {steps : List Step}
    (here : ∀ step ∈ steps, fits entered step) :
    Pending known fits entered (steps.map .step ++ todo) := by
  induction steps with
  | nil => exact pending
  | cons step rest ih =>
    obtain ⟨first, others⟩ := List.forall_mem_cons.mp here
    exact .step first (ih others)

/-- The blocks that have been entered are known. -/
theorem within (pending : Pending known fits entered todo) : ∀ key ∈ entered, key.1 ∈ known := by
  induction pending with
  | done => exact List.forall_mem_nil _
  | step here next ih => exact ih
  | leave isKnown next ih => exact List.forall_mem_cons.mpr ⟨isKnown, ih⟩

/-- Every step that is left to do fits some blocks. -/
theorem fits_of_mem (pending : Pending known fits entered todo) {step : Step}
    (member : .step step ∈ todo) : ∃ below, fits below step := by
  induction pending with
  | done => contradiction
  | @step entered first rest here next ih =>
    rcases List.mem_cons.mp member with same | later
    · injection same with same
      exact ⟨entered, same ▸ here⟩
    · exact ih later
  | leave isKnown next ih => exact ih ((List.mem_cons.mp member).resolve_left (by simp))

end Pending

namespace Machine

/-- What carrying out a step can come to: the stack stays and the rest is next, perhaps with a
call added; or a block that is not on the stack is entered. -/
theorem carryOut_cases (graph : Graph) (machine : Machine) (rest : List Task) (step : Step) :
    ((machine.carryOut graph rest step).active = machine.active ∧
      (machine.carryOut graph rest step).todo = rest ∧
      ((machine.carryOut graph rest step).program.calls = machine.program.calls ∨
        ∃ call, step = .add call ∧
          (machine.carryOut graph rest step).program.calls = machine.program.calls ++ [call])) ∨
    ∃ block phase priority, step = .demand block phase priority ∧
      (block.index, phase) ∉ machine.active ∧
      (machine.carryOut graph rest step).active = (block.index, phase) :: machine.active ∧
      (machine.carryOut graph rest step).todo =
        (graph.blockSteps block phase priority).map .step ++ .leave :: rest ∧
      (machine.carryOut graph rest step).program.calls = machine.program.calls := by
  cases step with
  | demand block phase priority =>
    by_cases inside : (block.index, phase) ∈ machine.active
    · rw [carryOut, if_pos (List.contains_iff_mem.mpr inside)]
      exact .inl ⟨rfl, rfl, .inl rfl⟩
    · rw [carryOut, if_neg (mt List.contains_iff_mem.mp inside)]
      split
      · exact .inl ⟨rfl, rfl, .inl rfl⟩
      · exact .inr ⟨block, phase, priority, rfl, inside, rfl, rfl,
          (machine.program.markIncluded_keys _).2.1⟩
  | declare phase name type =>
    rw [carryOut]
    cases declared : machine.program.declare phase name type with
    | error error => exact .inl ⟨rfl, rfl, .inl rfl⟩
    | ok changed =>
      refine .inl ⟨rfl, rfl, .inl ?_⟩
      rcases declare_eq_ok declared with ⟨rfl, -⟩ | ⟨rfl, -⟩ <;> rfl
  | declareExternal uniform =>
    rw [carryOut]
    cases declared : machine.program.declareExternal uniform with
    | error error => exact .inl ⟨rfl, rfl, .inl rfl⟩
    | ok changed =>
      refine .inl ⟨rfl, rfl, .inl ?_⟩
      rcases declareExternal_eq_ok declared with ⟨rfl, -⟩ | ⟨rfl, -⟩ <;> rfl
  | fail error => exact .inl ⟨rfl, rfl, .inl rfl⟩
  | add call => exact .inl ⟨rfl, rfl, .inr ⟨call, rfl, rfl⟩⟩

/-- The stack holds what it held before, and above it known blocks that are different from each
other and from those below; what is left to do fits them. -/
structure Orderly (known : List BlockIndex) (fits : List Key → Step → Prop)
    (holds : Call → Prop) (base : List Key) (machine : Machine) : Prop where
  /-- The blocks on the stack. -/
  nested : ∃ entered, machine.active = entered ++ base ∧ entered.Nodup ∧ entered.Disjoint base ∧
    Pending known fits entered machine.todo
  /-- The calls so far. -/
  calls : ∀ call ∈ machine.program.calls, holds call

/-- When steps and calls are kept in order: a block that is entered is known and its steps fit in
turn, and a call that is added is as it should be. -/
structure Discipline (graph : Graph) (known : List BlockIndex) (fits : List Key → Step → Prop)
    (holds : Call → Prop) : Prop where
  /-- Entering a block. -/
  enters : ∀ {entered : List Key} {block : Block} {phase : Phase} {priority : Priority},
    entered.Nodup → (∀ key ∈ entered, key.1 ∈ known) → (block.index, phase) ∉ entered →
      fits entered (.demand block phase priority) → block.index ∈ known ∧
        ∀ step ∈ graph.blockSteps block phase priority, fits ((block.index, phase) :: entered) step
  /-- Adding a call. -/
  adds : ∀ {entered : List Key} {call : Call}, fits entered (.add call) → holds call

variable {graph : Graph} {known : List BlockIndex} {fits : List Key → Step → Prop}
  {holds : Call → Prop} {base : List Key}

/-- One step keeps a machine orderly. -/
theorem Orderly.advance {machine : Machine} (orderly : machine.Orderly known fits holds base)
    (discipline : Discipline graph known fits holds) :
    (machine.advance graph).Orderly known fits holds base := by
  obtain ⟨program, active, todo, failure⟩ := machine
  obtain ⟨⟨entered, above, distinct, apart, pending⟩, calls⟩ := orderly
  cases pending with
  | done => exact ⟨⟨[], above, distinct, apart, .done⟩, calls⟩
  | @leave key entered rest isKnown next =>
    have left : active.tail = entered ++ base := congrArg List.tail above
    obtain ⟨-, restApart⟩ := List.disjoint_cons_left.mp apart
    exact ⟨⟨entered, left, distinct.of_cons, restApart, next⟩, calls⟩
  | @step _ step rest here next =>
    cases failure with
    | some error => exact ⟨⟨entered, above, distinct, apart, next⟩, calls⟩
    | none =>
      change (carryOut graph ⟨program, active, .step step :: rest, none⟩ rest step).Orderly
        known fits holds base
      rcases carryOut_cases graph ⟨program, active, .step step :: rest, none⟩ rest step with
        ⟨sameStack, todo, callsNow⟩ |
        ⟨block, phase, priority, rfl, outside, pushed, todo, sameCalls⟩
      · have pendingNow : Pending known fits entered
            (carryOut graph ⟨program, active, .step step :: rest, none⟩ rest step).todo := by
          rw [todo]
          exact next
        refine ⟨⟨entered, sameStack.trans above, distinct, apart, pendingNow⟩, ?_⟩
        rcases callsNow with sameCalls | ⟨call, rfl, oneMore⟩
        · rw [sameCalls]
          exact calls
        · rw [oneMore]
          intro other member
          rcases List.mem_append.mp member with held | isNew
          · exact calls other held
          · rw [List.mem_singleton.mp isNew]
            exact discipline.adds here
      · have above : active = entered ++ base := above
        have outside : (block.index, phase) ∉ active := outside
        rw [above, List.mem_append, not_or] at outside
        obtain ⟨isKnown, stepsFit⟩ :=
          discipline.enters distinct next.within outside.1 here
        have inner : Pending known fits ((block.index, phase) :: entered) (.leave :: rest) :=
          .leave isKnown next
        refine ⟨⟨(block.index, phase) :: entered, ?_, ?_, ?_, ?_⟩, sameCalls ▸ calls⟩
        · rw [pushed, List.cons_append, ← above]
        · exact List.nodup_cons.mpr ⟨outside.1, distinct⟩
        · exact List.disjoint_cons_left.mpr ⟨outside.2, apart⟩
        · rw [todo]
          exact inner.append stepsFit

/-- A machine stays orderly all along. -/
theorem Orderly.after {machine : Machine} (orderly : machine.Orderly known fits holds base)
    (discipline : Discipline graph known fits holds) (count : Nat) :
    (machine.after graph count).Orderly known fits holds base := by
  induction count with
  | zero => exact orderly
  | succ count ih =>
    rw [after_succ]
    exact ih.advance discipline

/-- A machine is orderly when it starts with steps that fit no block but those on the stack. -/
theorem orderly_start {program : Program} {steps : List Step}
    (fit : ∀ step ∈ steps, fits [] step) (calls : ∀ call ∈ program.calls, holds call) :
    (start base program steps).Orderly known fits holds base := by
  have pending : Pending known fits [] (steps.map .step ++ []) := Pending.done.append fit
  rw [List.append_nil] at pending
  exact ⟨⟨[], rfl, List.nodup_nil, List.disjoint_nil_left base, pending⟩, calls⟩

/-- The stack of an orderly machine holds at most two entries for each known block above what it
held before. -/
theorem Orderly.length_le {machine : Machine} (orderly : machine.Orderly known fits holds base) :
    machine.active.length ≤ base.length + 2 * known.length := by
  obtain ⟨entered, above, distinct, -, pending⟩ := orderly.nested
  have short := length_le_of_nodup distinct pending.within
  rw [above, List.length_append]
  omega

end Machine

/-! ## Priorities -/

/-- The word after a word is one more, or zero. -/
theorem toNat_succ_le (priority : Priority) : (priority + 1).toNat ≤ priority.toNat + 1 := by
  rw [UInt32.toNat_add]
  exact Nat.mod_le _ _

/-- Below the last word the next one is one more. -/
theorem toNat_succ_of_lt {priority : Priority} {limit : Nat} (below : priority.toNat < limit)
    (fits : limit < UInt32.size) : (priority + 1).toNat = priority.toNat + 1 := by
  rw [UInt32.toNat_add]
  exact Nat.mod_eq_of_lt (Nat.lt_of_le_of_lt below fits)

/-- How many blocks on a stack are there for a phase. -/
def level (phase : Phase) (stack : List Key) : Nat :=
  (stack.filter (·.2 = phase)).length

/-- A block that is not on the stack for a phase leaves the others fewer than all blocks. -/
theorem level_lt {known : List BlockIndex} {stack : List Key} {index : BlockIndex} {phase : Phase}
    (distinct : stack.Nodup) (within : ∀ key ∈ stack, key.1 ∈ known)
    (outside : (index, phase) ∉ stack) (isKnown : index ∈ known) :
    level phase stack < known.length := by
  have mine : ∀ key ∈ stack.filter (·.2 = phase), key ∈ stack ∧ key = (key.1, phase) := by
    intro key member
    obtain ⟨held, samePhase⟩ := List.mem_filter.mp member
    exact ⟨held, Prod.ext rfl (of_decide_eq_true samePhase)⟩
  have numbers : ((stack.filter (·.2 = phase)).map Prod.fst).Nodup := by
    refine (List.nodup_map_iff_inj_on (distinct.filter _)).mpr
      fun first member second other same => ?_
    rw [(mine first member).2, (mine second other).2, same]
  have fresh : index ∉ (stack.filter (·.2 = phase)).map Prod.fst := by
    intro member
    obtain ⟨key, held, rfl⟩ := List.mem_map.mp member
    exact outside ((mine key held).2 ▸ (mine key held).1)
  have covered : index :: (stack.filter (·.2 = phase)).map Prod.fst ⊆ known := by
    refine List.cons_subset.mpr ⟨isKnown, fun number member => ?_⟩
    obtain ⟨key, held, rfl⟩ := List.mem_map.mp member
    exact within key (mine key held).1
  have bound := ((List.nodup_cons.mpr ⟨fresh, numbers⟩).subperm covered).length_le
  rw [List.length_cons, List.length_map] at bound
  exact bound

/-- A block that a call asks for has the next priority and the phase of the call, or it starts
again from zero. -/
theorem rank_of_demand_mem {graph : Graph} {block producer : Block} {phase asked : Phase}
    {priority rank : Priority}
    (member : Step.demand producer asked rank ∈ graph.preparation block phase priority) :
    asked = phase ∧ rank = priority + 1 ∨ rank = 0 := by
  have ranked : ∀ {other : Block},
      Step.demand producer asked rank ∈ other.demands phase (priority + 1) →
      asked = phase ∧ rank = priority + 1 ∨ rank = 0 := by
    intro other inDemands
    rcases Graph.mem_demands.mp inDemands with same | ⟨-, -, same⟩
    · injection same with _ samePhase sameRank
      exact .inl ⟨samePhase, sameRank⟩
    · injection same with _ _ sameRank
      exact .inr sameRank
  obtain ⟨slot, -, stepMember⟩ := List.mem_flatMap.mp member
  cases slot with
  | input other name type => exact ranked (by simpa [Slot.steps] using stepMember)
  | replaced uniform other name => exact ranked (by simpa [Slot.steps] using stepMember)
  | output name type => simp [Slot.steps] at stepMember
  | external uniform => simp [Slot.steps] at stepMember
  | broken error => simp [Slot.steps] at stepMember

/-- The priorities of known blocks, in the middle of what was asked for. They start from `base`,
and each block that has been entered for the same phase may add one. -/
def Ranked (known : List BlockIndex) (base : Nat) (entered : List Key) : Step → Prop
  | .demand block phase priority =>
    block.index ∈ known ∧ priority.toNat ≤ base + level phase entered
  | .add call => call.priority.toNat < base + known.length
  | _ => True

/-- The steps to a call pass priorities on as they should. -/
theorem ranked_blockSteps {graph : Graph} {known : List BlockIndex} {base : Nat}
    {entered : List Key} {block : Block} {phase : Phase} {priority : Priority}
    (inGraph : ∀ block ∈ graph.blocks, block.index ∈ known)
    (after : priority.toNat + 1 ≤ base + level phase entered)
    (below : priority.toNat < base + known.length) :
    ∀ step ∈ graph.blockSteps block phase priority, Ranked known base entered step := by
  intro step member
  rw [Graph.blockSteps_eq, List.mem_append, List.mem_singleton] at member
  rcases member with prepared | rfl
  · cases step with
    | demand producer asked rank =>
      have held := (Graph.find?_eq_some.mp (Graph.find?_of_demand_mem prepared)).1
      refine ⟨inGraph producer held, ?_⟩
      rcases rank_of_demand_mem prepared with ⟨rfl, rfl⟩ | rfl
      · exact Nat.le_trans (toNat_succ_le priority) after
      · exact Nat.zero_le _
    | add call => exact absurd prepared (graph.add_notMem_preparation block phase priority call)
    | declare | declareExternal | fail => trivial
  · exact below

/-- Entering a block keeps priorities in order. -/
theorem discipline_ranked {graph : Graph} {known : List BlockIndex} {base : Nat}
    {holds : Call → Prop} (inGraph : ∀ block ∈ graph.blocks, block.index ∈ known)
    (adds : ∀ call : Call, call.priority.toNat < base + known.length → holds call) :
    Machine.Discipline graph known (Ranked known base) holds where
  enters := by
    intro entered block phase priority distinct within outside ranked
    obtain ⟨isKnown, shallow⟩ := ranked
    have below := level_lt distinct within outside isKnown
    have deeper : level phase ((block.index, phase) :: entered) = level phase entered + 1 := by
      simp [level]
    exact ⟨isKnown, ranked_blockSteps inGraph (by omega) (by omega)⟩
  adds ranked := adds _ ranked

/-- What holds of a machine at any time after it was given a program and a stack. -/
structure Machine.WithinBounds (program : Program) (active : List Key) (blocks limit : Nat)
    (machine : Machine) : Prop where
  /-- If no block was on the stack twice for one phase, none is. -/
  distinct : active.Nodup → machine.active.Nodup
  /-- The stack holds at most two entries for each block above what it held. -/
  shallow : machine.active.length ≤ active.length + 2 * blocks
  /-- A call that has been added has a priority below the limit. -/
  ranks : ∀ call ∈ machine.program.calls,
    call ∈ program.calls ∨ call.priority.toNat < limit
  /-- The priority after that of a call which is being put in does not come round, as long as the
  limit is a word. -/
  successors : limit < UInt32.size → ∀ call, .step (.add call) ∈ machine.todo →
    (call.priority + 1).toNat = call.priority.toNat + 1

/-- A machine that keeps priorities in order stays within bounds. -/
theorem Machine.Orderly.withinBounds {known : List BlockIndex} {base : Nat} {program : Program}
    {active : List Key} {machine : Machine}
    (orderly : machine.Orderly known (Ranked known base)
      (fun call => call ∈ program.calls ∨ call.priority.toNat < base + known.length) active) :
    machine.WithinBounds program active known.length (base + known.length) where
  distinct distinctBefore := by
    obtain ⟨entered, above, distinct, apart, -⟩ := orderly.nested
    rw [above]
    exact distinct.append distinctBefore apart
  shallow := orderly.length_le
  ranks := orderly.calls
  successors fits call member := by
    obtain ⟨entered, -, -, -, pending⟩ := orderly.nested
    obtain ⟨below, rank⟩ := pending.fits_of_mem member
    exact toNat_succ_of_lt rank fits

/-- Steps that fit known blocks keep a machine within bounds all along. -/
theorem withinBounds_of_ranked {graph : Graph} {known : List BlockIndex} {base : Nat}
    {steps : List Step} (inGraph : ∀ block ∈ graph.blocks, block.index ∈ known)
    (fit : ∀ step ∈ steps, Ranked known base [] step) (program : Program) (active : List Key)
    (count : Nat) :
    ((Machine.start active program steps).after graph count).WithinBounds program active
      known.length (base + known.length) := by
  have orderly : (Machine.start active program steps).Orderly known (Ranked known base)
      (fun call => call ∈ program.calls ∨ call.priority.toNat < base + known.length) active :=
    Machine.orderly_start fit fun _ held => .inl held
  exact (orderly.after (discipline_ranked inGraph fun _ below => .inr below) count).withinBounds

/-- The steps that do what is asked have the priorities of known blocks. These are the blocks of
the graph and, where it is entered, the block in question. -/
theorem Ask.exists_ranked (graph : Graph) (ask : Ask) :
    ∃ known base, (∀ block ∈ graph.blocks, block.index ∈ known) ∧
      known.length ≤ graph.size + 1 ∧ base + known.length = ask.priority.toNat + graph.size + 1 ∧
      ∀ step ∈ ask.steps graph, Ranked known base [] step := by
  have inGraph : ∀ block ∈ graph.blocks, block.index ∈ graph.blocks.map (·.index) :=
    fun block member => List.mem_map_of_mem member
  have size : (graph.blocks.map (·.index)).length = graph.size := List.length_map _
  have besides : ∀ (index : BlockIndex), ∀ block ∈ graph.blocks,
      block.index ∈ index :: graph.blocks.map (·.index) :=
    fun index block member => List.mem_cons_of_mem _ (inGraph block member)
  have oneMore : ∀ index : BlockIndex,
      (index :: graph.blocks.map (·.index)).length = graph.size + 1 :=
    fun _ => congrArg Nat.succ size
  cases ask with
  | ensure block phase priority =>
    refine ⟨_, priority.toNat, besides block.index, Nat.le_of_eq (oneMore _), ?_,
      fun step member => ?_⟩
    · rw [oneMore]
      rfl
    · rw [List.mem_singleton.mp member]
      exact ⟨List.mem_cons_self, Nat.le_add_right _ _⟩
  | fetch block phase outlet priority =>
    refine ⟨_, priority.toNat, besides block.index, Nat.le_of_eq (oneMore _), ?_,
      fun step member => ?_⟩
    · rw [oneMore]
      rfl
    · rcases Graph.mem_demands.mp member with rfl | ⟨-, -, rfl⟩
      · exact ⟨List.mem_cons_self, Nat.le_add_right _ _⟩
      · exact ⟨List.mem_cons_self, Nat.zero_le _⟩
  | insert block phase priority =>
    -- The call is added without its block being entered, and all it asks for comes after it.
    refine ⟨graph.blocks.map (·.index), priority.toNat + 1, inGraph, ?_, ?_, ?_⟩
    · rw [size]
      exact Nat.le_succ _
    · rw [size, Nat.add_right_comm]
      rfl
    · exact ranked_blockSteps inGraph (Nat.le_add_right _ _) (by omega)

/-- Whatever is asked, the machine stays within bounds all along. -/
theorem Ask.withinBounds (graph : Graph) (ask : Ask) (program : Program) (active : List Key)
    (count : Nat) :
    ((Machine.start active program (ask.steps graph)).after graph count).WithinBounds program active
      (graph.size + 1) (ask.priority.toNat + graph.size + 1) := by
  obtain ⟨known, base, inGraph, few, limit, fit⟩ := ask.exists_ranked graph
  have bounds := withinBounds_of_ranked inGraph fit program active count
  rw [limit] at bounds
  have shallow := bounds.shallow
  exact { bounds with shallow := by omega }

/-- Compiling a block of the graph stays within bounds all along. -/
theorem withinBounds_of_mem {graph : Graph} {block : Block} (held : block ∈ graph.blocks)
    (count : Nat) :
    ((Machine.start [] .empty (roots block)).after graph count).WithinBounds .empty [] graph.size
      graph.size := by
  have inGraph : ∀ block ∈ graph.blocks, block.index ∈ graph.blocks.map (·.index) :=
    fun block member => List.mem_map_of_mem member
  have fit : ∀ step ∈ roots block, Ranked (graph.blocks.map (·.index)) 0 [] step := by
    intro step member
    obtain ⟨phase, rfl⟩ := mem_roots.mp member
    exact ⟨inGraph block held, Nat.zero_le _⟩
  simpa [Graph.size] using withinBounds_of_ranked inGraph fit .empty [] count

/-- Compiling a block returns, with nothing left on the stack. -/
theorem returns_of_roots (graph : Graph) (block : Block) :
    (Machine.start [] .empty (roots block)).Returns graph []
      (ensureAll graph block Phase.all .empty) := by
  have asked : ∀ other phase priority, Step.demand other phase priority ∈ roots block →
      other = block ∨ other ∈ graph.blocks := by
    intro other phase priority member
    obtain ⟨_, same⟩ := mem_roots.mp member
    injection same with same
    exact .inl same
  rw [ensureAll_eq]
  exact Machine.returns_of_noCall block [] asked (add_notMem_roots block) .empty

end ShaderBlocks.Emission

namespace ShaderBlocks.Graph

/-- The numbers of the blocks fit in 32 bits, and none is zero. -/
def WordNumbered (graph : Graph) : Prop :=
  ∀ block ∈ graph.blocks, 0 < block.index ∧ block.index < UInt32.size

/-- A graph has as many blocks as it has numbers for them. -/
theorem WordNumbered.size_lt {graph : Graph} (numbered : graph.WordNumbered) :
    graph.size < UInt32.size := by
  have covered : graph.blocks.map (·.index) ⊆ List.range' 1 (UInt32.size - 1) := by
    intro index member
    obtain ⟨block, held, rfl⟩ := List.mem_map.mp member
    obtain ⟨positive, small⟩ := numbered block held
    exact List.mem_range'_1.mpr ⟨positive, by omega⟩
  have bound := (graph.nodup_index.subperm covered).length_le
  rw [List.length_map, List.length_range'] at bound
  have positive : 0 < UInt32.size := by decide
  calc graph.blocks.length ≤ UInt32.size - 1 := bound
    _ < UInt32.size := Nat.sub_one_lt_of_lt positive

/-- The blocks of a workshop have words for their numbers as long as the next number is at most
the first one that is no word. -/
theorem wordNumbered_of_reachable {workshop : Workshop}
    (reachable : Relation.ReflTransGen Workshop.Step .start workshop)
    (fits : workshop.supply.next ≤ UInt32.size) : workshop.graph.WordNumbered := by
  intro block held
  obtain ⟨positive, below⟩ := (Workshop.sound_of_reachable reachable).issued.2 block held
  exact ⟨positive, Nat.lt_of_lt_of_le below fits⟩

end ShaderBlocks.Graph

namespace ShaderBlocks.Emission

/-- On every graph, whatever its links, and with whatever program, stack and priority: a block that
is ensured, fetched or inserted is dealt with in finitely many steps, after which the stack is what
it was and the outcome is what emission says. The stack stays within two entries for each block
above what it held, and no priority comes round to zero unless the one that was asked with is
within the number of blocks of the last word.

While a material of the graph is compiled the stack never holds a block twice for one phase, and
every call gets a priority below the number of blocks. So no priority comes round if the blocks
have words for their numbers, as those of a workshop have. -/
theorem emission_returns_within_bounds (graph : Graph) :
    (∀ (ask : Ask) (program : Program) (active : List Key),
      (Machine.start active program (ask.steps graph)).Returns graph active
          (ask.runWithin graph active program) ∧
        (∀ count, ((Machine.start active program (ask.steps graph)).after graph count).WithinBounds
          program active (graph.size + 1) (ask.priority.toNat + graph.size + 1)) ∧
        ask.run graph program = ask.runWithin graph [] program) ∧
      (∀ (material : BlockIndex) (block : Block), graph.get material = .ok block →
        (Machine.start [] .empty (roots block)).Returns graph []
            (ensureAll graph block Phase.all .empty) ∧
          (∀ count, ((Machine.start [] .empty (roots block)).after graph count).WithinBounds
            .empty [] graph.size graph.size) ∧
          (graph.WordNumbered → ∀ count call,
            .step (.add call) ∈ ((Machine.start [] .empty (roots block)).after graph count).todo →
              (call.priority + 1).toNat = call.priority.toNat + 1) ∧
          ∀ compiled, graph.compile material = .ok compiled → ∀ call ∈ compiled.calls,
            call.priority.toNat < graph.size ∧
              (graph.WordNumbered → (call.priority + 1).toNat = call.priority.toNat + 1)) ∧
      ∀ workshop, Relation.ReflTransGen Workshop.Step .start workshop → workshop.graph = graph →
        workshop.supply.next ≤ UInt32.size → graph.WordNumbered := by
  refine ⟨fun ask program active => ⟨ask.returns graph program active,
    ask.withinBounds graph program active, ask.run_eq graph program⟩, ?_, ?_⟩
  · intro material block found
    have held : block ∈ graph.blocks := (Graph.find?_eq_some.mp (Graph.get_eq_ok.mp found)).1
    refine ⟨returns_of_roots graph block, withinBounds_of_mem held,
      fun numbered count => (withinBounds_of_mem held count).successors numbered.size_lt, ?_⟩
    intro compiled compiles
    obtain ⟨other, program, otherFound, -, follows, rfl⟩ := Graph.follows_of_compile compiles
    obtain rfl : other = block :=
      Option.some.inj (otherFound.symm.trans (Graph.get_eq_ok.mp found))
    -- The machine comes to the program that was compiled.
    obtain ⟨count, reached⟩ := Machine.reaches_of_follows follows []
    have bounds := withinBounds_of_mem held count
    rw [List.append_nil] at reached
    rw [Machine.start, reached] at bounds
    intro call member
    have below := (bounds.ranks call member).resolve_left List.not_mem_nil
    exact ⟨below, fun numbered => toNat_succ_of_lt below numbered.size_lt⟩
  · rintro workshop reachable rfl fits
    exact Graph.wordNumbered_of_reachable reachable fits

/-- The surface that the looped scaling feeds is given up with nothing left on the stack, and the
calls of the one that compiles have priorities below three, none of which comes round. Asked for
with the last word, the surface is put in all the same, and what feeds it has priority zero. -/
theorem emission_returns_within_bounds_sample :
    (∃ block left, Sample.looped.get 3 = .ok block ∧
      (Machine.start [] .empty (roots block)).Returns Sample.looped []
        (.error (.cycle 2 .vertex) left)) ∧
      (∃ compiled, Sample.graph.compile 3 = .ok compiled ∧
        compiled.calls.map (·.priority) = [1, 0, 1, 1, 0] ∧ ∀ call ∈ compiled.calls,
          call.priority.toNat < 3 ∧ (call.priority + 1).toNat = call.priority.toNat + 1) ∧
      ∃ block last, Sample.graph.get 3 = .ok block ∧
        (Machine.start [(7, .vertex)] .empty
          ((Ask.ensure block .fragment 4294967295).steps Sample.graph)).Returns Sample.graph
            [(7, .vertex)] (.ok () last) ∧
        last.calls.map (·.priority) = [0, 0, 4294967295] := by
  let looping := Sample.surface (some Sample.scaled) (some Sample.scaled)
  let surface := Sample.surface (some Sample.height) (some Sample.scaled)
  have found : Sample.looped.get 3 = .ok looping := rfl
  have held : Sample.graph.get 3 = .ok surface := rfl
  refine ⟨?_, ?_, ?_⟩
  · obtain ⟨left, failed⟩ : ∃ left, ensureAll Sample.looped looping Phase.all .empty =
        .error (.cycle 2 .vertex) left := ⟨_, rfl⟩
    have returned := ((emission_returns_within_bounds Sample.looped).2.1 3 looping found).1
    rw [failed] at returned
    exact ⟨looping, left, found, returned⟩
  · have ran : (Sample.graph.compile 3).toOption.map
        (fun compiled => compiled.calls.map (·.priority)) = some [1, 0, 1, 1, 0] := rfl
    cases compiles : Sample.graph.compile 3 with
    | error error =>
      rw [compiles] at ran
      contradiction
    | ok compiled =>
      rw [compiles] at ran
      have numbered : Sample.graph.WordNumbered :=
        show ∀ block ∈ Sample.graph.blocks, 0 < block.index ∧ block.index < UInt32.size by decide
      have bounds := ((emission_returns_within_bounds Sample.graph).2.1 3 surface held).2.2.2
        compiled compiles
      exact ⟨compiled, rfl, Option.some.inj ran,
        fun call member => ⟨(bounds call member).1, (bounds call member).2 numbered⟩⟩
  · obtain ⟨last, ran, ranks⟩ : ∃ last,
        (Ask.ensure surface .fragment 4294967295).runWithin Sample.graph [(7, .vertex)] .empty =
          .ok () last ∧ last.calls.map (·.priority) = [0, 0, 4294967295] := ⟨_, rfl, rfl⟩
    have returned := ((emission_returns_within_bounds Sample.graph).1
      (.ensure surface .fragment 4294967295) .empty [(7, .vertex)]).1
    rw [ran] at returned
    exact ⟨surface, last, held, returned, ranks⟩

end ShaderBlocks.Emission
