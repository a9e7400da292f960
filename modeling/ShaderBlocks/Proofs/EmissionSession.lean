import ShaderBlocks.Proofs.Construction
import ShaderBlocks.Proofs.EmissionMachine

/-!
# Asking on after a failure

A caller may keep one program under construction and go on asking after something failed. A block
is remembered as soon as it is entered. If an error comes up before its call is added, the block
is left behind: it stays remembered and has no call. Whoever asks for it later is told that the
program holds it, and nothing more is done.

So a block that was asked for with success is called once, unless an earlier ask of the session
failed while the block was being put in; then it is not called at all. The blocks that are being
put in when an ask fails are those on the stack of its machine at that time.
-/

namespace ShaderBlocks.Emission

open Program

namespace Follows

variable {graph : Graph} {path : List Key} {steps : List Step} {program last : Program}

/-- What is remembered stays so. -/
theorem includes_mono (follows : Follows graph path steps program last) {key : Key}
    (included : program.includes key = true) : last.includes key = true := by
  induction follows with
  | done => exact included
  | held outside already next ih => exact ih included
  | enter outside fresh inner next innerIh ih =>
    exact ih (innerIh ((includes_markIncluded ..).mpr (.inr included)))
  | declare declared next ih =>
    rcases declare_eq_ok declared with ⟨rfl, -⟩ | ⟨rfl, -⟩ <;> exact ih included
  | declareExternal declared next ih =>
    rcases declareExternal_eq_ok declared with ⟨rfl, -⟩ | ⟨rfl, -⟩ <;> exact ih included

/-- A block that was asked for is remembered. -/
theorem includes_of_demand (follows : Follows graph path steps program last) {block : Block}
    {phase : Phase} {priority : Priority} (asked : .demand block phase priority ∈ steps) :
    last.includes (block.index, phase) = true := by
  induction follows with
  | done => contradiction
  | held outside included next ih =>
    rcases List.mem_cons.mp asked with same | later
    · injection same with sameBlock samePhase
      exact next.includes_mono (sameBlock ▸ samePhase ▸ included)
    · exact ih later
  | @enter path other stage rank rest program middle last outside fresh inner next innerIh ih =>
    rcases List.mem_cons.mp asked with same | later
    · injection same with sameBlock samePhase
      have marked : (program.markIncluded (other.index, stage)).includes (other.index, stage) =
          true := (includes_markIncluded ..).mpr (.inl rfl)
      rw [sameBlock, samePhase]
      exact next.includes_mono (inner.includes_mono marked)
    · exact ih later
  | declare declared next ih => exact ih ((List.mem_cons.mp asked).resolve_left (by simp))
  | declareExternal declared next ih => exact ih ((List.mem_cons.mp asked).resolve_left (by simp))

end Follows

namespace Ask

/-- The ask makes sure of a block, and does not call it again if the program holds it. -/
def Ensures : Ask → Prop
  | ensure .. => True
  | fetch .. => True
  | insert .. => False

/-- The program after an ask, whether it succeeded or failed. -/
def leaves (graph : Graph) (program : Program) (ask : Ask) : Program :=
  match ask.run graph program with
  | .ok _ last => last
  | .error _ left => left

/-- The ask fails while the block is being put in for the phase: an error comes up with the block
on the stack. -/
def Abandons (graph : Graph) (program : Program) (ask : Ask) (key : Key) : Prop :=
  ∃ count stack,
    Machine.BreaksAt graph (Machine.start [] program (ask.steps graph)) count stack ∧ key ∈ stack

variable {graph : Graph} {ask : Ask}

/-- The block in question is asked for. -/
theorem demand_mem (graph : Graph) (ensures : ask.Ensures) :
    ∃ priority, .demand ask.block ask.phase priority ∈ ask.steps graph := by
  cases ask with
  | ensure block phase priority => exact ⟨priority, List.mem_cons_self⟩
  | fetch block phase outlet priority => exact ⟨priority, List.mem_cons_self⟩
  | insert block phase priority => exact ensures.elim

/-- An ask that makes sure of a block adds no call itself. -/
theorem add_notMem_steps (ensures : ask.Ensures) (call : Call) : .add call ∉ ask.steps graph := by
  cases ask with
  | ensure block phase priority => simp [steps]
  | fetch block phase outlet priority => simp [steps, Graph.mem_demands]
  | insert block phase priority => exact ensures.elim

/-- An ask that succeeds. -/
theorem follows_of_run {program last : Program} (ensures : ask.Ensures)
    (done : ask.run graph program = .ok () last) :
    Follows graph [] (ask.steps graph) program last := by
  rw [run_eq] at done
  exact follows_of_ok (add_notMem_steps ensures) done

/-- An ask that fails. -/
theorem fails_of_run {program left : Program} {error : GraphError} (ensures : ask.Ensures)
    (failed : ask.run graph program = .error error left) :
    Fails graph [] (ask.steps graph) program error left := by
  rw [run_eq] at failed
  exact fails_of_follow_error ask.block (fun _ _ _ => eq_or_mem_of_demand_mem)
    (add_notMem_steps ensures) failed

/-- After an ask the program remembers, besides what it calls, the blocks that were left behind
before and those that this ask leaves behind. -/
theorem tracked_leaves (graph : Graph) {program : Program} {stale : List Key}
    (ensures : ask.Ensures) (tracked : program.Tracked stale) :
    ∃ more, (ask.leaves graph program).Tracked (more ++ stale) ∧
      ∀ key, ask.Abandons graph program key ↔ key ∈ more := by
  cases ran : ask.run graph program with
  | ok _ last =>
    have follows := follows_of_run ensures ran
    have reached := Machine.reaches_of_follows follows []
    rw [List.append_nil] at reached
    refine ⟨[], ?_, fun key => ?_⟩
    · rw [leaves, ran]
      exact follows.tracked_beside tracked
    · constructor
      · rintro ⟨count, stack, breaks, -⟩
        exact absurd breaks (Machine.not_breaksAt reached count)
      · intro member
        contradiction
  | error error left =>
    obtain ⟨entered, remembered, runs⟩ := Machine.breaks_of_fails (fails_of_run ensures ran)
    obtain ⟨count, breaks⟩ := (runs []).1
    rw [List.append_nil, List.append_nil] at breaks
    refine ⟨entered, ?_, fun key => ?_⟩
    · rw [leaves, ran]
      simpa using remembered stale tracked
    · constructor
      · rintro ⟨other, stack, again, member⟩
        exact again.unique breaks ▸ member
      · exact fun member => ⟨count, entered, breaks, member⟩

end Ask

/-- The program of a session after some asks, whether they succeeded or failed. -/
def session (graph : Graph) (program : Program) : List Ask → Program
  | [] => program
  | ask :: rest => session graph (ask.leaves graph program) rest

/-- Some ask of a session failed while the block was being put in for the phase. -/
def Abandoned (graph : Graph) (program : Program) : List Ask → Key → Prop
  | [], _ => False
  | ask :: rest, key =>
    ask.Abandons graph program key ∨ Abandoned graph (ask.leaves graph program) rest key

/-- After a session the program remembers, besides what it calls, the blocks that were left
behind. -/
theorem tracked_session (graph : Graph) {program : Program} {stale : List Key} {asks : List Ask}
    (ensuring : ∀ ask ∈ asks, ask.Ensures) (tracked : program.Tracked stale) :
    ∃ more, (session graph program asks).Tracked (more ++ stale) ∧
      ∀ key, Abandoned graph program asks key ↔ key ∈ more := by
  induction asks generalizing program stale with
  | nil => exact ⟨[], tracked, fun key => by simp [Abandoned]⟩
  | cons ask rest ih =>
    obtain ⟨ensures, later⟩ := List.forall_mem_cons.mp ensuring
    obtain ⟨now, trackedNow, abandonsNow⟩ := ask.tracked_leaves graph ensures tracked
    obtain ⟨more, trackedLast, abandonedLater⟩ := ih later trackedNow
    refine ⟨more ++ now, ?_, fun key => ?_⟩
    · rw [List.append_assoc]
      exact trackedLast
    · rw [Abandoned, abandonsNow, abandonedLater, List.mem_append, or_comm]

/-- In a session that began with an empty program and in which earlier asks may have failed: when a
block is ensured or fetched with success, the program calls it exactly once if no earlier ask
failed while the block was being put in for the phase, and does not call it at all otherwise. -/
theorem called_once_iff_not_abandoned {graph : Graph} {asks : List Ask} {ask : Ask}
    {last : Program} (ensuring : ∀ earlier ∈ asks, earlier.Ensures) (ensures : ask.Ensures)
    (done : ask.run graph (session graph .empty asks) = .ok () last) :
    (last.keys.count ask.key = 1 ↔ ¬Abandoned graph .empty asks ask.key) ∧
      (last.keys.count ask.key = 0 ↔ Abandoned graph .empty asks ask.key) := by
  obtain ⟨stale, tracked, abandoned⟩ := tracked_session graph ensuring Tracked.empty
  have follows := ask.follows_of_run ensures done
  rw [List.append_nil] at tracked
  have trackedLast : last.Tracked stale := follows.tracked_beside tracked
  obtain ⟨priority, asked⟩ := ask.demand_mem graph ensures
  have included : last.includes ask.key = true := follows.includes_of_demand asked
  rw [abandoned]
  by_cases left : ask.key ∈ stale
  · have uncalled : last.keys.count ask.key = 0 :=
      List.count_eq_zero.mpr (trackedLast.uncalled _ left)
    simp [uncalled, left]
  · have called : ask.key ∈ last.keys := ((trackedLast.included _).mp included).resolve_left left
    have once : last.keys.count ask.key = 1 :=
      List.count_eq_one_of_mem trackedLast.calledOnce called
    simp [once, left]

/-- The scaling is not fed, so that it is left behind when it is asked for. Asked for again it is
said to be there, but is not called; the wave is called once. -/
theorem called_once_iff_not_abandoned_sample :
    let graph := Sample.graphWith none none none none
    let scaling := Ask.ensure (Sample.scale none none) .fragment 0
    let wave := Ask.fetch Sample.wave .fragment (Sample.wave.outlets.head (by decide)) 0
    ∃ first second, scaling.run graph (session graph .empty [scaling]) = .ok () first ∧
      wave.run graph (session graph .empty [scaling]) = .ok () second ∧
      (first.keys.count (2, .fragment) = 0 ∧ Abandoned graph .empty [scaling] (2, .fragment)) ∧
      second.keys.count (1, .fragment) = 1 ∧ ¬Abandoned graph .empty [scaling] (1, .fragment) := by
  intro graph scaling wave
  have ensuring : ∀ earlier ∈ [scaling], earlier.Ensures := by
    intro earlier member
    rw [List.mem_singleton.mp member]
    trivial
  obtain ⟨first, again, uncalled⟩ : ∃ first,
      scaling.run graph (session graph .empty [scaling]) = .ok () first ∧
        first.keys.count (2, .fragment) = 0 := ⟨_, rfl, rfl⟩
  obtain ⟨second, fetched, called⟩ : ∃ second,
      wave.run graph (session graph .empty [scaling]) = .ok () second ∧
        second.keys.count (1, .fragment) = 1 := ⟨_, rfl, rfl⟩
  have scalingEnsures : scaling.Ensures := trivial
  have waveEnsures : wave.Ensures := trivial
  have left := (called_once_iff_not_abandoned ensuring scalingEnsures again).2.mp uncalled
  have kept := (called_once_iff_not_abandoned ensuring waveEnsures fetched).1.mp called
  exact ⟨first, second, again, fetched, ⟨uncalled, left⟩, called, kept⟩

/-- A block can be asked for with success and have no call: the scaling, which is not fed, is
refused the first time, and from then on it is said to be there and its output can be fetched. -/
theorem held_without_call :
    let graph := Sample.graphWith none none none none
    let scaling := Sample.scale none none
    (∃ left, Emission.ensure graph scaling .fragment 0 .empty =
      .error (.missingConnection 2 "xIn" "xIn") left) ∧
      ∃ last, Emission.ensure graph scaling .fragment 0
          (session graph .empty [.ensure scaling .fragment 0]) = .ok () last ∧
        last.calls = [] ∧
        ∃ output ∈ scaling.outlets,
          Emission.fetch graph scaling .fragment output 0
            (session graph .empty [.ensure scaling .fragment 0]) = .ok "v_y_2_1" last := by
  intro graph scaling
  refine ⟨⟨_, rfl⟩, _, rfl, rfl, ?_⟩
  exact ⟨⟨⟨"yOut", .float, .output, .parameter, none⟩, "v_y_2_1", none⟩,
    by simp [scaling, Sample.scale, Block.outlets], rfl⟩

end ShaderBlocks.Emission
