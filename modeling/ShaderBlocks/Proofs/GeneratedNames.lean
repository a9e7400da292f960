import ShaderBlocks.Proofs.CallNames

/-!
# What generated names identify

Two kinds of names are generated. The name of a call is put together from a phase, the base name of
a fragment and the number of a block; a base name that comes from outside is made fit for it first.
The identifier of an outlet is put together from a part of the name of the outlet, the number of its
block and its place. Names that come from outside may hold underscores and digits, but numbers stand
behind them and hold no underscore, so both kinds of names can be taken apart from their end.
-/

namespace ShaderBlocks

open Text

/-- Outlets of a graph with one identifier stand at one place of one block. -/
theorem Graph.Lawful.place_eq_of_id_eq {graph : Graph} (lawful : graph.Lawful)
    {block other : Block} (inGraph : block ∈ graph.blocks) (otherInGraph : other ∈ graph.blocks)
    {slot twinSlot : Nat} {outlet twin : Outlet} (place : block.outlets[slot]? = some outlet)
    (twinPlace : other.outlets[twinSlot]? = some twin) (same : outlet.id = twin.id) :
    block = other ∧ slot = twinSlot := by
  rw [(lawful block inGraph).identified slot outlet place,
    (lawful other otherInGraph).identified twinSlot twin twinPlace] at same
  obtain ⟨numbers, slots⟩ := Outlet.idFor_inj same
  exact ⟨graph.eq_of_index_eq inGraph otherInGraph numbers, slots⟩

/-- No outlet has the name of a call as its identifier: they differ in their first letter. -/
theorem Outlet.idFor_ne_callName (hint : String) (index : BlockIndex) (slot : Nat) (phase : Phase)
    (base : String) (owner : BlockIndex) : idFor hint index slot ≠ callName phase base owner := by
  intro same
  have letters := congrArg String.toList same
  simp [idFor, callName] at letters

/-- Generated names identify what they name. The name of a call is an identifier, whatever its base
name was made from, and tells the phase, the base name and the number. The identifier of an outlet
tells the block and the place of the outlet in every graph that can be had, and is not the name of
any call. -/
theorem generated_names_identify {graph : Graph} (obtainable : graph.Obtainable) :
    (∀ (phase : Phase) (name : String) (owner : BlockIndex),
      isIdentifier (callName phase (sanitize name) owner).toList = true) ∧
    (∀ (phase otherPhase : Phase) (name otherName : String) (owner other : BlockIndex),
      callName phase (sanitize name) owner = callName otherPhase (sanitize otherName) other →
        phase = otherPhase ∧ sanitize name = sanitize otherName ∧ owner = other) ∧
    (∀ block ∈ graph.blocks, ∀ other ∈ graph.blocks, ∀ (slot twinSlot : Nat) (outlet twin : Outlet),
      block.outlets[slot]? = some outlet → other.outlets[twinSlot]? = some twin →
        outlet.id = twin.id → block = other ∧ slot = twinSlot) ∧
    ∀ block ∈ graph.blocks, ∀ outlet ∈ block.outlets, ∀ (phase : Phase) (base : String)
      (owner : BlockIndex), outlet.id ≠ callName phase base owner := by
  refine ⟨fun phase name owner => ?_, fun _ _ _ _ _ _ => callName_inj, ?_, ?_⟩
  · exact (isGenerated_callName phase (isWord_sanitize name).2 owner).isIdentifier
  · intro block inGraph other otherInGraph slot twinSlot outlet twin place twinPlace
    exact obtainable.lawful.place_eq_of_id_eq inGraph otherInGraph place twinPlace
  · intro block inGraph outlet member phase base owner
    obtain ⟨slot, place⟩ := List.mem_iff_getElem?.mp member
    rw [(obtainable.lawful block inGraph).identified slot outlet place]
    exact Outlet.idFor_ne_callName _ _ _ phase base owner

/-- In the sample graph the identifier of the wave's uniform stands at one place, and two calls of
blocks 2 and 12 do not get one name by an underscore and a digit in the base name of the first. -/
theorem generated_names_identify_sample :
    Sample.graph.Obtainable ∧
      isIdentifier (callName .fragment (sanitize "3 soft-lights") 12).toList = true ∧
      callName .vertex (sanitize "tone_1") 2 ≠ callName .vertex (sanitize "tone") 12 ∧
      (∃ outlet, Sample.wave.outlets[1]? = some outlet ∧ outlet.id = "v_speed_1_1" ∧
        ∀ block ∈ Sample.graph.blocks, ∀ slot twin, block.outlets[slot]? = some twin →
          twin.id = "v_speed_1_1" → Sample.wave = block ∧ 1 = slot) ∧
      ∀ outlet ∈ Sample.wave.outlets, outlet.id ≠ callName .fragment "wave" 1 := by
  have obtainable := Sample.graph_built.obtainable
  have inGraph : Sample.wave ∈ Sample.graph.blocks := List.mem_cons_self
  obtain ⟨identifier, calls, outlets, apart⟩ := generated_names_identify obtainable
  refine ⟨obtainable, identifier .fragment "3 soft-lights" 12, fun same => ?_,
    ⟨_, rfl, rfl, fun block member slot twin place same => ?_⟩,
    fun outlet member => apart _ inGraph outlet member .fragment "wave" 1⟩
  · exact absurd (calls _ _ "tone_1" "tone" 2 12 same).2.2 (by decide)
  · exact outlets _ inGraph block member 1 slot _ twin rfl place same.symm

end ShaderBlocks
