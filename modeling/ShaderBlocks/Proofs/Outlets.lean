import ShaderBlocks.Graph.Basic

/-!
# The outlets of a block

A block that was made from its source has one outlet for each name that the source
describes, and linking changes nothing but where inputs take their values from.
Two facts about these outlets carry the rest of the theory. Every parameter and
uniform of either phase finds an outlet of its name, which goes the way that some
declaration of that name in the same phase says. The identifier of an outlet, the
variable of the program that holds its value, determines the block and the place of
the outlet among the outlets of the block, whatever the outlet is called.
-/

namespace ShaderBlocks

namespace Outlet

/-- The part of a text behind its last underscore is determined by the text. -/
theorem eq_of_append_underscore {first second firstEnd secondEnd : List Char}
    (noFirst : '_' ∉ firstEnd) (noSecond : '_' ∉ secondEnd)
    (same : first ++ '_' :: firstEnd = second ++ '_' :: secondEnd) :
    first = second ∧ firstEnd = secondEnd := by
  rcases List.append_eq_append_iff.mp same with ⟨gap, secondEq, tail⟩ | ⟨gap, firstEq, tail⟩
  · cases gap with
    | nil => simp_all
    | cons c gap =>
      -- The gap would put the second underscore into the first ending.
      simp only [List.cons_append, List.cons.injEq] at tail
      exact absurd (tail.2 ▸ List.mem_append_right _ List.mem_cons_self) noFirst
  · cases gap with
    | nil => simp_all
    | cons c gap =>
      simp only [List.cons_append, List.cons.injEq] at tail
      exact absurd (tail.2 ▸ List.mem_append_right _ List.mem_cons_self) noSecond

/-- The decimal numeral of a number has no underscore. -/
theorem underscore_notMem_toString (number : Nat) : '_' ∉ (toString number).toList := by
  rw [Nat.toString_eq_repr, Nat.toList_repr]
  exact Nat.underscore_not_in_toDigits

/-- A number is determined by its decimal numeral. -/
theorem eq_of_toString_toList_eq {first second : Nat}
    (same : (toString first).toList = (toString second).toList) : first = second := by
  simp only [Nat.toString_eq_repr, Nat.toList_repr] at same
  have decoded := congrArg (fun digits => Nat.ofDigitChars 10 digits 0) same
  simpa using decoded

/-- An identifier determines the number of the block and the place, whatever the
hint. -/
theorem idFor_inj {hint otherHint : String} {owner otherOwner : BlockIndex}
    {slot otherSlot : Nat}
    (same : idFor hint owner slot = idFor otherHint otherOwner otherSlot) :
    owner = otherOwner ∧ slot = otherSlot := by
  have letters := congrArg String.toList same
  simp only [idFor, String.toList_append, show ("_" : String).toList = ['_'] from rfl] at letters
  have cut : (hint.toList ++ '_' :: (toString owner).toList) ++ '_' :: (toString slot).toList =
      (otherHint.toList ++ '_' :: (toString otherOwner).toList) ++
        '_' :: (toString otherSlot).toList := by
    simpa using letters
  have slots := eq_of_append_underscore (underscore_notMem_toString slot)
    (underscore_notMem_toString otherSlot) cut
  have owners := eq_of_append_underscore (underscore_notMem_toString owner)
    (underscore_notMem_toString otherOwner) slots.1
  exact ⟨eq_of_toString_toList_eq owners.2, eq_of_toString_toList_eq slots.2⟩

/-- Making outlets keeps their descriptions. -/
theorem map_toOutletSpec_seed (owner : BlockIndex) (slot : Nat) (specs : List OutletSpec) :
    (seed owner slot specs).map toOutletSpec = specs := by
  induction specs generalizing slot with
  | nil => rfl
  | cons spec rest ih => simp [seed, ih]

/-- The identifier of an outlet that was just made tells its place. -/
theorem id_of_seed {owner : BlockIndex} {slot offset : Nat} {specs : List OutletSpec}
    {outlet : Outlet} (place : (seed owner slot specs)[offset]? = some outlet) :
    outlet.id = idFor outlet.hint owner (slot + offset) := by
  induction specs generalizing slot offset with
  | nil => simp [seed] at place
  | cons spec rest ih =>
    cases offset with
    | zero =>
      simp only [seed, List.getElem?_cons_zero, Option.some.injEq] at place
      subst place
      rfl
    | succ offset =>
      simp only [seed, List.getElem?_cons_succ] at place
      rw [ih place]
      congr 1
      omega

/-- Outlets that were just made are not fed. -/
theorem feed_of_mem_seed {owner : BlockIndex} {slot : Nat} {specs : List OutletSpec}
    {outlet : Outlet} (member : outlet ∈ seed owner slot specs) : outlet.feed = none := by
  induction specs generalizing slot with
  | nil => simp [seed] at member
  | cons spec rest ih =>
    rcases List.mem_cons.mp member with same | inRest
    · rw [same]
    · exact ih inRest

/-- Linking keeps what stands at each place but for the link. -/
theorem getElem?_setFeed {name : String} {feed : Option Endpoint} {outlets : List Outlet}
    {slot : Nat} {outlet : Outlet} (place : (setFeed name feed outlets)[slot]? = some outlet) :
    ∃ before, outlets[slot]? = some before ∧ outlet.toOutletSpec = before.toOutletSpec ∧
      outlet.id = before.id := by
  induction outlets generalizing slot with
  | nil => simp [setFeed] at place
  | cons first rest ih =>
    simp only [setFeed] at place
    cases slot with
    | zero =>
      refine ⟨first, rfl, ?_⟩
      split at place <;> simp only [List.getElem?_cons_zero, Option.some.injEq] at place <;>
        subst place <;> exact ⟨rfl, rfl⟩
    | succ slot =>
      split at place
      · exact ⟨outlet, by simpa using place, rfl, rfl⟩
      · simpa using ih (by simpa using place)

/-- Linking keeps the descriptions of the outlets. -/
theorem map_toOutletSpec_setFeed (name : String) (feed : Option Endpoint)
    (outlets : List Outlet) :
    (setFeed name feed outlets).map toOutletSpec = outlets.map toOutletSpec := by
  induction outlets with
  | nil => rfl
  | cons first rest ih =>
    simp only [setFeed]
    split
    · rfl
    · simp [ih]

/-- Linking changes at most the first outlet of the name. -/
theorem mem_of_mem_setFeed {name : String} {feed : Option Endpoint} {outlets : List Outlet}
    {target outlet : Outlet} (found : outlets.find? (·.name == name) = some target)
    (member : outlet ∈ setFeed name feed outlets) :
    outlet ∈ outlets ∨ outlet = { target with feed } := by
  induction outlets with
  | nil => simp at found
  | cons first rest ih =>
    simp only [setFeed] at member
    by_cases named : first.name = name
    · simp only [List.find?_cons, beq_iff_eq.mpr named, Option.some.injEq] at found
      subst found
      rw [if_pos named] at member
      rcases List.mem_cons.mp member with same | inRest
      · exact .inr same
      · exact .inl (List.mem_cons_of_mem _ inRest)
    · simp only [List.find?_cons, beq_eq_false_iff_ne.mpr named] at found
      rw [if_neg named] at member
      rcases List.mem_cons.mp member with same | inRest
      · exact .inl (same ▸ List.mem_cons_self)
      · exact (ih found inRest).imp_left (List.mem_cons_of_mem _)

end Outlet

namespace Fragment

/-- An outlet of a fragment stands for one of its parameters or uniforms. -/
theorem mem_outlets {fragment : Fragment} {spec : OutletSpec} :
    spec ∈ fragment.outlets ↔
      (∃ parameter ∈ fragment.parameters, OutletSpec.ofParameter parameter = spec) ∨
        ∃ uniform ∈ fragment.uniforms, OutletSpec.ofUniform uniform = spec := by
  simp [outlets]

/-- A parameter is described among the outlets. -/
theorem ofParameter_mem_outlets {fragment : Fragment} {parameter : Parameter}
    (member : parameter ∈ fragment.parameters) :
    OutletSpec.ofParameter parameter ∈ fragment.outlets :=
  mem_outlets.mpr (.inl ⟨parameter, member, rfl⟩)

/-- A uniform is described among the outlets. -/
theorem ofUniform_mem_outlets {fragment : Fragment} {uniform : Uniform}
    (member : uniform ∈ fragment.uniforms) :
    OutletSpec.ofUniform uniform ∈ fragment.outlets :=
  mem_outlets.mpr (.inr ⟨uniform, member, rfl⟩)

end Fragment

namespace BlockKind

/-- Merging keeps what was found by name before. -/
theorem find?_of_mergeOutlets {merged specs all : List OutletSpec} {name : String}
    {held : OutletSpec} (done : mergeOutlets merged specs = .ok all)
    (found : merged.find? (·.name == name) = some held) :
    all.find? (·.name == name) = some held := by
  induction specs generalizing merged with
  | nil =>
    simp only [mergeOutlets, Except.ok.injEq] at done
    exact done ▸ found
  | cons spec rest ih =>
    simp only [mergeOutlets] at done
    split at done
    · split at done
      · exact ih done found
      · contradiction
    · exact ih done (by rw [List.find?_append, found]; rfl)

/-- Every outlet that is merged in finds one of its name that agrees with it. -/
theorem agrees_of_mergeOutlets {merged specs all : List OutletSpec} {spec : OutletSpec}
    (done : mergeOutlets merged specs = .ok all) (member : spec ∈ specs) :
    ∃ held, all.find? (·.name == spec.name) = some held ∧ held.agrees spec = true := by
  induction specs generalizing merged with
  | nil => simp at member
  | cons first rest ih =>
    simp only [mergeOutlets] at done
    rcases List.mem_cons.mp member with same | inRest
    · subst same
      split at done
      · rename_i held found
        split at done
        · rename_i agreed
          exact ⟨held, find?_of_mergeOutlets done found, agreed⟩
        · contradiction
      · rename_i absent
        have found : (merged ++ [spec]).find? (·.name == spec.name) = some spec := by
          rw [List.find?_append, absent]
          simp
        exact ⟨spec, find?_of_mergeOutlets done found, by simp [OutletSpec.agrees]⟩
    · split at done
      · split at done
        · exact ih done inRest
        · contradiction
      · exact ih done inRest

/-- Merging adds nothing of its own. -/
theorem mem_of_mergeOutlets {merged specs all : List OutletSpec} {spec : OutletSpec}
    (done : mergeOutlets merged specs = .ok all) (member : spec ∈ all) :
    spec ∈ merged ∨ spec ∈ specs := by
  induction specs generalizing merged with
  | nil =>
    simp only [mergeOutlets, Except.ok.injEq] at done
    exact .inl (done ▸ member)
  | cons first rest ih =>
    simp only [mergeOutlets] at done
    split at done
    · split at done
      · exact (ih done).imp_right (List.mem_cons_of_mem _)
      · contradiction
    · rcases ih done with held | inRest
      · rcases List.mem_append.mp held with inMerged | isFirst
        · exact .inl inMerged
        · exact .inr (List.mem_singleton.mp isFirst ▸ List.mem_cons_self)
      · exact .inr (List.mem_cons_of_mem _ inRest)

/-- Every outlet of a kind of block is described by a fragment. -/
theorem described_of_mem_outlets {kind : BlockKind} {specs : List OutletSpec}
    (made : kind.outlets = .ok specs) {spec : OutletSpec} (member : spec ∈ specs) :
    ∃ phase, spec ∈ (kind.fragmentFor phase).outlets := by
  cases kind with
  | snippet fragment =>
    simp only [outlets, Except.ok.injEq] at made
    exact ⟨.vertex, made ▸ member⟩
  | material vertex fragment =>
    rcases mem_of_mergeOutlets made member with inVertex | inFragment
    · exact ⟨.vertex, inVertex⟩
    · exact ⟨.fragment, inFragment⟩

/-- Whatever a fragment describes finds an outlet of its name, and this outlet goes
the way of some outlet of that name that the same fragment describes. -/
theorem find?_outlets {kind : BlockKind} {specs : List OutletSpec}
    (made : kind.outlets = .ok specs) (phase : Phase) {spec : OutletSpec}
    (described : spec ∈ (kind.fragmentFor phase).outlets) :
    ∃ held, specs.find? (·.name == spec.name) = some held ∧
      ∃ other ∈ (kind.fragmentFor phase).outlets,
        other.name = spec.name ∧ other.direction = held.direction := by
  -- Among the outlets of one fragment alone, what is found is itself described.
  have within : ∀ {own : List OutletSpec}, spec ∈ own → ∃ held,
      own.find? (·.name == spec.name) = some held ∧
        ∃ other ∈ own, other.name = spec.name ∧ other.direction = held.direction := by
    intro own member
    have hit : (own.find? (·.name == spec.name)).isSome :=
      List.find?_isSome.mpr ⟨spec, member, beq_self_eq_true _⟩
    obtain ⟨held, found⟩ := Option.isSome_iff_exists.mp hit
    exact ⟨held, found, held, List.mem_of_find?_eq_some found,
      by simpa using List.find?_some found, rfl⟩
  cases kind with
  | snippet fragment =>
    simp only [outlets, Except.ok.injEq] at made
    exact made ▸ within described
  | material vertex fragment =>
    simp only [outlets] at made
    cases phase with
    | vertex =>
      obtain ⟨held, found, other⟩ := within described
      exact ⟨held, find?_of_mergeOutlets made found, other⟩
    | fragment =>
      obtain ⟨held, found, agreed⟩ := agrees_of_mergeOutlets made described
      simp only [OutletSpec.agrees, decide_eq_true_eq] at agreed
      exact ⟨held, found, spec, described, rfl, agreed.2.1.symm⟩

end BlockKind

namespace Block

/-- The outlet of the given name. -/
def outlet? (block : Block) (name : String) : Option Outlet :=
  block.outlets.find? (·.name == name)

/-- Where the outlet of the given name takes its value from. -/
def feed? (block : Block) (name : String) : Option Endpoint :=
  (block.outlet? name).bind (·.feed)

/-- The node of a block finds its outlets by name. -/
theorem get_node_eq_ok {block : Block} {name : String} {outlet : Outlet} :
    block.node.get name = .ok outlet ↔ block.outlet? name = some outlet := by
  simp only [Node.get, outlet?, outlets]
  cases block.node.outlets.find? (·.name == name) <;> simp

/-- An outlet that was found is one of the block and has the name. -/
theorem mem_of_outlet? {block : Block} {name : String} {outlet : Outlet}
    (found : block.outlet? name = some outlet) :
    outlet ∈ block.outlets ∧ outlet.name = name :=
  ⟨List.mem_of_find?_eq_some found, by simpa using List.find?_some found⟩

/-- The outlets of the block are those that its source describes, each has the
identifier of its place, and nothing but inputs is fed. -/
structure Lawful (block : Block) : Prop where
  /-- The source describes the outlets. -/
  described : block.kind.outlets = .ok (block.outlets.map Outlet.toOutletSpec)
  /-- The identifier of an outlet tells the block and the place. -/
  identified : ∀ slot outlet, block.outlets[slot]? = some outlet →
    outlet.id = Outlet.idFor outlet.hint block.index slot
  /-- An outlet that is fed is an input. -/
  fedInput : ∀ outlet ∈ block.outlets, outlet.feed ≠ none → outlet.direction = .input

namespace Lawful

/-- Whatever the fragment of a phase describes finds an outlet of its name. The outlet
goes the way of a description of that name in the same phase. -/
theorem outlet?_of_described {block : Block} (lawful : block.Lawful) {phase : Phase}
    {spec : OutletSpec} (described : spec ∈ (block.fragmentFor phase).outlets) :
    ∃ outlet, block.outlet? spec.name = some outlet ∧
      ∃ other ∈ (block.fragmentFor phase).outlets,
        other.name = spec.name ∧ other.direction = outlet.direction := by
  obtain ⟨held, found, other⟩ :=
    BlockKind.find?_outlets lawful.described phase described
  rw [List.find?_map, Option.map_eq_some_iff] at found
  obtain ⟨outlet, hit, rfl⟩ := found
  exact ⟨outlet, hit, other⟩

/-- An outlet that is fed and has a description in a phase has an input description
there. -/
theorem input_of_fed {block : Block} (lawful : block.Lawful) {phase : Phase}
    {spec : OutletSpec} {feed : Endpoint}
    (described : spec ∈ (block.fragmentFor phase).outlets)
    (fed : block.feed? spec.name = some feed) :
    ∃ other ∈ (block.fragmentFor phase).outlets,
      other.name = spec.name ∧ other.direction = .input := by
  obtain ⟨outlet, found, other, member, named, way⟩ := lawful.outlet?_of_described described
  simp only [feed?, found, Option.bind_some] at fed
  have isInput := lawful.fedInput outlet (mem_of_outlet? found).1 (by simp [fed])
  exact ⟨other, member, named, way.trans isInput⟩

/-- Outlets with one identifier belong to blocks of one number. -/
theorem index_eq_of_id_eq {block other : Block} (lawful : block.Lawful)
    (otherLawful : other.Lawful) {outlet twin : Outlet} (member : outlet ∈ block.outlets)
    (twinMember : twin ∈ other.outlets) (same : outlet.id = twin.id) :
    block.index = other.index := by
  obtain ⟨slot, place⟩ := List.mem_iff_getElem?.mp member
  obtain ⟨twinSlot, twinPlace⟩ := List.mem_iff_getElem?.mp twinMember
  rw [lawful.identified slot outlet place, otherLawful.identified twinSlot twin twinPlace] at same
  exact (Outlet.idFor_inj same).1

/-- Outlets of one block with one identifier are one outlet. -/
theorem outlet_eq_of_id_eq {block : Block} (lawful : block.Lawful) {outlet twin : Outlet}
    (member : outlet ∈ block.outlets) (twinMember : twin ∈ block.outlets)
    (same : outlet.id = twin.id) : outlet = twin := by
  obtain ⟨slot, place⟩ := List.mem_iff_getElem?.mp member
  obtain ⟨twinSlot, twinPlace⟩ := List.mem_iff_getElem?.mp twinMember
  rw [lawful.identified slot outlet place, lawful.identified twinSlot twin twinPlace] at same
  rw [(Outlet.idFor_inj same).2, twinPlace] at place
  exact (Option.some.inj place).symm

end Lawful

end Block

end ShaderBlocks
