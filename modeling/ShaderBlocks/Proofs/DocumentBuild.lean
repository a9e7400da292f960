import ShaderBlocks.Proofs.DocumentPasses

/-!
# Building what a document means

The passes over a document succeed exactly on the documents that are in order, and what they build
is the graph that the document describes. Loops of groups are seen by each step of the second pass
among the blocks that are grouped so far, and by number; in the end they are the loops of the
document among its identifiers.
-/

namespace ShaderBlocks

namespace Document

/-- What is related to a list element by element is related to each element. -/
theorem exists_of_forall₂_left {α β : Type} {related : α → β → Prop} {lefts : List α}
    {rights : List β} (all : List.Forall₂ related lefts rights) {left : α}
    (member : left ∈ lefts) : ∃ right ∈ rights, related left right := by
  induction all with
  | nil => contradiction
  | cons first rest ih =>
    rcases List.mem_cons.mp member with rfl | behind
    · exact ⟨_, List.mem_cons_self, first⟩
    · obtain ⟨right, inRights, isRelated⟩ := ih behind
      exact ⟨right, List.mem_cons_of_mem _ inRights, isRelated⟩

/-- The graph has the blocks of the document, not grouped and not linked. -/
structure Makes (document : Document) (first : BlockIndex) (graph : Graph) : Prop where
  /-- No two blocks have one identifier. -/
  distinct : (document.blocks.map (·.id)).Nodup
  /-- The blocks are made of the definitions. -/
  blocks : List.Forall₂ BlockDefinition.Makes (document.entries first) graph.blocks

/-- The first pass succeeds exactly if no two blocks have one identifier and all are described. -/
theorem run_makeBlocks_document {document : Document} {first : BlockIndex} {graph : Graph}
    {ids : List (String × BlockIndex)} {after : Supply} :
    (makeBlocks document.blocks .empty []).run ⟨first⟩ = .ok (graph, ids) after ↔
      document.Makes first graph ∧ ids = document.ids first ∧
        after = ⟨first + document.blocks.length⟩ := by
  rw [run_makeBlocks_eq_ok (by simp [Graph.empty])]
  simp only [List.map_nil, List.not_mem_nil, not_false_eq_true, implies_true, and_true,
    Graph.empty, List.nil_append]
  constructor
  · rintro ⟨distinct, ⟨made, makes, rfl⟩, isIds, isAfter⟩
    exact ⟨⟨distinct, makes⟩, isIds, isAfter⟩
  · rintro ⟨makes, isIds, isAfter⟩
    exact ⟨makes.distinct, ⟨_, makes.blocks, rfl⟩, isIds, isAfter⟩

/-- Blocks that are described can be made. -/
theorem exists_makes {document : Document} (distinct : (document.blocks.map (·.id)).Nodup)
    (described : ∀ definition ∈ document.blocks, ∃ kind specs, definition.Describes kind specs)
    (first : BlockIndex) : ∃ graph, document.Makes first graph := by
  have each : ∀ entries : List (BlockDefinition × BlockIndex),
      (∀ entry ∈ entries, ∃ kind specs, entry.1.Describes kind specs) →
        ∃ made, List.Forall₂ BlockDefinition.Makes entries made := by
    intro entries all
    induction entries with
    | nil => exact ⟨[], .nil⟩
    | cons entry rest ih =>
      obtain ⟨⟨kind, specs, describes⟩, restAll⟩ := List.forall_mem_cons.mp all
      obtain ⟨made, makes⟩ := ih restAll
      exact ⟨_ :: made, .cons ⟨kind, specs, describes, rfl⟩ makes⟩
  obtain ⟨made, makes⟩ := each (document.entries first) fun entry member =>
    described entry.1 (mem_of_mem_entries member)
  -- The numbers of the blocks are those of the entries, which ascend.
  have numbers : made.map (·.index) = (document.entries first).map (·.2) := by
    rw [← List.forall₂_eq_eq_eq, List.forall₂_map_left_iff, List.forall₂_map_right_iff]
    refine List.Forall₂.flip (makes.imp fun entry block isMade => ?_)
    obtain ⟨kind, specs, -, rfl⟩ := isMade
    rfl
  have ordered : made.Pairwise fun first second => first.index < second.index := by
    rw [← List.pairwise_map (f := Block.index), numbers, map_snd_entries]
    exact List.pairwise_lt_range'
  exact ⟨⟨made, ordered⟩, distinct, makes⟩

namespace Makes

variable {document : Document} {first : BlockIndex} {graph : Graph}

/-- The block of an entry is found by its number. -/
theorem find?_of_mem (makes : document.Makes first graph)
    {entry : BlockDefinition × BlockIndex} (member : entry ∈ document.entries first) :
    ∃ kind specs, entry.1.Describes kind specs ∧
      graph.find? entry.2 = some (entry.1.blank entry.2 kind specs) := by
  obtain ⟨block, held, kind, specs, describes, rfl⟩ := exists_of_forall₂_left makes.blocks member
  exact ⟨kind, specs, describes, Graph.find?_eq_some.mpr ⟨held, rfl⟩⟩

/-- What is found is the block of an entry. -/
theorem of_find? (makes : document.Makes first graph) {index : BlockIndex} {block : Block}
    (found : graph.find? index = some block) :
    ∃ definition kind specs, (definition, index) ∈ document.entries first ∧
      definition.Describes kind specs ∧ block = definition.blank index kind specs := by
  obtain ⟨held, rfl⟩ := Graph.find?_eq_some.mp found
  obtain ⟨entry, member, kind, specs, describes, rfl⟩ :=
    exists_of_forall₂_left makes.blocks.flip held
  exact ⟨entry.1, kind, specs, member, describes, rfl⟩

/-- A number leads to a block exactly if it was handed out. -/
theorem isSome_find? (makes : document.Makes first graph) {index : BlockIndex} :
    (graph.find? index).isSome ↔ ∃ definition, (definition, index) ∈ document.entries first := by
  rw [Option.isSome_iff_exists]
  constructor
  · rintro ⟨block, found⟩
    obtain ⟨definition, -, -, member, -⟩ := makes.of_find? found
    exact ⟨definition, member⟩
  · rintro ⟨definition, member⟩
    obtain ⟨kind, specs, -, found⟩ := makes.find?_of_mem member
    exact ⟨_, found⟩

/-- No block is grouped. -/
theorem parent_eq_none (makes : document.Makes first graph) {index : BlockIndex} {block : Block}
    (found : graph.find? index = some block) : block.parent = none := by
  obtain ⟨definition, kind, specs, -, -, rfl⟩ := makes.of_find? found
  rfl

/-- Blocks that stand alone form a forest. -/
theorem forest (makes : document.Makes first graph) : graph.Forest := by
  have alone : ∀ child parent, ¬ graph.GroupedUnder child parent := by
    rintro child parent ⟨block, found, isParent⟩
    rw [makes.parent_eq_none found] at isParent
    contradiction
  refine ⟨fun child parent up => absurd up (alone child parent), fun index loop => ?_⟩
  obtain ⟨next, up, -⟩ := Relation.TransGen.head'_iff.mp loop
  exact alone index next up

end Makes

/-- A number is to be grouped under another one. -/
def GroupsNumbers (document : Document) (first child parent : BlockIndex) : Prop :=
  (child, parent) ∈ document.groupings first (document.entries first)

/-- Numbers are grouped as their identifiers are. -/
theorem groupsNumbers_iff {document : Document} {first : BlockIndex}
    (distinct : (document.blocks.map (·.id)).Nodup) {child parent : BlockIndex} :
    document.GroupsNumbers first child parent ↔
      ∃ low high, document.GroupsUnder low high ∧ document.number? first low = some child ∧
        document.number? first high = some parent := by
  rw [GroupsNumbers, groupings, List.mem_filterMap]
  constructor
  · rintro ⟨entry, member, isPair⟩
    obtain ⟨number, numbered, same⟩ := Option.map_eq_some_iff.mp isPair
    obtain ⟨rfl, rfl⟩ := Prod.mk.inj same
    obtain ⟨high, isParent, isNumber⟩ := Option.bind_eq_some_iff.mp numbered
    exact ⟨entry.1.id, high, ⟨entry.1, mem_of_mem_entries member, rfl, isParent⟩,
      number?_of_mem distinct member, isNumber⟩
  · rintro ⟨_, high, ⟨definition, member, rfl, isParent⟩, childNumbered, parentNumbered⟩
    obtain ⟨index, inEntries⟩ := exists_entry member first
    obtain rfl := Option.some.inj ((number?_of_mem distinct inEntries).symm.trans childNumbered)
    exact ⟨_, inEntries, by simp [isParent, parentNumbered]⟩

/-- A path up between numbers is one between identifiers. -/
theorem exists_groupsUnder {document : Document} {first : BlockIndex}
    (distinct : (document.blocks.map (·.id)).Nodup) {child parent : BlockIndex}
    (path : Relation.TransGen (document.GroupsNumbers first) child parent) :
    ∃ low high, document.number? first low = some child ∧
      document.number? first high = some parent ∧
        Relation.TransGen document.GroupsUnder low high := by
  induction path with
  | single step =>
    obtain ⟨low, high, groups, isLow, isHigh⟩ := (groupsNumbers_iff distinct).mp step
    exact ⟨low, high, isLow, isHigh, .single groups⟩
  | tail _ step ih =>
    obtain ⟨low, middle, isLow, isMiddle, early⟩ := ih
    obtain ⟨other, high, groups, isOther, isHigh⟩ := (groupsNumbers_iff distinct).mp step
    obtain rfl := number?_inj isMiddle isOther
    exact ⟨low, high, isLow, isHigh, early.tail groups⟩

/-- A path up between identifiers is one between numbers, if all parents are there. -/
theorem exists_groupsNumbers {document : Document} (first : BlockIndex)
    (distinct : (document.blocks.map (·.id)).Nodup)
    (parents : ∀ child parent, document.GroupsUnder child parent →
      ∃ definition ∈ document.blocks, definition.id = parent)
    {low high : String} (path : Relation.TransGen document.GroupsUnder low high) :
    ∃ child parent, document.number? first low = some child ∧
      document.number? first high = some parent ∧
        Relation.TransGen (document.GroupsNumbers first) child parent := by
  have step : ∀ {low high}, document.GroupsUnder low high →
      ∃ child parent, document.number? first low = some child ∧
        document.number? first high = some parent ∧
          document.GroupsNumbers first child parent := by
    intro low high groups
    obtain ⟨parent, isParent⟩ := Option.isSome_iff_exists.mp
      ((isSome_number? first).mpr (parents low high groups))
    obtain ⟨definition, member, named, -⟩ := id groups
    obtain ⟨child, isChild⟩ := Option.isSome_iff_exists.mp
      ((isSome_number? first).mpr ⟨definition, member, named⟩)
    exact ⟨child, parent, isChild, isParent,
      (groupsNumbers_iff distinct).mpr ⟨low, high, groups, isChild, isParent⟩⟩
  induction path with
  | single groups =>
    obtain ⟨child, parent, isChild, isParent, isStep⟩ := step groups
    exact ⟨child, parent, isChild, isParent, .single isStep⟩
  | tail _ groups ih =>
    obtain ⟨child, middle, isChild, isMiddle, early⟩ := ih
    obtain ⟨other, parent, isOther, isParent, isStep⟩ := step groups
    obtain rfl := Option.some.inj (isMiddle.symm.trans isOther)
    exact ⟨child, parent, isChild, isParent, early.tail isStep⟩

/-- Numbers close a loop exactly if identifiers do. -/
theorem loopless_iff {document : Document} {first : BlockIndex}
    (distinct : (document.blocks.map (·.id)).Nodup)
    (parents : ∀ child parent, document.GroupsUnder child parent →
      ∃ definition ∈ document.blocks, definition.id = parent) :
    (∀ index, ¬ Relation.TransGen (document.GroupsNumbers first) index index) ↔
      ∀ id, ¬ Relation.TransGen document.GroupsUnder id id := by
  constructor
  · intro loopless id loop
    obtain ⟨child, parent, isChild, isParent, path⟩ :=
      exists_groupsNumbers first distinct parents loop
    obtain rfl := Option.some.inj (isChild.symm.trans isParent)
    exact loopless child path
  · intro loopless index loop
    obtain ⟨low, high, isLow, isHigh, path⟩ := exists_groupsUnder distinct loop
    obtain rfl := number?_inj isLow isHigh
    exact loopless low path

/-- No block is to be grouped twice. -/
theorem nodup_groupings (document : Document) (first : BlockIndex) :
    ((document.groupings first (document.entries first)).map (·.1)).Nodup := by
  have apart := document.nodup_snd_entries first
  rw [List.nodup_iff_pairwise_ne, List.pairwise_map] at apart
  rw [List.nodup_iff_pairwise_ne, List.pairwise_map, groupings, List.pairwise_filterMap]
  refine apart.imp fun {entry other} different pair isPair otherPair isOther => ?_
  obtain ⟨parent, -, rfl⟩ := Option.map_eq_some_iff.mp isPair
  obtain ⟨otherParent, -, rfl⟩ := Option.map_eq_some_iff.mp isOther
  exact different

namespace Makes

variable {document : Document} {first : BlockIndex} {graph : Graph}

/-- The second pass succeeds exactly if all parents are there and no block is grouped below
itself. -/
theorem group_eq_ok (makes : document.Makes first graph) {after : Graph} :
    group (document.ids first) document.blocks graph = .ok after ↔
      ((∀ child parent, document.GroupsUnder child parent →
        ∃ definition ∈ document.blocks, definition.id = parent) ∧
        ∀ id, ¬ Relation.TransGen document.GroupsUnder id id) ∧
      after.blocks = graph.blocks.map
        (Block.groupedBy (document.groupings first (document.entries first))) := by
  have numbered : ∀ entry ∈ document.entries first,
      document.number? first entry.1.id = some entry.2 := fun entry member =>
    number?_of_mem makes.distinct member
  have alone : graph.UpWith (document.groupings first (document.entries first)) =
      document.GroupsNumbers first := by
    funext child parent
    refine propext ⟨fun up => ?_, .inr⟩
    rcases up with ⟨block, found, isParent⟩ | pair
    · rw [makes.parent_eq_none found] at isParent
      contradiction
    · exact pair
  have held : ∀ pair ∈ document.groupings first (document.entries first),
      (graph.find? pair.1).isSome ∧ (graph.find? pair.2).isSome := by
    rintro ⟨child, parent⟩ pair
    obtain ⟨low, high, -, isLow, isHigh⟩ := (groupsNumbers_iff makes.distinct).mp pair
    obtain ⟨lowDefinition, lowMember, -⟩ := exists_of_number? isLow
    obtain ⟨highDefinition, highMember, -⟩ := exists_of_number? isHigh
    exact ⟨makes.isSome_find?.mpr ⟨_, lowMember⟩, makes.isSome_find?.mpr ⟨_, highMember⟩⟩
  have parentsKnown : (∀ entry ∈ document.entries first, ∀ parent, entry.1.parent = some parent →
        (document.number? first parent).isSome) ↔
      ∀ child parent, document.GroupsUnder child parent →
        ∃ definition ∈ document.blocks, definition.id = parent := by
    constructor
    · rintro known _ parent ⟨definition, member, rfl, isParent⟩
      obtain ⟨index, inEntries⟩ := exists_entry member first
      exact (isSome_number? first).mp (known _ inEntries parent isParent)
    · intro parents entry member parent isParent
      exact (isSome_number? first).mpr
        (parents _ parent ⟨entry.1, mem_of_mem_entries member, rfl, isParent⟩)
  have pass : group (document.ids first) document.blocks graph =
      group (document.ids first) ((document.entries first).map (·.1)) graph := by
    rw [map_fst_entries]
  rw [pass, Document.group_eq_ok numbered, parentsKnown,
    makes.forest.adoptAll_eq_ok (document.nodup_groupings first)
      (fun pair _ block found => makes.parent_eq_none found), alone, and_assoc]
  refine and_congr_right fun parents => ?_
  rw [loopless_iff makes.distinct parents]
  exact ⟨fun result => result.2, fun result => ⟨held, result⟩⟩

/-- The directions of outlets are those that the document gives. -/
theorem direction?_iff (makes : document.Makes first graph) {place : ConnectionEnd}
    {direction : Direction} :
    (∃ endpoint, document.endpoint? first place = some endpoint ∧
      graph.direction? endpoint = some direction) ↔ document.HasOutlet place direction := by
  have found : ∀ {definition : BlockDefinition} {index : BlockIndex} {kind : BlockKind}
      {specs : List OutletSpec},
      graph.find? index = some (definition.blank index kind specs) →
      (graph.direction? ⟨index, place.outlet⟩ = some direction ↔
        ∃ spec, specs.find? (·.name == place.outlet) = some spec ∧
          spec.direction = direction) := by
    intro definition index kind specs isFound
    have outlets : (Outlet.seed index 0 specs).map Outlet.toOutletSpec = specs :=
      Outlet.map_toOutletSpec_seed index 0 specs
    rw [Graph.direction?, isFound, Option.bind_some, ← Option.map_eq_some_iff]
    nth_rewrite 2 [← outlets]
    rw [List.find?_map, Option.map_map]
    rfl
  constructor
  · rintro ⟨endpoint, isEndpoint, way⟩
    obtain ⟨index, numbered, rfl⟩ := Option.map_eq_some_iff.mp isEndpoint
    obtain ⟨definition, member, named⟩ := exists_of_number? numbered
    obtain ⟨kind, specs, describes, isFound⟩ := makes.find?_of_mem member
    obtain ⟨spec, specFound, isWay⟩ := (found isFound).mp way
    exact ⟨definition, mem_of_mem_entries member, named, kind, specs, spec, describes, specFound,
      isWay⟩
  · rintro ⟨definition, member, named, kind, specs, spec, describes, specFound, isWay⟩
    obtain ⟨index, inEntries⟩ := exists_entry member first
    obtain ⟨otherKind, otherSpecs, otherDescribes, isFound⟩ := makes.find?_of_mem inEntries
    obtain ⟨rfl, rfl⟩ := describes.unique otherDescribes
    refine ⟨⟨index, place.outlet⟩, ?_, (found isFound).mpr ⟨spec, specFound, isWay⟩⟩
    rw [endpoint?, ← named, number?_of_mem makes.distinct inEntries, Option.map_some]

/-- The third pass succeeds exactly if every link leads from an output to an input. -/
theorem link_eq_ok (makes : document.Makes first graph) {grouped after : Graph}
    {pairs : List (BlockIndex × BlockIndex)}
    (isGrouped : grouped.blocks = graph.blocks.map (Block.groupedBy pairs)) :
    link (document.ids first) 0 document.connections grouped = .ok after ↔
      (∀ connection ∈ document.connections, document.HasOutlet connection.source .output ∧
        document.HasOutlet connection.target .input) ∧
      after.blocks = grouped.blocks.map
        (Block.linkedBy (document.linkings first document.connections)) := by
  have directions : grouped.direction? = graph.direction? :=
    Graph.direction?_of_blocks_map isGrouped (fun _ => rfl) fun _ => rfl
  rw [Document.link_eq_ok, Graph.connectAll_eq_ok, directions, ← and_assoc]
  refine and_congr_left fun _ => ?_
  simp only [← makes.direction?_iff]
  constructor
  · rintro ⟨known, ways⟩ connection member
    obtain ⟨sourceKnown, targetKnown⟩ := known connection member
    obtain ⟨source, isSource⟩ := Option.isSome_iff_exists.mp sourceKnown
    obtain ⟨target, isTarget⟩ := Option.isSome_iff_exists.mp targetKnown
    have made : (source, target) ∈ document.linkings first document.connections :=
      List.mem_filterMap.mpr ⟨connection, member, by simp [isSource, isTarget]⟩
    obtain ⟨sourceWay, targetWay⟩ := ways _ made
    exact ⟨⟨source, isSource, sourceWay⟩, ⟨target, isTarget, targetWay⟩⟩
  · intro ways
    refine ⟨fun connection member => ?_, fun made isMade => ?_⟩
    · obtain ⟨⟨source, isSource, -⟩, ⟨target, isTarget, -⟩⟩ := ways connection member
      simp [isSource, isTarget]
    · obtain ⟨connection, member, isLink⟩ := List.mem_filterMap.mp isMade
      obtain ⟨⟨source, isSource, sourceWay⟩, ⟨target, isTarget, targetWay⟩⟩ :=
        ways connection member
      rw [isSource, isTarget, Option.bind_some, Option.map_some, Option.some.injEq] at isLink
      rw [← isLink]
      exact ⟨sourceWay, targetWay⟩

/-- The material is found exactly if the document selects one. -/
theorem findMaterial_eq_ok (makes : document.Makes first graph) {linked : Graph}
    {change : Block → Block} (isLinked : linked.blocks = graph.blocks.map change)
    (numbered : ∀ block, (change block).index = block.index)
    (kind : ∀ block, (change block).kind = block.kind) {index : BlockIndex} :
    findMaterial document linked (document.ids first) = .ok index ↔
      ∃ definition, document.Selects definition ∧ (definition, index) ∈ document.entries first := by
  have kinds : ∀ {definition number}, (definition, number) ∈ document.entries first →
      ∃ block, linked.find? number = some block ∧
        block.isMaterial = definition.source.isMaterial := by
    intro definition number member
    obtain ⟨found, specs, describes, isFound⟩ := makes.find?_of_mem member
    refine ⟨_, by rw [Graph.find?_of_blocks_map isLinked numbered, isFound]; rfl, ?_⟩
    rw [Block.isMaterial, kind]
    exact describes.reads.isMaterial
  have listed : ∀ {definition number}, (definition, number) ∈ document.entries first →
      findBlock (document.ids first) definition.id = .ok number := fun member =>
    findBlock_eq_ok.mpr (number?_of_mem makes.distinct member)
  unfold findMaterial Selects
  cases document.material with
  | some id =>
    simp only [bind_eq_ok]
    constructor
    · rintro ⟨number, isNumber, chosen⟩
      obtain ⟨definition, member, named⟩ := exists_of_number? (findBlock_eq_ok.mp isNumber)
      obtain ⟨block, found, isMaterial⟩ := kinds member
      simp only [found] at chosen
      split at chosen
      · rename_i material
        obtain rfl := Except.ok.inj chosen
        exact ⟨definition, ⟨mem_of_mem_entries member, named, isMaterial ▸ material⟩, member⟩
      · contradiction
    · rintro ⟨definition, ⟨-, rfl, material⟩, member⟩
      obtain ⟨block, found, isMaterial⟩ := kinds member
      refine ⟨index, listed member, ?_⟩
      simp only [found, isMaterial, material]
      rfl
  | none =>
    simp only
    split
    · rename_i definition only
      have held : definition ∈ document.blocks := by
        have inFilter : definition ∈ document.blocks.filter (·.source.isMaterial) := by
          rw [only]
          exact List.mem_singleton_self definition
        exact List.mem_of_mem_filter inFilter
      obtain ⟨number, member⟩ := exists_entry held first
      simp only [listed member, only, Except.ok.injEq, List.cons.injEq, and_true, exists_eq_left']
      constructor
      · rintro rfl
        exact member
      · intro other
        exact congrArg (·.2) (entry_eq_of_id_eq makes.distinct member other rfl)
    · rename_i several
      constructor
      · intro chosen
        contradiction
      · rintro ⟨definition, only, -⟩
        exact absurd only (several definition)

end Makes

/-- The outlets of a block that was just made, one for each description. -/
theorem seed_eq_mapIdx (owner : BlockIndex) (slot : Nat) (specs : List OutletSpec) :
    Outlet.seed owner slot specs = specs.mapIdx fun place spec =>
      { spec with id := Outlet.idFor spec.hint owner (slot + place), feed := none } := by
  induction specs generalizing slot with
  | nil => rfl
  | cons spec rest ih =>
    rw [Outlet.seed, ih, List.mapIdx_cons]
    simp only [Nat.add_zero, Nat.add_assoc, Nat.add_comm 1]

/-- Only blocks that get a number are grouped. -/
theorem fst_mem_of_mem_groupings {document : Document} {first : BlockIndex}
    {entries : List (BlockDefinition × BlockIndex)} {pair : BlockIndex × BlockIndex}
    (member : pair ∈ document.groupings first entries) : pair.1 ∈ entries.map (·.2) := by
  obtain ⟨entry, inEntries, isPair⟩ := List.mem_filterMap.mp member
  obtain ⟨parent, -, rfl⟩ := Option.map_eq_some_iff.mp isPair
  exact List.mem_map_of_mem inEntries

/-- A block is grouped under the one that it names. -/
theorem lookup_groupings {document : Document} {first : BlockIndex}
    {entries : List (BlockDefinition × BlockIndex)} (apart : (entries.map (·.2)).Nodup)
    {entry : BlockDefinition × BlockIndex} (member : entry ∈ entries) :
    (document.groupings first entries).lookup entry.2 =
      entry.1.parent.bind (document.number? first) := by
  induction entries with
  | nil => contradiction
  | cons head rest ih =>
    obtain ⟨headApart, restApart⟩ := List.nodup_cons.mp apart
    rcases List.mem_cons.mp member with rfl | behind
    · cases isParent : entry.1.parent.bind (document.number? first) with
      | none =>
        rw [groupings_cons_of_none rest isParent, List.lookup_eq_none_iff]
        intro pair inRest
        refine bne_iff_ne.mpr fun same => headApart ?_
        have inside := fst_mem_of_mem_groupings inRest
        rwa [← same] at inside
      | some parent => rw [groupings_cons_of_some rest isParent, List.lookup_cons_self]
    · have different : entry.2 ≠ head.2 := fun same =>
        headApart (List.mem_map.mpr ⟨entry, behind, same⟩)
      cases isParent : head.1.parent.bind (document.number? first) with
      | none => rw [groupings_cons_of_none rest isParent, ih restApart behind]
      | some parent =>
        rw [groupings_cons_of_some rest isParent, List.lookup_cons, beq_false_of_ne different]
        exact ih restApart behind

/-- The blocks that name a block are grouped under it. -/
theorem filter_groupings {document : Document} {first index : BlockIndex} {id : String}
    (numbered : document.number? first id = some index)
    (entries : List (BlockDefinition × BlockIndex)) :
    ((document.groupings first entries).filter (·.2 == index)).map (·.1) =
      (entries.filter (·.1.parent == some id)).map (·.2) := by
  induction entries with
  | nil => rfl
  | cons head rest ih =>
    cases isParent : head.1.parent with
    | none =>
      rw [groupings_cons_of_none rest (by rw [isParent, Option.bind_none]), ih]
      simp [isParent]
    | some parent =>
      cases isNumber : document.number? first parent with
      | none =>
        have apart : parent ≠ id := by
          rintro rfl
          rw [isNumber] at numbered
          contradiction
        rw [groupings_cons_of_none rest (by rw [isParent, Option.bind_some, isNumber]), ih]
        simp [isParent, apart]
      | some number =>
        have same : number = index ↔ parent = id := by
          constructor
          · rintro rfl
            exact number?_inj isNumber numbered
          · rintro rfl
            exact Option.some.inj (isNumber.symm.trans numbered)
        rw [groupings_cons_of_some rest (by rw [isParent, Option.bind_some, isNumber])]
        by_cases here : parent = id
        · simp [isParent, here, same.mpr here, ih]
        · simp [isParent, here, mt same.mp here, ih]

/-- The last link to a number is the last link to its identifier. -/
theorem lastSource_linkings {document : Document} {first index : BlockIndex} {id : String}
    (numbered : document.number? first id = some index) (name : String)
    {connections : List Connection}
    (known : ∀ connection ∈ connections, (document.endpoint? first connection.source).isSome ∧
      (document.endpoint? first connection.target).isSome) :
    lastSource (document.linkings first connections) ⟨index, name⟩ =
      (connections.reverse.find? (·.target == ⟨id, name⟩)).bind fun connection =>
        document.endpoint? first connection.source := by
  induction connections with
  | nil => rfl
  | cons connection rest ih =>
    obtain ⟨⟨sourceKnown, targetKnown⟩, restKnown⟩ := List.forall_mem_cons.mp known
    obtain ⟨source, isSource⟩ := Option.isSome_iff_exists.mp sourceKnown
    obtain ⟨target, isTarget⟩ := Option.isSome_iff_exists.mp targetKnown
    have same : target = ⟨index, name⟩ ↔ connection.target = ⟨id, name⟩ := by
      obtain ⟨number, isNumber, rfl⟩ := Option.map_eq_some_iff.mp isTarget
      have ends : connection.target = ⟨id, name⟩ ↔
          connection.target.blockId = id ∧ connection.target.outlet = name := by
        cases connection.target
        simp
      rw [Endpoint.mk.injEq, ends]
      refine and_congr_left fun _ => ⟨?_, ?_⟩
      · rintro rfl
        exact number?_inj isNumber numbered
      · rintro rfl
        exact Option.some.inj (isNumber.symm.trans numbered)
    have first : document.linkings first (connection :: rest) =
        (source, target) :: document.linkings first rest :=
      List.filterMap_cons_some (by rw [isSource, isTarget, Option.bind_some, Option.map_some])
    rw [first, lastSource_cons, ih restKnown, List.reverse_cons, List.find?_append]
    cases later : rest.reverse.find? (·.target == ⟨id, name⟩) with
    | some other =>
      have member : other ∈ rest := List.mem_reverse.mp (List.mem_of_find?_eq_some later)
      obtain ⟨otherSource, isOther⟩ := Option.isSome_iff_exists.mp (restKnown other member).1
      simp [isOther]
    | none =>
      by_cases here : connection.target = ⟨id, name⟩
      · simp [here, same.mpr here, isSource]
      · simp [here, mt same.mp here]

/-- A block that was made, grouped and linked is what the document says of it. -/
theorem Makes.drawsBlock {document : Document} {first : BlockIndex} {graph : Graph}
    (makes : document.Makes first graph)
    (linked : ∀ connection ∈ document.connections,
      document.HasOutlet connection.source .output ∧ document.HasOutlet connection.target .input)
    {entry : BlockDefinition × BlockIndex} (member : entry ∈ document.entries first)
    {block : Block} (made : BlockDefinition.Makes entry block) :
    document.DrawsBlock first entry.1 entry.2
      ((block.groupedBy (document.groupings first (document.entries first))).linkedBy
        (document.linkings first document.connections)) := by
  obtain ⟨kind, specs, describes, rfl⟩ := made
  have numbered := number?_of_mem makes.distinct member
  have known : ∀ connection ∈ document.connections,
      (document.endpoint? first connection.source).isSome ∧
        (document.endpoint? first connection.target).isSome := by
    intro connection inDocument
    obtain ⟨hasSource, hasTarget⟩ := linked connection inDocument
    obtain ⟨source, isSource, -⟩ := makes.direction?_iff.mpr hasSource
    obtain ⟨target, isTarget, -⟩ := makes.direction?_iff.mpr hasTarget
    simp [isSource, isTarget]
  constructor
  · rfl
  · exact describes.reads
  · refine ⟨specs, describes.outlets, ?_⟩
    change Outlet.linkedBy _ entry.2 (Outlet.seed entry.2 0 specs) = _
    have names : (Outlet.seed entry.2 0 specs).map (·.name) = specs.map (·.name) := by
      have seeded := congrArg (List.map OutletSpec.name)
        (Outlet.map_toOutletSpec_seed entry.2 0 specs)
      simpa only [List.map_map, Function.comp_def] using seeded
    refine List.ext_getElem? fun slot => ?_
    rw [Outlet.linkedBy, names, seed_eq_mapIdx, outletsOf]
    simp only [List.getElem?_mapIdx, Option.map_map, Nat.zero_add]
    congr 1
    funext spec
    simp only [Function.comp, lastSource_linkings numbered _ known, feed?, Option.or_none]
    split <;> rfl
  · change (List.lookup entry.2 _).or none = _
    rw [lookup_groupings (document.nodup_snd_entries first) member, Option.or_none]
  · change [] ++ _ = _
    rw [List.nil_append]
    exact filter_groupings numbered (document.entries first)
  · rfl

/-- A document is built in three passes, and then the material is found. -/
theorem run_build_eq_ok {document : Document} {first : BlockIndex} {built : BuiltGraph}
    {after : Supply} :
    document.build.run ⟨first⟩ = .ok built after ↔
      ∃ made grouped, document.Makes first made ∧
        group (document.ids first) document.blocks made = .ok grouped ∧
        link (document.ids first) 0 document.connections grouped = .ok built.graph ∧
        findMaterial document built.graph (document.ids first) = .ok built.material ∧
        built.ids = document.ids first ∧ after = ⟨first + document.blocks.length⟩ := by
  simp only [build, run_bind_eq_ok, run_ofExcept_eq_ok, run_pure_eq_ok]
  constructor
  · rintro ⟨⟨made, ids⟩, _, isMade, grouped, _, ⟨isGrouped, rfl⟩, linked, _, ⟨isLinked, rfl⟩,
      material, _, ⟨isMaterial, rfl⟩, rfl, rfl⟩
    obtain ⟨makes, rfl, rfl⟩ := run_makeBlocks_document.mp isMade
    exact ⟨made, grouped, makes, isGrouped, isLinked, isMaterial, rfl, rfl⟩
  · rintro ⟨made, grouped, makes, isGrouped, isLinked, isMaterial, isIds, rfl⟩
    refine ⟨(made, document.ids first), _, run_makeBlocks_document.mpr ⟨makes, rfl, rfl⟩, grouped,
      _, ⟨isGrouped, rfl⟩, built.graph, _, ⟨isLinked, rfl⟩, built.material, _, ⟨isMaterial, rfl⟩,
      ?_, rfl⟩
    rw [← isIds]

/-- What is built is what the document describes. -/
theorem draws_of_build {document : Document} {first : BlockIndex} {built : BuiltGraph}
    {after : Supply} (done : document.build.run ⟨first⟩ = .ok built after) :
    document.Buildable ∧ document.Draws first built ∧
      after = ⟨first + document.blocks.length⟩ := by
  obtain ⟨made, grouped, makes, isGrouped, isLinked, isMaterial, isIds, isAfter⟩ :=
    run_build_eq_ok.mp done
  obtain ⟨⟨parents, loopless⟩, groupedBlocks⟩ := makes.group_eq_ok.mp isGrouped
  obtain ⟨linked, linkedBlocks⟩ := (makes.link_eq_ok groupedBlocks).mp isLinked
  rw [groupedBlocks, List.map_map] at linkedBlocks
  have selected :=
    (makes.findMaterial_eq_ok linkedBlocks (fun _ => rfl) (fun _ => rfl)).mp isMaterial
  refine ⟨⟨makes.distinct, ?_, parents, loopless, linked, ?_⟩, ⟨isIds, ?_, selected⟩, isAfter⟩
  · intro definition member
    obtain ⟨index, inEntries⟩ := exists_entry member first
    obtain ⟨kind, specs, describes, -⟩ := makes.find?_of_mem inEntries
    exact ⟨kind, specs, describes⟩
  · obtain ⟨definition, selects, -⟩ := selected
    exact ⟨definition, selects⟩
  · rw [linkedBlocks, List.forall₂_map_right_iff]
    have withMember := (List.forall₂_and_left _ _).mpr ⟨fun entry member => member, makes.blocks⟩
    exact withMember.imp fun entry block both => makes.drawsBlock linked both.1 both.2

/-- A document that is in order can be built. -/
theorem exists_build {document : Document} (buildable : document.Buildable)
    (first : BlockIndex) : ∃ built after, document.build.run ⟨first⟩ = .ok built after := by
  obtain ⟨made, makes⟩ := exists_makes buildable.distinct buildable.described first
  obtain ⟨grouped, groupedBlocks⟩ := made.exists_blocks_map
    (Block.groupedBy (document.groupings first (document.entries first))) fun _ => rfl
  obtain ⟨linked, linkedBlocks⟩ := grouped.exists_blocks_map
    (Block.linkedBy (document.linkings first document.connections)) fun _ => rfl
  have isGrouped := makes.group_eq_ok.mpr
    ⟨⟨buildable.parents, buildable.loopless⟩, groupedBlocks⟩
  have isLinked := (makes.link_eq_ok groupedBlocks).mpr ⟨buildable.linked, linkedBlocks⟩
  rw [groupedBlocks, List.map_map] at linkedBlocks
  obtain ⟨definition, selects⟩ := buildable.selected
  obtain ⟨index, member⟩ := exists_entry selects.mem first
  have isMaterial := (makes.findMaterial_eq_ok linkedBlocks (fun _ => rfl) (fun _ => rfl)).mpr
    ⟨definition, selects, member⟩
  exact ⟨⟨linked, document.ids first, index⟩, _,
    run_build_eq_ok.mpr ⟨made, grouped, makes, isGrouped, isLinked, isMaterial, rfl, rfl⟩⟩

/-- A document can be built exactly if it is in order, whatever number comes next. What is built is
the graph that it describes, and one number is taken for each block. -/
theorem build_iff_buildable (document : Document) (first : BlockIndex) :
    ((∃ built after, document.build.run ⟨first⟩ = .ok built after) ↔ document.Buildable) ∧
      ∀ built after, document.build.run ⟨first⟩ = .ok built after →
        document.Draws first built ∧ after = ⟨first + document.blocks.length⟩ := by
  refine ⟨⟨?_, fun buildable => exists_build buildable first⟩, fun built after done => ?_⟩
  · rintro ⟨built, after, done⟩
    exact (draws_of_build done).1
  · exact (draws_of_build done).2

end Document

namespace Sample

/-- A document with the wave and the surface. The wave is grouped under the surface, and the first
link to the surface is given up for the last one. -/
def document : Document where
  version := "1"
  metadata := ⟨"waves", none, none⟩
  blocks :=
    [⟨"wave", .snippet "uniform float speed; void wave(out float hOut) { hOut = speed; }", none,
        some "surface", []⟩,
      ⟨"still", .snippet "void still(out float yOut) { yOut = 0.0; }", none, none, []⟩,
      ⟨"surface", .material "void main(in float aIn) { }"
        "void main(in float aIn, in float bIn) { }", none, none, [("layer", .null)]⟩]
  connections :=
    [⟨none, ⟨"still", "yOut"⟩, ⟨"surface", "aIn"⟩⟩, ⟨none, ⟨"still", "yOut"⟩, ⟨"surface", "bIn"⟩⟩,
      ⟨some "swell", ⟨"wave", "hOut"⟩, ⟨"surface", "aIn"⟩⟩]
  material := none

end Sample

/-- The sample is in order and is built from the fifth number on, with the surface last. -/
theorem Document.build_iff_buildable_sample :
    Sample.document.Buildable ∧ ∃ built, Sample.document.build.run ⟨5⟩ = .ok built ⟨8⟩ ∧
      Sample.document.Draws 5 built ∧ built.material = 7 := by
  have done : ∃ built, Sample.document.build.run ⟨5⟩ = .ok built ⟨8⟩ ∧ built.material = 7 :=
    ⟨_, rfl, rfl⟩
  obtain ⟨built, isBuilt, isMaterial⟩ := done
  obtain ⟨inOrder, draws⟩ := build_iff_buildable Sample.document 5
  exact ⟨inOrder.mp ⟨built, _, isBuilt⟩, built, isBuilt, (draws built _ isBuilt).1, isMaterial⟩

end ShaderBlocks
