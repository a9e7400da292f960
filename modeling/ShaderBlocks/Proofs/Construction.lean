import Mathlib.Logic.Relation
import ShaderBlocks.Proofs.Relinking

/-!
# Graphs that can be built

A graph comes into being by adding blocks and by linking, grouping and annotating
them. `Obtainable` graphs are all that arise so, from any supplies of numbers and with
blocks copied from one graph into another. `Built` graphs are those of one workshop:
all blocks take their numbers from one supply and each is added once. Both kinds of
graph have lawful blocks only. In a built graph every link leads from an output that is
there, because no block is ever replaced by another.
-/

namespace ShaderBlocks

/-- The fragment was read from some source. -/
def Fragment.IsRead (fragment : Fragment) : Prop :=
  ∃ name source, Fragment.read name source = .ok fragment

/-- Every fragment of the block was read from some source. -/
def BlockKind.IsRead : BlockKind → Prop
  | snippet fragment => fragment.IsRead
  | material vertex fragment => vertex.IsRead ∧ fragment.IsRead

/-- A block outside any graph: it was made, and the values kept with it may have changed. -/
inductive Block.IsNew : Block → Prop
  | make {kind : BlockKind} {supply rest : Supply} {block : Block} (read : kind.IsRead)
      (made : (Block.make kind).run supply = .ok block rest) : IsNew block
  | editProperties {block : Block} (new : IsNew block)
      (change : List (String × Json) → List (String × Json)) :
      IsNew (block.editProperties change)

/-- A new block is lawful and not fed. -/
theorem Block.IsNew.lawful {block : Block} (new : block.IsNew) :
    block.Lawful ∧ ∀ outlet ∈ block.outlets, outlet.feed = none := by
  induction new with
  | make read made => exact ⟨(lawful_of_make made).1, (lawful_of_make made).2.1⟩
  | editProperties new change ih =>
    exact ⟨⟨ih.1.described, ih.1.identified, ih.1.fedInput⟩, ih.2⟩

/-- The kind of a block that was just made is the one that was asked for. -/
theorem Block.kind_of_make {kind : BlockKind} {supply rest : Supply} {block : Block}
    (made : (Block.make kind).run supply = .ok block rest) : block.kind = kind := by
  rw [run_make] at made
  split at made
  · cases made
    rfl
  · contradiction

/-- The fragments of a new block were read from some source. -/
theorem Block.IsNew.isRead {block : Block} (new : block.IsNew) : block.kind.IsRead := by
  induction new with
  | make read made => exact (kind_of_make made).symm ▸ read
  | editProperties new change ih => exact ih

/-- A block of read fragments has a read fragment for every phase. -/
theorem BlockKind.IsRead.fragmentFor {kind : BlockKind} (read : kind.IsRead) (phase : Phase) :
    (kind.fragmentFor phase).IsRead := by
  cases kind with
  | snippet fragment => exact read
  | material vertex fragment =>
    cases phase with
    | vertex => exact read.1
    | fragment => exact read.2

namespace Graph

/-- A graph that can be had at all: blocks may come from several supplies, replace
others of their number, and be copied from another graph with all their links. -/
inductive Obtainable : Graph → Prop
  | empty : Obtainable .empty
  | insertNew {graph : Graph} {block : Block} (before : Obtainable graph) (new : block.IsNew) :
      Obtainable (graph.insert block)
  | insertCopy {graph other : Graph} {block : Block} (before : Obtainable graph)
      (source : Obtainable other) (member : block ∈ other.blocks) :
      Obtainable (graph.insert block)
  | connect {graph after : Graph} {source target : Endpoint} (before : Obtainable graph)
      (done : graph.connect source target = .ok after) : Obtainable after
  | disconnect {graph after : Graph} {target : Endpoint} {feed : Option Endpoint}
      (before : Obtainable graph) (done : graph.disconnect target = .ok (after, feed)) :
      Obtainable after
  | adopt {graph after : Graph} {parent child : BlockIndex} (before : Obtainable graph)
      (done : graph.adopt parent child = .ok after) : Obtainable after
  | editProperties {graph after : Graph} {index : BlockIndex}
      {change : List (String × Json) → List (String × Json)} (before : Obtainable graph)
      (done : graph.editProperties index change = .ok after) : Obtainable after

/-- Adding a lawful block to a lawful graph leaves it lawful. -/
theorem Lawful.insert {graph : Graph} {block : Block} (lawful : graph.Lawful)
    (blockLawful : block.Lawful) : (graph.insert block).Lawful := by
  intro other member
  rcases eq_or_mem_of_mem_insertBlock member with same | inGraph
  · exact same ▸ blockLawful
  · exact lawful other inGraph

/-- Every graph that can be had has lawful blocks only. -/
theorem Obtainable.lawful {graph : Graph} (obtainable : graph.Obtainable) : graph.Lawful := by
  induction obtainable with
  | empty => intro block member; simp [Graph.empty] at member
  | insertNew before new ih => exact ih.insert new.lawful.1
  | insertCopy before source member ih sourceIh => exact ih.insert (sourceIh _ member)
  | connect before done ih => exact (relinked_connect done).lawful ih
  | disconnect before done ih => exact (relinked_disconnect done).lawful ih
  | adopt before done ih => exact (relinked_adopt done).lawful ih
  | editProperties before done ih => exact (relinked_editProperties done).lawful ih

/-- Every fragment of a graph that can be had was read from some source. -/
theorem Obtainable.isRead {graph : Graph} (obtainable : graph.Obtainable) :
    ∀ block ∈ graph.blocks, block.kind.IsRead := by
  have relinked : ∀ {before after : Graph}, Relinked before after →
      (∀ block ∈ before.blocks, block.kind.IsRead) → ∀ block ∈ after.blocks, block.kind.IsRead := by
    intro before after relinked read block member
    obtain ⟨old, oldMember, shape, -⟩ := relinked.origin block member
    rw [shape.kind]
    exact read old oldMember
  induction obtainable with
  | empty => intro block member; simp [Graph.empty] at member
  | insertNew before new ih =>
    intro block member
    rcases eq_or_mem_of_mem_insertBlock member with rfl | inGraph
    · exact new.isRead
    · exact ih block inGraph
  | insertCopy before source held ih sourceIh =>
    intro block member
    rcases eq_or_mem_of_mem_insertBlock member with rfl | inGraph
    · exact sourceIh block held
    · exact ih block inGraph
  | connect before done ih => exact relinked (relinked_connect done) ih
  | disconnect before done ih => exact relinked (relinked_disconnect done) ih
  | adopt before done ih => exact relinked (relinked_adopt done) ih
  | editProperties before done ih => exact relinked (relinked_editProperties done) ih

end Graph

/-- The supply has handed the number out. -/
def Supply.Issued (supply : Supply) (index : BlockIndex) : Prop :=
  Supply.start.next ≤ index ∧ index < supply.next

/-- A number that was handed out stays so when another one is. -/
theorem Supply.Issued.later {supply rest : Supply} {index : BlockIndex}
    (issued : supply.Issued index) (next : rest.next = supply.next + 1) : rest.Issued index :=
  ⟨issued.1, next ▸ Nat.lt_succ_of_lt issued.2⟩

/-- One supply of numbers, the blocks made with it that are not in the graph yet, and the
graph. -/
structure Workshop where
  /-- The supply of numbers. -/
  supply : Supply
  /-- The blocks that wait to be added. -/
  spare : List Block
  /-- The graph. -/
  graph : Graph

namespace Workshop

/-- Nothing has been made. -/
def start : Workshop := ⟨.start, [], .empty⟩

/-- One use of a workshop. A use that fails and takes no number changes nothing and is
left out. -/
inductive Step : Workshop → Workshop → Prop
  | make {workshop : Workshop} {kind : BlockKind} {block : Block} {rest : Supply}
      (read : kind.IsRead) (made : (Block.make kind).run workshop.supply = .ok block rest) :
      Step workshop ⟨rest, block :: workshop.spare, workshop.graph⟩
  | spoil {workshop : Workshop} {kind : BlockKind} {error : GraphError} {rest : Supply}
      (read : kind.IsRead) (failed : (Block.make kind).run workshop.supply = .error error rest) :
      Step workshop ⟨rest, workshop.spare, workshop.graph⟩
  | annotate {supply : Supply} {front back : List Block} {block : Block} {graph : Graph}
      (change : List (String × Json) → List (String × Json)) :
      Step ⟨supply, front ++ block :: back, graph⟩
        ⟨supply, front ++ block.editProperties change :: back, graph⟩
  | add {supply : Supply} {front back : List Block} {block : Block} {graph : Graph} :
      Step ⟨supply, front ++ block :: back, graph⟩ ⟨supply, front ++ back, graph.insert block⟩
  | connect {workshop : Workshop} {after : Graph} {source target : Endpoint}
      (done : workshop.graph.connect source target = .ok after) :
      Step workshop { workshop with graph := after }
  | disconnect {workshop : Workshop} {after : Graph} {target : Endpoint} {feed : Option Endpoint}
      (done : workshop.graph.disconnect target = .ok (after, feed)) :
      Step workshop { workshop with graph := after }
  | adopt {workshop : Workshop} {after : Graph} {parent child : BlockIndex}
      (done : workshop.graph.adopt parent child = .ok after) :
      Step workshop { workshop with graph := after }
  | editProperties {workshop : Workshop} {after : Graph} {index : BlockIndex}
      {change : List (String × Json) → List (String × Json)}
      (done : workshop.graph.editProperties index change = .ok after) :
      Step workshop { workshop with graph := after }

end Workshop

/-- The graph of a workshop after some uses. -/
def Graph.Built (graph : Graph) : Prop :=
  ∃ workshop, Relation.ReflTransGen Workshop.Step .start workshop ∧ workshop.graph = graph

namespace Workshop

/-- What holds of a workshop at any time. -/
structure Sound (workshop : Workshop) : Prop where
  /-- A block that waits is new. -/
  spareNew : ∀ block ∈ workshop.spare, block.IsNew
  /-- The blocks of the graph are lawful. -/
  lawful : workshop.graph.Lawful
  /-- Links lead from outputs. -/
  linked : workshop.graph.Linked
  /-- No block that waits has the number of another one. -/
  spareDistinct : (workshop.spare.map (·.index)).Nodup
  /-- No block that waits has the number of a block in the graph. -/
  spareFresh : ∀ block ∈ workshop.spare, ∀ held ∈ workshop.graph.blocks,
    block.index ≠ held.index
  /-- The next number is the first one or comes after it. -/
  begun : Supply.start.next ≤ workshop.supply.next
  /-- Every block has a number that was handed out. -/
  issued : (∀ block ∈ workshop.spare, workshop.supply.Issued block.index) ∧
    ∀ held ∈ workshop.graph.blocks, workshop.supply.Issued held.index

/-- Nothing has gone wrong before anything was made. -/
theorem sound_start : start.Sound := by
  constructor <;> simp [start, Graph.empty, Graph.Lawful, Graph.Linked]

/-- A change of the graph that keeps its blocks in shape leaves the workshop sound. -/
theorem Sound.relink {workshop : Workshop} {after : Graph} (sound : workshop.Sound)
    (relinked : Graph.Relinked workshop.graph after) :
    Sound { workshop with graph := after } where
  spareNew := sound.spareNew
  lawful := relinked.lawful sound.lawful
  linked := relinked.linked sound.linked
  spareDistinct := sound.spareDistinct
  spareFresh block member held heldMember := by
    obtain ⟨old, oldMember, shape, -⟩ := relinked.origin held heldMember
    rw [shape.index]
    exact sound.spareFresh block member old oldMember
  begun := sound.begun
  issued := by
    refine ⟨sound.issued.1, fun held heldMember => ?_⟩
    obtain ⟨old, oldMember, shape, -⟩ := relinked.origin held heldMember
    rw [shape.index]
    exact sound.issued.2 old oldMember

/-- Links of a graph still lead from outputs when a block of a new number that is not
fed joins. -/
theorem linked_insert {graph : Graph} {block : Block} (linked : graph.Linked)
    (fresh : ∀ held ∈ graph.blocks, block.index ≠ held.index)
    (unfed : ∀ outlet ∈ block.outlets, outlet.feed = none) : (graph.insert block).Linked := by
  intro other member outlet outletMember feed isFeed
  rcases Graph.eq_or_mem_of_mem_insertBlock member with same | inGraph
  · rw [same] at outletMember
    rw [unfed outlet outletMember] at isFeed
    contradiction
  · obtain ⟨producer, source, resolved, way⟩ :=
      linked other inGraph outlet outletMember feed isFeed
    obtain ⟨found, sourceFound⟩ := Graph.resolve_eq_ok.mp resolved
    obtain ⟨producerMember, producerNamed⟩ := Graph.find?_eq_some.mp found
    refine ⟨producer, source, Graph.resolve_eq_ok.mpr ⟨?_, sourceFound⟩, way⟩
    rw [Graph.find?_insert, if_neg (producerNamed ▸ fresh producer producerMember), found]

/-- Making a block leaves the workshop sound. -/
theorem Sound.make {workshop : Workshop} {kind : BlockKind} {block : Block} {rest : Supply}
    (sound : workshop.Sound) (read : kind.IsRead)
    (made : (Block.make kind).run workshop.supply = .ok block rest) :
    Sound ⟨rest, block :: workshop.spare, workshop.graph⟩ := by
  obtain ⟨-, -, numbered, next⟩ := Block.lawful_of_make made
  constructor
  · intro other member
    rcases List.mem_cons.mp member with same | waiting
    · exact same ▸ .make read made
    · exact sound.spareNew other waiting
  · exact sound.lawful
  · exact sound.linked
  · refine List.nodup_cons.mpr ⟨fun clash => ?_, sound.spareDistinct⟩
    obtain ⟨other, waiting, same⟩ := List.mem_map.mp clash
    exact Nat.ne_of_lt (sound.issued.1 other waiting).2 (same.trans numbered)
  · intro other member held heldMember
    rcases List.mem_cons.mp member with same | waiting
    · rw [same, numbered]
      exact Nat.ne_of_gt (sound.issued.2 held heldMember).2
    · exact sound.spareFresh other waiting held heldMember
  · rw [next]
    exact Nat.le_succ_of_le sound.begun
  · refine ⟨fun other member => ?_,
      fun held heldMember => (sound.issued.2 held heldMember).later next⟩
    rcases List.mem_cons.mp member with same | waiting
    · rw [same, numbered]
      exact ⟨sound.begun, next ▸ Nat.lt_succ_self _⟩
    · exact (sound.issued.1 other waiting).later next

/-- Adding a block that waits leaves the workshop sound. -/
theorem Sound.add {supply : Supply} {front back : List Block} {block : Block} {graph : Graph}
    (sound : Sound ⟨supply, front ++ block :: back, graph⟩) :
    Sound ⟨supply, front ++ back, graph.insert block⟩ := by
  have waits : ∀ {other : Block}, other ∈ front ++ back → other ∈ front ++ block :: back := by
    intro other member
    rcases List.mem_append.mp member with inFront | inBack
    · exact List.mem_append_left _ inFront
    · exact List.mem_append_right _ (List.mem_cons_of_mem _ inBack)
  have here : block ∈ front ++ block :: back := List.mem_append_right _ List.mem_cons_self
  have new := sound.spareNew block here
  have distinct := sound.spareDistinct
  simp only [List.map_append, List.map_cons, List.nodup_middle, List.nodup_cons] at distinct
  constructor
  · exact fun other member => sound.spareNew other (waits member)
  · exact sound.lawful.insert new.lawful.1
  · exact linked_insert sound.linked (sound.spareFresh block here) new.lawful.2
  · simpa using distinct.2
  · intro other member held heldMember
    rcases Graph.eq_or_mem_of_mem_insertBlock heldMember with same | inGraph
    · subst same
      intro clash
      exact distinct.1 (by simpa [clash] using List.mem_map_of_mem (f := Block.index) member)
    · exact sound.spareFresh other (waits member) held inGraph
  · exact sound.begun
  · refine ⟨fun other member => sound.issued.1 other (waits member), fun held heldMember => ?_⟩
    rcases Graph.eq_or_mem_of_mem_insertBlock heldMember with same | inGraph
    · exact same ▸ sound.issued.1 block here
    · exact sound.issued.2 held inGraph

/-- Every use leaves the workshop sound. -/
theorem Step.sound {before after : Workshop} (step : Step before after)
    (sound : before.Sound) : after.Sound := by
  cases step with
  | make read made => exact sound.make read made
  | spoil read failed =>
    have next := Block.next_of_make_error failed
    refine ⟨sound.spareNew, sound.lawful, sound.linked, sound.spareDistinct, sound.spareFresh,
      ?_, ?_⟩
    · rw [next]
      exact Nat.le_succ_of_le sound.begun
    · exact ⟨fun block member => (sound.issued.1 block member).later next,
        fun held member => (sound.issued.2 held member).later next⟩
  | @annotate supply front back block graph change =>
    -- The values kept with a block have no part in its number or its outlets.
    have moved : ∀ other ∈ front ++ block.editProperties change :: back,
        ∃ old ∈ front ++ block :: back, old.index = other.index ∧ (old.IsNew → other.IsNew) := by
      intro other member
      rcases List.mem_append.mp member with inFront | inBack
      · exact ⟨other, List.mem_append_left _ inFront, rfl, id⟩
      · rcases List.mem_cons.mp inBack with same | behind
        · exact ⟨block, by simp, by rw [same]; rfl, fun new => same ▸ new.editProperties change⟩
        · exact ⟨other, by simp [behind], rfl, id⟩
    refine ⟨fun other member => ?_, sound.lawful, sound.linked, ?_, ?_, sound.begun, ?_,
      sound.issued.2⟩
    · obtain ⟨old, oldMember, -, new⟩ := moved other member
      exact new (sound.spareNew old oldMember)
    · simpa [Block.editProperties] using sound.spareDistinct
    · intro other member held heldMember
      obtain ⟨old, oldMember, same, -⟩ := moved other member
      exact same ▸ sound.spareFresh old oldMember held heldMember
    · intro other member
      obtain ⟨old, oldMember, same, -⟩ := moved other member
      exact same ▸ sound.issued.1 old oldMember
  | add => exact sound.add
  | connect done => exact sound.relink (Graph.relinked_connect done)
  | disconnect done => exact sound.relink (Graph.relinked_disconnect done)
  | adopt done => exact sound.relink (Graph.relinked_adopt done)
  | editProperties done => exact sound.relink (Graph.relinked_editProperties done)

/-- A workshop is sound after any uses. -/
theorem sound_of_reachable {workshop : Workshop}
    (reachable : Relation.ReflTransGen Step start workshop) : workshop.Sound := by
  induction reachable with
  | refl => exact sound_start
  | tail _ step ih => exact step.sound ih

/-- A block can be made and added at once. -/
theorem reachable_insert {supply rest : Supply} {kind : BlockKind} {block : Block}
    {graph : Graph} (reachable : Relation.ReflTransGen Step start ⟨supply, [], graph⟩)
    (read : kind.IsRead) (made : (Block.make kind).run supply = .ok block rest) :
    Relation.ReflTransGen Step start ⟨rest, [], graph.insert block⟩ := by
  have make : Step ⟨supply, [], graph⟩ ⟨rest, [] ++ block :: [], graph⟩ := .make read made
  have add : Step ⟨rest, [] ++ block :: [], graph⟩ ⟨rest, [] ++ [], graph.insert block⟩ := .add
  exact (reachable.tail make).tail add

end Workshop

namespace Graph.Built

/-- A built graph has lawful blocks only. -/
theorem lawful {graph : Graph} (built : graph.Built) : graph.Lawful := by
  obtain ⟨workshop, reachable, rfl⟩ := built
  exact (Workshop.sound_of_reachable reachable).lawful

/-- Every link of a built graph leads from an output. -/
theorem linked {graph : Graph} (built : graph.Built) : graph.Linked := by
  obtain ⟨workshop, reachable, rfl⟩ := built
  exact (Workshop.sound_of_reachable reachable).linked

/-- A graph that was built is one that can be had. -/
theorem obtainable {graph : Graph} (built : graph.Built) : graph.Obtainable := by
  obtain ⟨workshop, reachable, rfl⟩ := built
  induction reachable with
  | refl => exact .empty
  | tail reachable step ih =>
    have sound := Workshop.sound_of_reachable reachable
    cases step with
    | make | spoil | annotate => exact ih
    | add => exact ih.insertNew (sound.spareNew _ (List.mem_append_right _ List.mem_cons_self))
    | connect done => exact ih.connect done
    | disconnect done => exact ih.disconnect done
    | adopt done => exact ih.adopt done
    | editProperties done => exact ih.editProperties done

/-- Linking in a built graph gives a built graph. -/
theorem connect {graph after : Graph} (built : graph.Built) (source target : Endpoint)
    (done : graph.connect source target = .ok after) : after.Built := by
  obtain ⟨workshop, reachable, rfl⟩ := built
  exact ⟨_, reachable.tail (.connect done), rfl⟩

end Graph.Built

/-!
## A sample

A wave feeds a scaling, by a parameter and by a uniform, and both feed a surface: the wave
in both phases, the scaling only in the fragment phase.
-/

namespace Sample

/-- A source of values, with a uniform that stays outside. -/
def waveFragment : Fragment :=
  ⟨"wave", [.uniform ⟨"speed", .float, none⟩],
    ⟨"void", "wave", [⟨"hOut", .float, .output⟩], "{ hOut = speed; }"⟩, []⟩

/-- A fragment that takes one value by a parameter and one by a uniform. -/
def scaleFragment : Fragment :=
  ⟨"scale", [.uniform ⟨"gain", .float, none⟩],
    ⟨"void", "scale", [⟨"xIn", .float, .input⟩, ⟨"yOut", .float, .output⟩],
      "{ yOut = gain * xIn; }"⟩, []⟩

/-- What the surface does in the vertex phase. -/
def surfaceVertex : Fragment :=
  ⟨"material", [], ⟨"void", "main", [⟨"aIn", .float, .input⟩], "{ }"⟩, []⟩

/-- What the surface does in the fragment phase. -/
def surfaceFragment : Fragment :=
  ⟨"material", [],
    ⟨"void", "main", [⟨"aIn", .float, .input⟩, ⟨"bIn", .float, .input⟩], "{ }"⟩, []⟩

/-- The wave can be read. -/
theorem wave_isRead : (BlockKind.snippet waveFragment).IsRead :=
  ⟨none, "uniform float speed; void wave(out float hOut) { hOut = speed; }", rfl⟩

/-- The scaling can be read. -/
theorem scale_isRead : (BlockKind.snippet scaleFragment).IsRead :=
  ⟨none, "uniform float gain; void scale(in float xIn, out float yOut) { yOut = gain * xIn; }",
    rfl⟩

/-- The surface can be read. -/
theorem surface_isRead : (BlockKind.material surfaceVertex surfaceFragment).IsRead :=
  ⟨⟨some "material", "void main(in float aIn) { }", rfl⟩,
    ⟨some "material", "void main(in float aIn, in float bIn) { }", rfl⟩⟩

/-- The wave, as the first block. -/
def wave : Block :=
  ⟨1, .snippet waveFragment,
    ⟨some 1, [⟨⟨"hOut", .float, .output, .parameter, none⟩, "v_h_1_0", none⟩,
      ⟨⟨"speed", .float, .input, .uniform, none⟩, "v_speed_1_1", none⟩]⟩, none, [], [], rfl⟩

/-- The scaling, as the second block, with what feeds it. -/
def scale (input gain : Option Endpoint) : Block :=
  ⟨2, .snippet scaleFragment,
    ⟨some 2, [⟨⟨"xIn", .float, .input, .parameter, none⟩, "v_x_2_0", input⟩,
      ⟨⟨"yOut", .float, .output, .parameter, none⟩, "v_y_2_1", none⟩,
      ⟨⟨"gain", .float, .input, .uniform, none⟩, "v_gain_2_2", gain⟩]⟩, none, [], [], rfl⟩

/-- The surface, as the third block, with what feeds it. -/
def surface (first second : Option Endpoint) : Block :=
  ⟨3, .material surfaceVertex surfaceFragment,
    ⟨some 3, [⟨⟨"aIn", .float, .input, .parameter, none⟩, "v_a_3_0", first⟩,
      ⟨⟨"bIn", .float, .input, .parameter, none⟩, "v_b_3_1", second⟩]⟩, none, [], [], rfl⟩

/-- The output of the wave. -/
def height : Endpoint := ⟨1, "hOut"⟩

/-- The output of the scaling. -/
def scaled : Endpoint := ⟨2, "yOut"⟩

/-- The three blocks with some links. -/
def graphWith (input gain first second : Option Endpoint) : Graph :=
  ⟨[wave, scale input gain, surface first second], by simp [wave, scale, surface]⟩

/-- The three blocks with all links. -/
def graph : Graph :=
  graphWith (some height) (some height) (some height) (some scaled)

/-- The three blocks can be made and added. -/
theorem graphWith_built : (graphWith none none none none).Built := by
  have first : Relation.ReflTransGen Workshop.Step .start ⟨⟨2⟩, [], .insert .empty wave⟩ :=
    Workshop.reachable_insert .refl wave_isRead rfl
  have second : Relation.ReflTransGen Workshop.Step .start
      ⟨⟨3⟩, [], (Graph.insert .empty wave).insert (scale none none)⟩ :=
    Workshop.reachable_insert first scale_isRead rfl
  exact ⟨⟨⟨4⟩, [], _⟩, Workshop.reachable_insert second surface_isRead rfl, rfl⟩

/-- All links can be made. -/
theorem graph_built : graph.Built := by
  have input : (graphWith (some height) none none none).Built :=
    graphWith_built.connect height ⟨2, "xIn"⟩ rfl
  have gain : (graphWith (some height) (some height) none none).Built :=
    input.connect height ⟨2, "gain"⟩ rfl
  have first : (graphWith (some height) (some height) (some height) none).Built :=
    gain.connect height ⟨3, "aIn"⟩ rfl
  exact first.connect scaled ⟨3, "bIn"⟩ rfl

end Sample

end ShaderBlocks
