import ShaderBlocks.Proofs.Construction

/-!
# Edits of a graph

A workshop serves requests one after the other: to make a block, to add one that was made, to link
outlets or take a link off, to group blocks, and to change the values kept with a block in any way.
A request that cannot be met leaves the workshop as it is, but for a number that may have been used
up. Whatever was asked for, and whether it could be met or not, the links of the graph are sound: an
outlet that is fed is an input, and what feeds it is an output that the graph holds. A link that is
made or taken off changes nothing but where one outlet takes its value from.
-/

namespace ShaderBlocks

/-- The first outlet of a name stands between outlets of other names and the rest, and linking
changes it alone. -/
theorem Outlet.setFeed_eq_append {outlets : List Outlet} {name : String} {held : Outlet}
    (found : outlets.find? (·.name == name) = some held) (feed : Option Endpoint) :
    ∃ early late, outlets = early ++ held :: late ∧ held.name = name ∧
      (∀ outlet ∈ early, outlet.name ≠ name) ∧
      setFeed name feed outlets = early ++ { held with feed } :: late := by
  obtain ⟨named, early, late, parts, others⟩ := List.find?_eq_some_iff_append.mp found
  have isNamed : held.name = name := beq_iff_eq.mp named
  have othersNamed : ∀ outlet ∈ early, outlet.name ≠ name := by
    intro outlet member
    simpa using others outlet member
  refine ⟨early, late, parts, isNamed, othersNamed, ?_⟩
  rw [parts]
  clear found parts others
  induction early with
  | nil => exact if_pos isNamed
  | cons first early ih =>
    obtain ⟨apart, behind⟩ := List.forall_mem_cons.mp othersNamed
    rw [List.cons_append, setFeed, if_neg apart, ih behind]
    rfl

namespace Graph

/-- Two graphs that differ in nothing but where one outlet takes its value from. The outlet is the
first one of its name at `target`; it is `held` before, and takes its value from `feed` after. -/
def RelinkedAt (before after : Graph) (target : Endpoint) (held : Outlet)
    (feed : Option Endpoint) : Prop :=
  ∃ (front : List Block) (block : Block) (back : List Block) (early late : List Outlet),
    before.blocks = front ++ block :: back ∧ block.index = target.block ∧
      block.outlets = early ++ held :: late ∧ held.name = target.outlet ∧
      (∀ outlet ∈ early, outlet.name ≠ target.outlet) ∧
      after.blocks =
        front ++ block.withOutlets (early ++ { held with feed } :: late) :: back

/-- Changing the block of a number leaves the blocks before and behind it. -/
theorem blocks_modify {graph : Graph} {front back : List Block} {block : Block}
    (parts : graph.blocks = front ++ block :: back) {change : Block → Block}
    {numbered : ∀ block, (change block).index = block.index} :
    (graph.modify block.index change numbered).blocks = front ++ change block :: back := by
  have distinct := graph.nodup_index
  rw [parts, List.map_append, List.map_cons, List.nodup_middle, List.nodup_cons] at distinct
  have others : ∀ other ∈ front ++ back, modifyBlock block.index change other = other := by
    intro other member
    refine if_neg fun same => distinct.1 ?_
    rw [← List.map_append, ← same]
    exact List.mem_map_of_mem member
  have keep : ∀ {part : List Block}, part ⊆ front ++ back →
      part.map (modifyBlock block.index change) = part := by
    intro part within
    rw [List.map_congr_left fun other member => others other (within member), List.map_id']
  change graph.blocks.map (modifyBlock block.index change) = _
  rw [parts, List.map_append, List.map_cons, keep (List.subset_append_left _ _),
    keep (List.subset_append_right _ _), modifyBlock, if_pos rfl]

/-- Feeding an outlet that is there changes this outlet alone. -/
theorem relinkedAt_setFeed {graph : Graph} {target : Endpoint} {held : Outlet}
    (found : graph.outlet target = .ok held) (feed : Option Endpoint) :
    graph.RelinkedAt (graph.setFeed target feed) target held feed := by
  obtain ⟨block, blockFound, outletFound⟩ := outlet_eq_ok.mp found
  obtain ⟨member, numbered⟩ := find?_eq_some.mp blockFound
  obtain ⟨front, back, parts⟩ := List.append_of_mem member
  obtain ⟨early, late, outlets, named, others, changed⟩ :=
    Outlet.setFeed_eq_append outletFound feed
  refine ⟨front, block, back, early, late, parts, numbered, outlets, named, others, ?_⟩
  rw [setFeed, ← numbered, blocks_modify parts, changed]

/-- Two outlets can be linked exactly if the first is an output and the second an input. -/
theorem connect_eq_ok_iff {graph after : Graph} {source target : Endpoint} :
    graph.connect source target = .ok after ↔
      ∃ output input, graph.outlet source = .ok output ∧ output.direction = .output ∧
        graph.outlet target = .ok input ∧ input.direction = .input ∧
          after = graph.setFeed target (some source) := by
  constructor
  · exact connect_eq_ok
  · rintro ⟨output, input, outputFound, outputWay, inputFound, inputWay, rfl⟩
    simp [connect, outputFound, outputWay, inputFound, inputWay, bind, Except.bind, pure,
      Except.pure]

/-- Linking succeeds from outputs to inputs. -/
theorem exists_connect_iff {graph : Graph} {source target : Endpoint} :
    (∃ after, graph.connect source target = .ok after) ↔
      ∃ output input, graph.outlet source = .ok output ∧ output.direction = .output ∧
        graph.outlet target = .ok input ∧ input.direction = .input := by
  simp only [connect_eq_ok_iff]
  constructor
  · rintro ⟨after, output, input, outputFound, outputWay, inputFound, inputWay, -⟩
    exact ⟨output, input, outputFound, outputWay, inputFound, inputWay⟩
  · rintro ⟨output, input, outputFound, outputWay, inputFound, inputWay⟩
    exact ⟨_, output, input, outputFound, outputWay, inputFound, inputWay, rfl⟩

/-- Linking changes where the target takes its value from. -/
theorem relinkedAt_of_connect {graph after : Graph} {source target : Endpoint}
    (done : graph.connect source target = .ok after) :
    ∃ held, graph.RelinkedAt after target held (some source) := by
  obtain ⟨output, input, -, -, inputFound, -, rfl⟩ := connect_eq_ok_iff.mp done
  exact ⟨input, relinkedAt_setFeed inputFound (some source)⟩

/-- The link of an outlet can be taken off exactly if the outlet is there. -/
theorem disconnect_eq_ok_iff {graph after : Graph} {target : Endpoint} {feed : Option Endpoint} :
    graph.disconnect target = .ok (after, feed) ↔
      ∃ held, graph.outlet target = .ok held ∧ feed = held.feed ∧
        after = graph.setFeed target none := by
  simp only [disconnect, bind, Except.bind]
  cases found : graph.outlet target with
  | error error => simp
  | ok held =>
    simp only [pure, Except.pure, Except.ok.injEq, Prod.mk.injEq, exists_eq_left']
    exact ⟨fun same => ⟨same.2.symm, same.1.symm⟩, fun same => ⟨same.2.symm, same.1.symm⟩⟩

/-- Taking a link off succeeds where there is an outlet. -/
theorem exists_disconnect_iff {graph : Graph} {target : Endpoint} :
    (∃ after feed, graph.disconnect target = .ok (after, feed)) ↔
      ∃ held, graph.outlet target = .ok held := by
  simp only [disconnect_eq_ok_iff]
  constructor
  · rintro ⟨after, feed, held, found, -⟩
    exact ⟨held, found⟩
  · rintro ⟨held, found⟩
    exact ⟨_, _, held, found, rfl, rfl⟩

/-- Taking a link off gives back what fed the target, and changes the target alone. -/
theorem relinkedAt_of_disconnect {graph after : Graph} {target : Endpoint}
    {feed : Option Endpoint} (done : graph.disconnect target = .ok (after, feed)) :
    ∃ held, held.feed = feed ∧ graph.RelinkedAt after target held none := by
  obtain ⟨held, found, rfl, rfl⟩ := disconnect_eq_ok_iff.mp done
  exact ⟨held, rfl, relinkedAt_setFeed found none⟩

/-- Every block stands under its own number, which its node belongs to; an outlet that is fed is an
input, and its link leads to the block it names and to an output there of the name it gives. -/
structure SoundlyLinked (graph : Graph) : Prop where
  /-- A block is found under its number, and its node belongs to it. -/
  owned : ∀ index block, graph.find? index = some block →
    block.index = index ∧ block.node.owner = some index
  /-- What is fed is an input. -/
  input : ∀ block ∈ graph.blocks, ∀ outlet ∈ block.outlets, ∀ feed, outlet.feed = some feed →
    outlet.direction = .input
  /-- What feeds an outlet is an output of the graph. -/
  resolves : ∀ block ∈ graph.blocks, ∀ outlet ∈ block.outlets, ∀ feed, outlet.feed = some feed →
    ∃ producer source, graph.resolve feed = .ok (producer, source) ∧
      producer.index = feed.block ∧ source.name = feed.outlet ∧ source.direction = .output

/-- The links of a graph that was built are sound. -/
theorem Built.soundlyLinked {graph : Graph} (built : graph.Built) : graph.SoundlyLinked where
  owned index block found := ⟨(find?_eq_some.mp found).2, owner_of_find? found⟩
  input block member outlet outletMember feed isFeed :=
    (built.lawful block member).fedInput outlet outletMember (by simp [isFeed])
  resolves block member outlet outletMember feed isFeed := by
    obtain ⟨producer, source, resolved, way⟩ :=
      built.linked block member outlet outletMember feed isFeed
    obtain ⟨found, sourceFound⟩ := resolve_eq_ok.mp resolved
    exact ⟨producer, source, resolved, (find?_eq_some.mp found).2,
      (Block.mem_of_outlet? sourceFound).2, way⟩

end Graph

namespace Workshop

/-- What a workshop can be asked for. Blocks that wait are named by their place. -/
inductive Request
  /-- Make a block of fragments that were read. -/
  | make (kind : BlockKind) (read : kind.IsRead)
  /-- Change the values kept with a block that waits. -/
  | annotate (place : Nat) (change : List (String × Json) → List (String × Json))
  /-- Add a block that waits to the graph. -/
  | add (place : Nat)
  /-- Link an output to an input. -/
  | connect (source target : Endpoint)
  /-- Take a link off. -/
  | disconnect (target : Endpoint)
  /-- Group a block under another one. -/
  | adopt (parent child : BlockIndex)
  /-- Change the values kept with a block of the graph. -/
  | editProperties (index : BlockIndex) (change : List (String × Json) → List (String × Json))

/-- The workshop after an edit of its graph; an edit that fails changes nothing. -/
def attempt (workshop : Workshop) : Except GraphError Graph → Workshop
  | .ok graph => { workshop with graph }
  | .error _ => workshop

/-- The workshop after a request. -/
def serve (workshop : Workshop) : Request → Workshop
  | .make kind _ =>
    match (Block.make kind).run workshop.supply with
    | .ok block rest => ⟨rest, block :: workshop.spare, workshop.graph⟩
    | .error _ rest => ⟨rest, workshop.spare, workshop.graph⟩
  | .annotate place change =>
    match workshop.spare[place]? with
    | some block =>
      { workshop with spare := workshop.spare.set place (block.editProperties change) }
    | none => workshop
  | .add place =>
    match workshop.spare[place]? with
    | some block =>
      { workshop with
        spare := workshop.spare.eraseIdx place
        graph := workshop.graph.insert block }
    | none => workshop
  | .connect source target => workshop.attempt (workshop.graph.connect source target)
  | .disconnect target => workshop.attempt ((workshop.graph.disconnect target).map (·.1))
  | .adopt parent child => workshop.attempt (workshop.graph.adopt parent child)
  | .editProperties index change => workshop.attempt (workshop.graph.editProperties index change)

/-- The workshop after some requests, served in order. -/
def serveAll (workshop : Workshop) (requests : List Request) : Workshop :=
  requests.foldl serve workshop

/-- A list around the element at a place. -/
theorem eq_append_of_getElem? {α : Type} {items : List α} {place : Nat} {item : α}
    (held : items[place]? = some item) :
    items = items.take place ++ item :: items.drop (place + 1) := by
  obtain ⟨inside, rfl⟩ := List.getElem?_eq_some_iff.mp held
  rw [List.getElem_cons_drop, List.take_append_drop]

/-- An edit that succeeds is a use of the workshop, if any such edit is. -/
theorem attempt_steps {workshop : Workshop} {edit : Except GraphError Graph}
    (isStep : ∀ after, edit = .ok after → Step workshop { workshop with graph := after }) :
    Relation.ReflTransGen Step workshop (workshop.attempt edit) := by
  cases edit with
  | ok after => exact .single (isStep after rfl)
  | error error => exact .refl

/-- Serving a request is a use of the workshop, or changes nothing. -/
theorem serve_steps (workshop : Workshop) (request : Request) :
    Relation.ReflTransGen Step workshop (workshop.serve request) := by
  cases request with
  | make kind read =>
    rw [serve]
    split
    · rename_i made
      exact .single (.make read made)
    · rename_i failed
      exact .single (.spoil read failed)
  | annotate place change =>
    obtain ⟨supply, spare, graph⟩ := workshop
    simp only [serve]
    split
    · rename_i block held
      have inside : place < spare.length := (List.getElem?_eq_some_iff.mp held).1
      have step : Step ⟨supply, spare.take place ++ block :: spare.drop (place + 1), graph⟩
          ⟨supply, spare.take place ++ block.editProperties change :: spare.drop (place + 1),
            graph⟩ := .annotate change
      rw [← eq_append_of_getElem? held] at step
      rw [List.set_eq_take_append_cons_drop, if_pos inside]
      exact .single step
    · exact .refl
  | add place =>
    obtain ⟨supply, spare, graph⟩ := workshop
    simp only [serve]
    split
    · rename_i block held
      have step : Step ⟨supply, spare.take place ++ block :: spare.drop (place + 1), graph⟩
          ⟨supply, spare.take place ++ spare.drop (place + 1), graph.insert block⟩ := .add
      rw [← eq_append_of_getElem? held, ← List.eraseIdx_eq_take_drop_succ] at step
      exact .single step
    · exact .refl
  | connect source target => exact attempt_steps fun after done => .connect done
  | disconnect target =>
    refine attempt_steps fun after done => ?_
    cases result : workshop.graph.disconnect target with
    | error error =>
      rw [result] at done
      contradiction
    | ok pair =>
      rw [result] at done
      obtain rfl := Except.ok.inj done
      exact .disconnect result
  | adopt parent child => exact attempt_steps fun after done => .adopt done
  | editProperties index change => exact attempt_steps fun after done => .editProperties done

/-- Serving requests is a series of uses of the workshop. -/
theorem serveAll_steps (workshop : Workshop) (requests : List Request) :
    Relation.ReflTransGen Step workshop (workshop.serveAll requests) := by
  induction requests generalizing workshop with
  | nil => exact .refl
  | cons request requests ih => exact (workshop.serve_steps request).trans (ih _)

/-- The graph after any requests was built. -/
theorem built_serveAll (requests : List Request) : (start.serveAll requests).graph.Built :=
  ⟨_, serveAll_steps start requests, rfl⟩

/-- After any requests, met or not, the links of the graph are sound. An attempt to link that fails
changes nothing; one that succeeds, which it does exactly between an output and an input, changes
the one input it names. Taking a link off fails only where the outlet is missing, again without a
change; otherwise it gives back what fed the outlet and changes that outlet alone. -/
theorem links_after_requests (requests : List Request) :
    let workshop := start.serveAll requests
    workshop.graph.SoundlyLinked ∧
      (∀ source target,
        ((∃ after, workshop.graph.connect source target = .ok after) ↔
          ∃ output input, workshop.graph.outlet source = .ok output ∧
            output.direction = .output ∧ workshop.graph.outlet target = .ok input ∧
              input.direction = .input) ∧
        (∀ error, workshop.graph.connect source target = .error error →
          workshop.serve (.connect source target) = workshop) ∧
        ∀ after, workshop.graph.connect source target = .ok after →
          workshop.serve (.connect source target) = { workshop with graph := after } ∧
            ∃ held, workshop.graph.RelinkedAt after target held (some source)) ∧
      ∀ target,
        ((∃ after feed, workshop.graph.disconnect target = .ok (after, feed)) ↔
          ∃ held, workshop.graph.outlet target = .ok held) ∧
        (∀ error, workshop.graph.disconnect target = .error error →
          workshop.serve (.disconnect target) = workshop) ∧
        ∀ after feed, workshop.graph.disconnect target = .ok (after, feed) →
          workshop.serve (.disconnect target) = { workshop with graph := after } ∧
            ∃ held, held.feed = feed ∧ workshop.graph.RelinkedAt after target held none := by
  intro workshop
  refine ⟨(built_serveAll requests).soundlyLinked,
    fun source target => ⟨Graph.exists_connect_iff, ?_, ?_⟩,
    fun target => ⟨Graph.exists_disconnect_iff, ?_, ?_⟩⟩
  · intro error failed
    rw [serve, failed, attempt]
  · intro after done
    exact ⟨by rw [serve, done, attempt], Graph.relinkedAt_of_connect done⟩
  · intro error failed
    rw [serve, failed, Except.map, attempt]
  · intro after feed done
    exact ⟨by rw [serve, done, Except.map, attempt], Graph.relinkedAt_of_disconnect done⟩

/-- Requests to link the wave to the scaling, with two that cannot be met: the input of the scaling
feeds nothing, and there is no seventh block. -/
def sampleRequests : List Request :=
  [.make _ Sample.wave_isRead, .make _ Sample.scale_isRead, .add 1, .add 0,
    .connect Sample.height ⟨2, "xIn"⟩, .connect ⟨2, "xIn"⟩ Sample.height, .disconnect ⟨7, "xIn"⟩]

/-- After the sample requests the link is there, the wave still cannot feed its own output, and
taking the link off gives back the wave and changes the one input. -/
theorem links_after_requests_sample :
    let workshop := start.serveAll sampleRequests
    workshop.graph.SoundlyLinked ∧
      workshop.serve (.connect Sample.height Sample.height) = workshop ∧
      ∃ after held, workshop.graph.disconnect ⟨2, "xIn"⟩ = .ok (after, some Sample.height) ∧
        held.feed = some Sample.height ∧ workshop.graph.RelinkedAt after ⟨2, "xIn"⟩ held none := by
  intro workshop
  obtain ⟨sound, linking, taking⟩ := links_after_requests sampleRequests
  have refused : workshop.graph.connect Sample.height Sample.height =
      .error (.invalidConnection Sample.height Sample.height .targetNotInput) := rfl
  have taken : ∃ after, workshop.graph.disconnect ⟨2, "xIn"⟩ = .ok (after, some Sample.height) :=
    ⟨_, rfl⟩
  obtain ⟨after, done⟩ := taken
  obtain ⟨-, held, isFeed, relinked⟩ := (taking ⟨2, "xIn"⟩).2.2 after _ done
  exact ⟨sound, (linking Sample.height Sample.height).2.1 _ refused, after, held, done, isFeed,
    relinked⟩

end Workshop

end ShaderBlocks
