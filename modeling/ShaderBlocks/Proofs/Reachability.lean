import Mathlib.Data.Finset.Card
import Mathlib.Data.Finset.SDiff
import Mathlib.Logic.Relation
import ShaderBlocks.Graph.Reach
import ShaderBlocks.Proofs.Relinking

/-!
# What is reached

The search in rounds for what a block depends on looks only at what the round before has
found. It stops when a round finds nothing, or when its limit runs out. The
limit never runs out too early: a round that finds a block of the graph leaves fewer blocks of
the graph to be found, and what is not in the graph is fed by nothing. So whatever feeds a
block that is reached is reached too. Since a round finds nothing but what is a step upstream of
something found before, the search finds just what can be reached in any number of steps.

The search by a stack ends with the stack empty. All along, what feeds a block that was visited
was visited too or is on the stack, as often as it was pushed; so in the end it was visited. The
two searches find the same blocks, in orders of their own.
-/

namespace ShaderBlocks.Graph

/-- With every block that is in `seen`, what feeds the block is in `seen`. -/
def ClosedUpstream (graph : Graph) (seen : List BlockIndex) : Prop :=
  ∀ index ∈ seen, ∀ feeder ∈ graph.feeders index, feeder ∈ seen

/-- What one round of the search finds. -/
def foundFrom (graph : Graph) (seen frontier : List BlockIndex) : List BlockIndex :=
  ((frontier.flatMap graph.feeders).filter (· ∉ seen)).eraseDups

/-- A round finds what feeds the frontier and was not seen. -/
theorem mem_foundFrom {graph : Graph} {seen frontier : List BlockIndex} {index : BlockIndex} :
    index ∈ graph.foundFrom seen frontier ↔
      (∃ held ∈ frontier, index ∈ graph.feeders held) ∧ index ∉ seen := by
  rw [foundFrom, List.mem_eraseDups, List.mem_filter, List.mem_flatMap, decide_eq_true_eq]

/-- A search that finds nothing in its first round is over. -/
theorem reachFrom_of_foundFrom_nil {graph : Graph} {seen frontier : List BlockIndex}
    (nothing : graph.foundFrom seen frontier = []) (limit : Nat) :
    graph.reachFrom limit seen frontier = seen := by
  unfold foundFrom at nothing
  cases limit with
  | zero => rfl
  | succ limit => rw [reachFrom, nothing]

/-- A search that finds something goes on from there. -/
theorem reachFrom_succ {graph : Graph} {seen frontier : List BlockIndex}
    (something : graph.foundFrom seen frontier ≠ []) (limit : Nat) :
    graph.reachFrom (limit + 1) seen frontier =
      graph.reachFrom limit (seen ++ graph.foundFrom seen frontier)
        (graph.foundFrom seen frontier) := by
  unfold foundFrom at something ⊢
  rw [reachFrom]
  split
  · contradiction
  · rfl

/-- What was seen stays. -/
theorem subset_reachFrom (graph : Graph) (limit : Nat) (seen frontier : List BlockIndex) :
    seen ⊆ graph.reachFrom limit seen frontier := by
  induction limit generalizing seen frontier with
  | zero => exact List.Subset.refl seen
  | succ limit ih =>
    by_cases nothing : graph.foundFrom seen frontier = []
    · rw [reachFrom_of_foundFrom_nil nothing]
      exact List.Subset.refl seen
    · rw [reachFrom_succ nothing]
      exact List.Subset.trans (List.subset_append_left _ _) (ih _ _)

/-- The numbers of the blocks of a graph that were not seen. -/
def unseen (graph : Graph) (seen : List BlockIndex) : Finset BlockIndex :=
  (graph.blocks.map (·.index)).toFinset \ seen.toFinset

/-- There are fewer blocks to be seen once a block of the graph is found. -/
theorem card_unseen_lt {graph : Graph} {seen found : List BlockIndex} {index : BlockIndex}
    (inGraph : index ∈ graph.blocks.map (·.index)) (fresh : index ∉ seen)
    (isFound : index ∈ found) :
    (graph.unseen (seen ++ found)).card < (graph.unseen seen).card := by
  have wasUnseen : index ∈ graph.unseen seen := by
    simp only [unseen, Finset.mem_sdiff, List.mem_toFinset]
    exact ⟨inGraph, fresh⟩
  have nowSeen : index ∉ graph.unseen (seen ++ found) := by
    simp only [unseen, Finset.mem_sdiff, List.mem_toFinset, List.mem_append]
    exact fun left => left.2 (.inr isFound)
  have fewer : graph.unseen (seen ++ found) ⊆ graph.unseen seen := by
    intro other left
    simp only [unseen, Finset.mem_sdiff, List.mem_toFinset, List.mem_append] at left ⊢
    exact ⟨left.1, fun inSeen => left.2 (.inl inSeen)⟩
  exact Finset.card_lt_card (Finset.ssubset_iff_of_subset fewer |>.mpr ⟨index, wasUnseen, nowSeen⟩)

/-- What is not in the graph is fed by nothing. -/
theorem feeders_of_notMem {graph : Graph} {index : BlockIndex}
    (absent : index ∉ graph.blocks.map (·.index)) : graph.feeders index = [] := by
  have notFound : graph.find? index = none := by
    refine List.find?_eq_none.mpr fun block member same => ?_
    exact absent (beq_iff_eq.mp same ▸ List.mem_map_of_mem member)
  rw [feeders, notFound]

/-- A search ends closed if it has a round left for every block to be seen, and one more. What
was seen before the last round must have had its turn. -/
theorem closedUpstream_reachFrom {graph : Graph} {limit : Nat} {seen frontier : List BlockIndex}
    (handled : ∀ index ∈ seen, index ∉ frontier → ∀ feeder ∈ graph.feeders index, feeder ∈ seen)
    (enough : (graph.unseen seen).card < limit) :
    graph.ClosedUpstream (graph.reachFrom limit seen frontier) := by
  have finished : ∀ {seen frontier : List BlockIndex},
      (∀ index ∈ seen, index ∉ frontier → ∀ feeder ∈ graph.feeders index, feeder ∈ seen) →
        graph.foundFrom seen frontier = [] → graph.ClosedUpstream seen := by
    intro seen frontier handled nothing index inSeen feeder feeds
    by_cases inFrontier : index ∈ frontier
    · by_contra fresh
      have isFound := mem_foundFrom.mpr ⟨⟨index, inFrontier, feeds⟩, fresh⟩
      rw [nothing] at isFound
      contradiction
    · exact handled index inSeen inFrontier feeder feeds
  induction limit generalizing seen frontier with
  | zero => omega
  | succ limit ih =>
    by_cases nothing : graph.foundFrom seen frontier = []
    · rw [reachFrom_of_foundFrom_nil nothing]
      exact finished handled nothing
    · rw [reachFrom_succ nothing]
      have handledNext : ∀ index ∈ seen ++ graph.foundFrom seen frontier,
          index ∉ graph.foundFrom seen frontier → ∀ feeder ∈ graph.feeders index,
            feeder ∈ seen ++ graph.foundFrom seen frontier := by
        intro index member notFound feeder feeds
        have inSeen := (List.mem_append.mp member).resolve_right notFound
        by_cases feederSeen : feeder ∈ seen
        · exact List.mem_append_left _ feederSeen
        · by_cases inFrontier : index ∈ frontier
          · exact List.mem_append_right _
              (mem_foundFrom.mpr ⟨⟨index, inFrontier, feeds⟩, feederSeen⟩)
          · exact absurd (handled index inSeen inFrontier feeder feeds) feederSeen
      by_cases hit : ∃ index ∈ graph.foundFrom seen frontier, index ∈ graph.blocks.map (·.index)
      · obtain ⟨index, isFound, inGraph⟩ := hit
        have fewer := card_unseen_lt inGraph (mem_foundFrom.mp isFound).2 isFound
        exact ih handledNext (by omega)
      · -- Nothing of the graph was found, so the next round finds nothing.
        have last : graph.foundFrom (seen ++ graph.foundFrom seen frontier)
            (graph.foundFrom seen frontier) = [] := by
          refine List.eq_nil_iff_forall_not_mem.mpr fun feeder isFound => ?_
          obtain ⟨⟨index, foundBefore, feeds⟩, -⟩ := mem_foundFrom.mp isFound
          rw [feeders_of_notMem fun inGraph => hit ⟨index, foundBefore, inGraph⟩] at feeds
          contradiction
        rw [reachFrom_of_foundFrom_nil last]
        exact finished handledNext last

/-- A block reaches itself. -/
theorem start_mem_reach (graph : Graph) (start : BlockIndex) : start ∈ graph.reach start :=
  graph.subset_reachFrom _ _ _ List.mem_cons_self

/-- Whatever feeds a block that is reached is reached. -/
theorem closedUpstream_reach (graph : Graph) (start : BlockIndex) :
    graph.ClosedUpstream (graph.reach start) := by
  refine closedUpstream_reachFrom (fun index inSeen notLooked => absurd inSeen notLooked) ?_
  calc (graph.unseen [start]).card
      ≤ (graph.blocks.map (·.index)).toFinset.card := Finset.card_le_card Finset.sdiff_subset
    _ ≤ (graph.blocks.map (·.index)).length := List.toFinset_card_le _
    _ < graph.size + 1 := by rw [List.length_map, size]; exact Nat.lt_succ_self _

/-! ## Nothing else is reached -/

/-- One step upstream: from a block of the graph to a block that feeds one of its outlets, whether
that other block is in the graph or not. -/
def FedFrom (graph : Graph) (index feeder : BlockIndex) : Prop :=
  ∃ block ∈ graph.blocks, block.index = index ∧
    ∃ outlet ∈ block.outlets, ∃ feed, outlet.feed = some feed ∧ feed.block = feeder

/-- What feeds a block is one step upstream. -/
theorem mem_feeders_iff {graph : Graph} {index feeder : BlockIndex} :
    feeder ∈ graph.feeders index ↔ graph.FedFrom index feeder := by
  constructor
  · intro feeds
    rw [feeders] at feeds
    split at feeds
    · rename_i block found
      obtain ⟨member, numbered⟩ := find?_eq_some.mp found
      obtain ⟨outlet, isOutlet, fed⟩ := List.mem_filterMap.mp feeds
      obtain ⟨feed, isFeed, isFeeder⟩ := Option.map_eq_some_iff.mp fed
      exact ⟨block, member, numbered, outlet, isOutlet, feed, isFeed, isFeeder⟩
    · contradiction
  · rintro ⟨block, member, numbered, outlet, isOutlet, feed, isFeed, isFeeder⟩
    rw [feeders, find?_eq_some.mpr ⟨member, numbered⟩]
    exact List.mem_filterMap.mpr
      ⟨outlet, isOutlet, Option.map_eq_some_iff.mpr ⟨feed, isFeed, isFeeder⟩⟩

/-- What holds between two rounds of a search that set out from `start`. -/
structure Search (graph : Graph) (start : BlockIndex) (seen frontier : List BlockIndex) :
    Prop where
  /-- Nothing was seen twice. -/
  distinct : seen.Nodup
  /-- The last finds are among what was seen. -/
  within : frontier ⊆ seen
  /-- Whatever was seen lies upstream. -/
  upstream : ∀ index ∈ seen, Relation.ReflTransGen graph.FedFrom start index

namespace Search

variable {graph : Graph} {start : BlockIndex} {seen frontier : List BlockIndex}

/-- A search sets out. -/
theorem setOut (graph : Graph) (start : BlockIndex) : graph.Search start [start] [start] where
  distinct := List.nodup_singleton start
  within := List.Subset.refl [start]
  upstream _ isStart := List.mem_singleton.mp isStart ▸ .refl

/-- A round keeps up what holds of a search. -/
theorem round (search : graph.Search start seen frontier) :
    graph.Search start (seen ++ graph.foundFrom seen frontier)
      (graph.foundFrom seen frontier) where
  distinct := List.nodup_append'.mpr ⟨search.distinct, nodup_eraseDups _,
    fun _ inSeen isFound => (mem_foundFrom.mp isFound).2 inSeen⟩
  within := List.subset_append_right _ _
  upstream index member := by
    rcases List.mem_append.mp member with inSeen | isFound
    · exact search.upstream index inSeen
    · obtain ⟨⟨held, inFrontier, feeds⟩, -⟩ := mem_foundFrom.mp isFound
      exact (search.upstream held (search.within inFrontier)).tail (mem_feeders_iff.mp feeds)

/-- What holds of a search when it sets out holds when it ends. -/
theorem reachFrom (search : graph.Search start seen frontier) (limit : Nat) :
    ∃ last, graph.Search start (graph.reachFrom limit seen frontier) last := by
  induction limit generalizing seen frontier with
  | zero => exact ⟨frontier, search⟩
  | succ limit ih =>
    by_cases nothing : graph.foundFrom seen frontier = []
    · rw [reachFrom_of_foundFrom_nil nothing]
      exact ⟨frontier, search⟩
    · rw [reachFrom_succ nothing]
      exact ih search.round

/-- A search that ends closed has nothing left to find, so one more round does not change it. -/
theorem reachFrom_succ_eq (search : graph.Search start seen frontier) {limit : Nat}
    (closed : graph.ClosedUpstream (graph.reachFrom limit seen frontier)) :
    graph.reachFrom (limit + 1) seen frontier = graph.reachFrom limit seen frontier := by
  induction limit generalizing seen frontier with
  | zero =>
    have nothing : graph.foundFrom seen frontier = [] := by
      refine List.eq_nil_iff_forall_not_mem.mpr fun index isFound => ?_
      obtain ⟨⟨held, inFrontier, feeds⟩, fresh⟩ := mem_foundFrom.mp isFound
      exact fresh (closed held (search.within inFrontier) index feeds)
    exact reachFrom_of_foundFrom_nil nothing 1
  | succ limit ih =>
    by_cases nothing : graph.foundFrom seen frontier = []
    · rw [reachFrom_of_foundFrom_nil nothing, reachFrom_of_foundFrom_nil nothing]
    · rw [reachFrom_succ nothing] at closed
      rw [reachFrom_succ nothing, reachFrom_succ nothing]
      exact ih search.round closed

end Search

/-- Rounds beyond the limit would find nothing. -/
theorem reachFrom_add_eq_reach (graph : Graph) (start : BlockIndex) (more : Nat) :
    graph.reachFrom (graph.size + 1 + more) [start] [start] = graph.reach start := by
  induction more with
  | zero => rfl
  | succ more ih =>
    have closed := closedUpstream_reach graph start
    rw [← ih] at closed
    rw [← Nat.add_assoc, (Search.setOut graph start).reachFrom_succ_eq closed, ih]

/-- A closed set that holds a block holds all that lies upstream of the block. -/
theorem ClosedUpstream.mem_of_reflTransGen {graph : Graph} {seen : List BlockIndex}
    (closed : graph.ClosedUpstream seen) {start index : BlockIndex} (inSeen : start ∈ seen)
    (upstream : Relation.ReflTransGen graph.FedFrom start index) : index ∈ seen := by
  induction upstream with
  | refl => exact inSeen
  | tail _ step ih => exact closed _ ih _ (mem_feeders_iff.mpr step)

/-! ## By a stack -/

/-- What holds whenever the search by a stack, having set out from `start`, looks at the stack. -/
structure Exploring (graph : Graph) (start : BlockIndex) (visited stack : List BlockIndex) :
    Prop where
  /-- Nothing was visited twice. -/
  distinct : visited.Nodup
  /-- The start was visited or is to be visited. -/
  begun : start ∈ visited ∨ start ∈ stack
  /-- Whatever was visited or is to be visited lies upstream. -/
  upstream : ∀ index, index ∈ visited ∨ index ∈ stack →
    Relation.ReflTransGen graph.FedFrom start index
  /-- What feeds a block that was visited was visited or is to be visited. -/
  pushed : ∀ index ∈ visited, ∀ feeder ∈ graph.feeders index, feeder ∈ visited ∨ feeder ∈ stack

namespace Exploring

variable {graph : Graph} {start next : BlockIndex} {visited rest : List BlockIndex}

/-- The search sets out. -/
theorem setOut (graph : Graph) (start : BlockIndex) : graph.Exploring start [] [start] where
  distinct := List.nodup_nil
  begun := .inr List.mem_cons_self
  upstream index member := by
    rcases member with inNone | isStart
    · contradiction
    · exact List.mem_singleton.mp isStart ▸ .refl
  pushed := List.forall_mem_nil _

/-- A block that was pushed again after its visit is taken off the stack. -/
theorem skip (exploring : graph.Exploring start visited (next :: rest))
    (again : next ∈ visited) : graph.Exploring start visited rest := by
  have still : ∀ index, index ∈ visited ∨ index ∈ next :: rest →
      index ∈ visited ∨ index ∈ rest := by
    rintro index (wasVisited | onStack)
    · exact .inl wasVisited
    · rcases List.mem_cons.mp onStack with rfl | inRest
      · exact .inl again
      · exact .inr inRest
  exact {
    distinct := exploring.distinct
    begun := still start exploring.begun
    upstream := fun index member =>
      exploring.upstream index (member.imp_right (List.mem_cons_of_mem _))
    pushed := fun index wasVisited feeder feeds =>
      still feeder (exploring.pushed index wasVisited feeder feeds) }

/-- A block is visited, and what feeds it takes its place on the stack. -/
theorem visit (exploring : graph.Exploring start visited (next :: rest))
    (fresh : next ∉ visited) :
    graph.Exploring start (visited ++ [next]) ((graph.feeders next).reverse ++ rest) := by
  have still : ∀ index, index ∈ visited ∨ index ∈ next :: rest →
      index ∈ visited ++ [next] ∨ index ∈ (graph.feeders next).reverse ++ rest := by
    rintro index (wasVisited | onStack)
    · exact .inl (List.mem_append_left _ wasVisited)
    · rcases List.mem_cons.mp onStack with rfl | inRest
      · exact .inl (List.mem_append_right _ List.mem_cons_self)
      · exact .inr (List.mem_append_right _ inRest)
  have here := exploring.upstream next (.inr List.mem_cons_self)
  constructor
  · exact List.nodup_append'.mpr ⟨exploring.distinct, List.nodup_singleton next,
      List.disjoint_singleton.mpr fresh⟩
  · exact still start exploring.begun
  · rintro index (wasVisited | onStack)
    · rcases List.mem_append.mp wasVisited with before | now
      · exact exploring.upstream index (.inl before)
      · exact List.mem_singleton.mp now ▸ here
    · rcases List.mem_append.mp onStack with isFeeder | inRest
      · exact here.tail (mem_feeders_iff.mp (List.mem_reverse.mp isFeeder))
      · exact exploring.upstream index (.inr (List.mem_cons_of_mem _ inRest))
  · intro index wasVisited feeder feeds
    rcases List.mem_append.mp wasVisited with before | now
    · exact still feeder (exploring.pushed index before feeder feeds)
    · rw [List.mem_singleton.mp now] at feeds
      exact .inr (List.mem_append_left _ (List.mem_reverse.mpr feeds))

/-- What holds of a search when it sets out holds when it ends, with the stack empty. -/
theorem exploreFrom {stack : List BlockIndex} (exploring : graph.Exploring start visited stack) :
    graph.Exploring start (graph.exploreFrom visited stack) [] := by
  fun_induction Graph.exploreFrom graph visited stack with
  | case1 visited => exact exploring
  | case2 visited next rest again ih => exact ih (exploring.skip again)
  | case3 visited next rest fresh ih => exact ih (exploring.visit fresh)

end Exploring

/-- The search by a stack visits what lies upstream of its start, and nothing else. -/
theorem mem_explore_iff {graph : Graph} {start index : BlockIndex} :
    index ∈ graph.explore start ↔ Relation.ReflTransGen graph.FedFrom start index := by
  have exploring := (Exploring.setOut graph start).exploreFrom
  have closed : graph.ClosedUpstream (graph.explore start) := fun held wasVisited feeder feeds =>
    (exploring.pushed held wasVisited feeder feeds).resolve_right List.not_mem_nil
  constructor
  · exact fun wasVisited => exploring.upstream index (.inl wasVisited)
  · exact closed.mem_of_reflTransGen (exploring.begun.resolve_right List.not_mem_nil)

/-- Both searches reach what lies upstream of their start in any number of steps, each block once
and nothing else, whatever the links of the graph and whether it holds the start or not. The one
in rounds ends because there is nothing left to find: with more rounds the result is the same. The
one by a stack finds the same blocks in an order of its own. -/
theorem reach_eq_upstream (graph : Graph) (start : BlockIndex) :
    (∀ index, index ∈ graph.reach start ↔ Relation.ReflTransGen graph.FedFrom start index) ∧
      (graph.reach start).Nodup ∧
      (∀ more, graph.reachFrom (graph.size + 1 + more) [start] [start] = graph.reach start) ∧
      (∀ index, index ∈ graph.explore start ↔ Relation.ReflTransGen graph.FedFrom start index) ∧
      (graph.explore start).Nodup ∧
      (graph.explore start).Perm (graph.reach start) := by
  obtain ⟨last, search⟩ := (Search.setOut graph start).reachFrom (graph.size + 1)
  have reached : ∀ index,
      index ∈ graph.reach start ↔ Relation.ReflTransGen graph.FedFrom start index := by
    refine fun index => ⟨search.upstream index, fun upstream => ?_⟩
    exact (closedUpstream_reach graph start).mem_of_reflTransGen
      (start_mem_reach graph start) upstream
  have once : (graph.explore start).Nodup := (Exploring.setOut graph start).exploreFrom.distinct
  refine ⟨reached, search.distinct, reachFrom_add_eq_reach graph start, fun _ => mem_explore_iff,
    once, ?_⟩
  refine (List.perm_ext_iff_of_nodup once search.distinct).mpr fun index => ?_
  rw [mem_explore_iff]
  exact (reached index).symm

end ShaderBlocks.Graph
