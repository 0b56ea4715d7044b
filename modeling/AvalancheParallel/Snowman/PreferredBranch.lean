import AvalancheParallel.Snowman.History
import AvalancheParallel.Snowman.VotePropagation

/-!
# The preferred branch

The preferred branch is what is reached from the last accepted block by following the
preferred children. `Topological` keeps it in `preferredIDs`, `preferredHeights` and
`preference`, and the three are changed in different places. `Add` extends the branch at
its end, accepting a block removes its beginning, and the end of `RecordPoll` computes it
anew from the block returned by `vote`, or leaves it as it is.

While votes are applied, the block to be returned is reached by following the new
preferences, and what is above it has not been voted on. If it was preferred before, the
branch up to it is the same, as there is only one chain of blocks to it, and the branch
above it has not changed.
-/

namespace AvalancheParallel.Snowman

open AvalancheParallel.Ids AvalancheParallel.RangeLoop AvalancheParallel.Snowball
open AvalancheParallel.ParentTree

variable {F : Factory} {l : Lineage}

/-- The set and the map hold the blocks of the list. -/
structure Caches (l : Lineage) (ids : Finset ID) (heights : GoMap ℕ ID) (path : List ID) :
    Prop where
  ids : ∀ id, id ∈ ids ↔ id ∈ path
  heights : ∀ height id, heights.lookup height = some id ↔ id ∈ path ∧ l.height id = height

/-- What is kept is the preferred branch. -/
structure Prefers (l : Lineage) (ts : Topological F) (path : List ID) : Prop where
  follows : Follows (choice ts.blocks) ts.lastAcceptedID path
  preference : ts.preference = path.getLastD ts.lastAcceptedID
  caches : Caches l ts.preferredIDs ts.preferredHeights path

/-- Empty caches belong to the empty path. -/
theorem Caches.empty (l : Lineage) : Caches l ∅ ∅ [] :=
  ⟨fun id => by simp, fun height id => by simp⟩

/-- A block of another height than those kept is added. -/
theorem Caches.insert {ids : Finset ID} {heights : GoMap ℕ ID} {path longer : List ID} {id : ID}
    (caches : Caches l ids heights path) (apart : ∀ other ∈ path, l.height other ≠ l.height id)
    (members : ∀ other, other ∈ longer ↔ other = id ∨ other ∈ path) :
    Caches l (Insert.insert id ids) (heights.insert (l.height id) id) longer := by
  constructor
  case ids =>
    intro other
    rw [Finset.mem_insert, members, caches.ids]
  case heights =>
    intro height other
    rw [members]
    constructor
    · intro found
      obtain ⟨rfl, rfl⟩ | ⟨_, earlier⟩ := lookup_insert_cases found
      · exact ⟨Or.inl rfl, rfl⟩
      · obtain ⟨member, level⟩ := (caches.heights height other).mp earlier
        exact ⟨Or.inr member, level⟩
    · rintro ⟨rfl | member, rfl⟩
      · exact Finmap.lookup_insert _
      · rw [Finmap.lookup_insert_of_ne _ (apart other member)]
        exact (caches.heights _ other).mpr ⟨member, rfl⟩

/-- Adding a block extends the preferred branch if it is added at its end. -/
theorem Prefers.extended {genesis : ID} {ts : Topological F} {path : List ID}
    (prefers : Prefers l ts path) (recorded : Recorded l genesis ts) {blk : Block}
    (names : l.Names blk) (fresh : blk.id ∉ ts.blocks) {parentNode : SnowmanBlock F}
    (found : ts.blocks.lookup blk.parent = some parentNode) :
    ∃ longer, Prefers l (ts.extended blk parentNode) longer := by
  have chosen := choice_withChild ts.params found
  have grounded := recorded.grounded
  have inside : ∀ id ∈ ts.lastAcceptedID :: path, id ∈ ts.blocks :=
    fun _ => grounded.mem_of_walks_root prefers.follows.1
  have apart : ∀ id ∈ ts.blocks, id ≠ blk.id := fun id stored same => fresh (same ▸ stored)
  -- A block that prefers a child does not change its choice.
  have walks : Walks (choice (withChild ts.params blk parentNode ts.blocks)) ts.lastAcceptedID
      path := by
    refine prefers.follows.1.congr ?_
    intro id next member _ preferred
    rw [chosen, if_neg (apart id (inside id member)), preferred]
    split <;> rfl
  have stops := prefers.follows.2
  have preference := prefers.preference
  have endStored := inside _ (List.getLastD_mem_cons (l := path) (a := ts.lastAcceptedID))
  rw [← preference] at stops endStored
  unfold Topological.extended
  dsimp only
  split
  · rename_i atEnd
    refine ⟨path ++ [blk.id], ⟨?_, ?_⟩, List.getLastD_concat.symm, ?_⟩
    · refine (isChain_cons_append _ path _).mpr ⟨walks, ?_⟩
      refine List.isChain_cons_cons.mpr ⟨?_, List.isChain_singleton _⟩
      change choice (withChild ts.params blk parentNode ts.blocks)
        (path.getLastD ts.lastAcceptedID) = _
      rw [← preference, chosen, if_neg (apart _ endStored), if_pos atEnd, stops]
      rfl
    · change choice (withChild ts.params blk parentNode ts.blocks) _ = none
      rw [List.getLastD_concat, chosen, if_pos rfl]
    · have height : blk.height = l.height blk.id := congrArg Block.height names.block
      have above : blk.parent = l.parent blk.id := congrArg Block.parent names.block
      have level := names.height
      rw [← above, ← atEnd, preference] at level
      change Caches l (Insert.insert blk.id ts.preferredIDs)
        (ts.preferredHeights.insert blk.height blk.id) _
      rw [height]
      refine prefers.caches.insert ?_ (fun other => by simp [or_comm])
      intro other listed
      have bound := (height_mem (grounded.chain_of_walks prefers.follows.1) listed).2
      omega
  · rename_i elsewhere
    refine ⟨path, ⟨walks, ?_⟩, preference, prefers.caches⟩
    change choice (withChild ts.params blk parentNode ts.blocks)
      (path.getLastD ts.lastAcceptedID) = none
    rw [← preference, chosen, if_neg (apart _ endStored), if_neg elsewhere]
    exact stops

/-- The walk to the ancestors adds the chain from the root to the block. -/
theorem preferAncestors_law (fuel : ℕ) (front back : List ID) (ts : Topological F)
    (grounded : Grounded l ts.lastAcceptedID ts.blocks)
    (height : ts.lastAcceptedHeight = l.height ts.lastAcceptedID)
    (chain : List.IsChain (ChildOf l.parent l.height) (ts.lastAcceptedID :: (front ++ back)))
    {n : SnowmanBlock F}
    (found : ts.blocks.lookup (front.getLastD ts.lastAcceptedID) = some n)
    (enough : front.length ≤ fuel)
    (caches : Caches l ts.preferredIDs ts.preferredHeights back) :
    ∃ ids heights, Topological.preferAncestors fuel n ts =
        some { ts with preferredIDs := ids, preferredHeights := heights } ∧
      Caches l ids heights (front ++ back) := by
  induction front using List.reverseRecOn generalizing back ts n fuel with
  | nil =>
    refine ⟨ts.preferredIDs, ts.preferredHeights, ?_, caches⟩
    have pending : n.pending ts.lastAcceptedHeight = none := by
      rw [height]
      exact grounded.pending_root found
    unfold Topological.preferAncestors
    rw [pending]
  | append_singleton front id inductionHypothesis =>
    rw [List.append_assoc] at chain
    rw [List.getLastD_concat] at found
    rw [List.length_append, List.length_singleton] at enough
    obtain ⟨lower, upper⟩ := (isChain_cons_append _ front _).mp chain
    obtain ⟨childOf, above⟩ := List.isChain_cons_cons.mp upper
    have notRoot : id ≠ ts.lastAcceptedID := by
      rintro rfl
      have higher := (height_mem chain (List.mem_append_right _ List.mem_cons_self)).1
      omega
    obtain ⟨bound, rfl⟩ : ∃ bound, fuel = bound + 1 := ⟨fuel - 1, by omega⟩
    have parentStored : l.parent id ∈ ts.blocks :=
      grounded.parent_mem (Finmap.mem_of_lookup_eq_some found) notRoot
    obtain ⟨parentNode, parentFound⟩ := Finmap.mem_iff.mp parentStored
    have apart : ∀ other ∈ back, l.height other ≠ l.height id := by
      intro other member
      have higher := (height_mem above member).1
      omega
    obtain ⟨ids, heights, result, after⟩ := inductionHypothesis bound (id :: back)
      { ts with
        preferredIDs := Insert.insert id ts.preferredIDs
        preferredHeights := ts.preferredHeights.insert (l.height id) id }
      grounded height chain (childOf.1 ▸ parentFound) (by omega)
      (caches.insert apart (fun other => List.mem_cons))
    refine ⟨ids, heights, ?_, ?_⟩
    · have pending : n.pending ts.lastAcceptedHeight = some (l.block id) := by
        rw [height]
        exact grounded.pending_other found notRoot
      unfold Topological.preferAncestors
      rw [pending]
      dsimp only [Lineage.block]
      rw [parentFound]
      exact result
    · rw [List.append_assoc]
      exact after

/-- The walk along the preferred children adds them. -/
theorem preferDescendants_law (fuel : ℕ) (front back : List ID) (ts : Topological F)
    (grounded : Grounded l ts.lastAcceptedID ts.blocks)
    (chain : List.IsChain (ChildOf l.parent l.height) (ts.lastAcceptedID :: (front ++ back)))
    (follows : Follows (choice ts.blocks) (front.getLastD ts.lastAcceptedID) back)
    {n : SnowmanBlock F} (found : ts.blocks.lookup (front.getLastD ts.lastAcceptedID) = some n)
    (enough : back.length ≤ fuel) (caches : Caches l ts.preferredIDs ts.preferredHeights front)
    (preference : ts.preference = front.getLastD ts.lastAcceptedID) :
    ∃ ids heights, Topological.preferDescendants fuel n ts =
        some { ts with
          preferredIDs := ids
          preferredHeights := heights
          preference := back.getLastD ts.preference } ∧
      Caches l ids heights (front ++ back) := by
  have chosen : n.sb.map Tree.preference = choice ts.blocks (front.getLastD ts.lastAcceptedID) := by
    unfold choice
    rw [found, Option.bind_some]
  induction back generalizing front ts n fuel with
  | nil =>
    refine ⟨ts.preferredIDs, ts.preferredHeights, ?_, by rwa [List.append_nil]⟩
    have stop := follows.2
    rw [List.getLastD_nil, ← chosen, Option.map_eq_none_iff] at stop
    unfold Topological.preferDescendants
    rw [stop]
    rfl
  | cons next rest inductionHypothesis =>
    obtain ⟨step, _⟩ := List.isChain_cons_cons.mp follows.1
    obtain ⟨inside, notRoot, childOf⟩ := grounded.choice_childOf step
    rw [← chosen, Option.map_eq_some_iff] at step
    obtain ⟨sb, stored, preferred⟩ := step
    rw [List.length_cons] at enough
    obtain ⟨bound, rfl⟩ : ∃ bound, fuel = bound + 1 := ⟨fuel - 1, by omega⟩
    obtain ⟨nextNode, nextFound⟩ := Finmap.mem_iff.mp inside
    have later := follows.tail
    have ends : (front ++ [next]).getLastD ts.lastAcceptedID = next := List.getLastD_concat
    have joined : front ++ next :: rest = (front ++ [next]) ++ rest := by simp
    have apart : ∀ other ∈ front, l.height other ≠ l.height next := by
      intro other member
      have lower := (height_mem ((isChain_cons_append _ front _).mp chain).1 member).2
      have level := childOf.2
      omega
    rw [joined] at chain
    obtain ⟨ids, heights, result, after⟩ := inductionHypothesis bound (front ++ [next])
      { ts with
        preference := next
        preferredIDs := Insert.insert next ts.preferredIDs
        preferredHeights := ts.preferredHeights.insert (l.height next) next }
      grounded chain (by rw [ends]; exact later) (by rw [ends]; exact nextFound) (by omega)
      (caches.insert apart (fun other => by simp [or_comm])) ends.symm
      (by unfold choice; dsimp only; rw [ends, nextFound, Option.bind_some])
    refine ⟨ids, heights, ?_, joined ▸ after⟩
    unfold Topological.preferDescendants
    rw [stored]
    dsimp only
    rw [preferred, nextFound]
    dsimp only
    rw [grounded.block next nextNode nextFound notRoot, List.getLastD_cons]
    exact result

/-- The state while votes are applied. `accepted` are the blocks accepted by the poll so far and
`done` the preferred blocks up to `reached`, the block that would be returned. -/
structure Voting (l : Lineage) (genesis : ID) (before : Topological F)
    (path accepted done : List ID) (reached : ID) (ts : Topological F) : Prop where
  recorded : Recorded l genesis ts
  params : ts.params = before.params
  chain : List.IsChain (ChildOf l.parent l.height) (before.lastAcceptedID :: accepted)
  last : accepted.getLastD before.lastAcceptedID = ts.lastAcceptedID
  walks : Walks (choice ts.blocks) ts.lastAcceptedID done
  ends : done.getLastD ts.lastAcceptedID = reached
  unchanged : ∀ id ∈ before.blocks, Below l.parent l.height reached id →
    id ∈ ts.blocks ∧ choice ts.blocks id = choice before.blocks id
  preference : ts.preference = before.preference
  preferredIDs : ∀ id, id ∈ ts.preferredIDs ↔ id ∈ path ∧ id ∉ accepted
  preferredHeights : ∀ height id, ts.preferredHeights.lookup height = some id ↔
    id ∈ path ∧ l.height id = height ∧ ts.lastAcceptedHeight < height

namespace Voting

variable {genesis : ID} {before ts : Topological F} {path accepted done : List ID} {reached : ID}
  (voting : Voting l genesis before path accepted done reached ts)
include voting

/-- The preferred blocks up to the one reached, after those accepted. -/
theorem chain_done : List.IsChain (ChildOf l.parent l.height)
    (before.lastAcceptedID :: (accepted ++ done)) := by
  rw [isChain_cons_append, voting.last]
  exact ⟨voting.chain, voting.recorded.grounded.chain_of_walks voting.walks⟩

/-- The block that was reached is stored. -/
theorem reached_mem : reached ∈ ts.blocks :=
  voting.recorded.grounded.mem_of_walks_root voting.walks
    (voting.ends ▸ List.getLastD_mem_cons)

/-- If the block reached was preferred before, what was preferred before goes on as it did. -/
theorem resumes (grounded : Grounded l before.lastAcceptedID before.blocks)
    (prefers : Prefers l before path) (member : reached ∈ path) :
    ∃ rest, path = accepted ++ (done ++ rest) ∧
      Follows (choice ts.blocks) ts.lastAcceptedID (done ++ rest) := by
  obtain ⟨front, rest, rfl⟩ := List.append_of_mem member
  have joined : front ++ reached :: rest = (front ++ [reached]) ++ rest := by simp
  have follows := prefers.follows
  rw [joined] at follows
  have whole := grounded.chain_of_walks follows.1
  obtain ⟨lower, upper⟩ := (isChain_cons_append _ (front ++ [reached]) rest).mp whole
  have later := follows.rest
  rw [List.getLastD_concat] at upper later
  have same : front ++ [reached] = accepted ++ done := by
    refine chain_unique lower voting.chain_done ?_
    rw [List.getLastD_concat, getLastD_append, voting.last, voting.ends]
  refine ⟨rest, by rw [joined, same, List.append_assoc], ?_⟩
  refine voting.walks.follows_append ?_
  rw [voting.ends]
  refine later.congr ?_
  intro id listed
  have stored : id ∈ before.blocks := by
    refine (grounded.mem_of_walks follows.1 ?_).1
    cases List.mem_cons.mp listed with
    | inl here => simp [here]
    | inr further => simp [further]
  exact (voting.unchanged id stored (below_mem upper listed)).2

/-- The early return is sound: a branch that was preferred up to the block reached is still
kept as it is. -/
theorem prefers_of_mem (grounded : Grounded l before.lastAcceptedID before.blocks)
    (prefers : Prefers l before path) (member : reached ∈ ts.preferredIDs) :
    ∃ rest, Prefers l ts rest := by
  obtain ⟨rest, shape, follows⟩ := voting.resumes grounded prefers
    ((voting.preferredIDs reached).mp member).1
  have whole := grounded.chain_of_walks prefers.follows.1
  rw [shape] at whole
  obtain ⟨_, distinct⟩ := List.nodup_cons.mp (nodup_chain whole)
  have disjoint := (List.nodup_append'.mp distinct).2.2
  have members : ∀ id, id ∈ path ↔ id ∈ accepted ∨ id ∈ done ++ rest := by
    intro id
    rw [shape, List.mem_append]
  have lowerHeights : ∀ id ∈ accepted, l.height id ≤ ts.lastAcceptedHeight := by
    intro id listed
    have bound := (height_mem voting.chain listed).2
    rw [voting.last, ← voting.recorded.height] at bound
    exact bound
  have upperHeights : ∀ id ∈ done ++ rest, ts.lastAcceptedHeight < l.height id := by
    intro id listed
    rw [voting.recorded.height]
    exact (height_mem (voting.recorded.grounded.chain_of_walks follows.1) listed).1
  refine ⟨done ++ rest, follows, ?_, ?_, ?_⟩
  · rw [voting.preference, prefers.preference, shape, getLastD_append, voting.last]
  · intro id
    rw [voting.preferredIDs, members]
    constructor
    · rintro ⟨listed, notAccepted⟩
      exact listed.resolve_left notAccepted
    · exact fun listed => ⟨Or.inr listed, fun earlier => disjoint earlier listed⟩
  · intro height id
    rw [voting.preferredHeights, members]
    constructor
    · rintro ⟨listed, rfl, above⟩
      refine ⟨listed.resolve_left (fun earlier => ?_), rfl⟩
      have bound := lowerHeights id earlier
      omega
    · rintro ⟨listed, rfl⟩
      exact ⟨Or.inr listed, rfl, upperHeights id listed⟩

/-- The end of `RecordPoll` leaves or computes the preferred branch. -/
theorem updatePreference (grounded : Grounded l before.lastAcceptedID before.blocks)
    (prefers : Prefers l before path) :
    ∃ after rest, ts.updatePreference reached = some after ∧ Recorded l genesis after ∧
      Prefers l after rest ∧ after.params = before.params := by
  have recorded := voting.recorded
  unfold Topological.updatePreference
  split
  · rename_i member
    obtain ⟨rest, kept⟩ := voting.prefers_of_mem grounded prefers member
    exact ⟨ts, rest, rfl, recorded, kept, voting.params⟩
  · obtain ⟨n, found⟩ := Finmap.mem_iff.mp voting.reached_mem
    obtain ⟨rest, follows, short⟩ := exists_follows
      (fun node _ next chosen => by
        obtain ⟨inside, _, childOf⟩ := recorded.grounded.choice_childOf chosen
        exact ⟨Finmap.mem_keys.mpr inside, childOf⟩)
      (Finmap.mem_keys.mpr voting.reached_mem)
    have branch : Follows (choice ts.blocks) ts.lastAcceptedID (done ++ rest) :=
      voting.walks.follows_append (voting.ends ▸ follows)
    have chain := recorded.grounded.chain_of_walks branch.1
    have walked : done.length ≤ n.height := by
      cases done with
      | nil => exact Nat.zero_le _
      | cons first others =>
        have level := height_getLastD (recorded.grounded.chain_of_walks voting.walks)
        have notRoot : reached ≠ ts.lastAcceptedID := by
          intro atRoot
          rw [voting.ends, atRoot, List.length_cons] at level
          omega
        rw [voting.ends] at level
        unfold SnowmanBlock.height
        rw [recorded.grounded.block reached n found notRoot]
        change _ ≤ l.height reached
        omega
    have start : ts.blocks.lookup (done.getLastD ts.lastAcceptedID) = some n := voting.ends ▸ found
    obtain ⟨ids, heights, first, cached⟩ := preferAncestors_law n.height done []
      { ts with preferredIDs := ∅, preferredHeights := ∅, preference := reached }
      recorded.grounded recorded.height (by
        rw [List.append_nil]
        exact recorded.grounded.chain_of_walks voting.walks) start walked (Caches.empty l)
    rw [List.append_nil] at cached
    obtain ⟨allIDs, allHeights, second, complete⟩ := preferDescendants_law
      ts.blocks.keys.card done rest
      { ts with preferredIDs := ids, preferredHeights := heights, preference := reached }
      recorded.grounded chain (voting.ends ▸ follows) start
      (short.trans (Finset.card_filter_le _ _)) cached voting.ends.symm
    refine ⟨{ ts with
      preferredIDs := allIDs
      preferredHeights := allHeights
      preference := rest.getLastD reached }, done ++ rest, ?_, ?_, ⟨branch, ?_, complete⟩,
      voting.params⟩
    · rw [found]
      dsimp only
      rw [first]
      exact second
    · exact recorded.congr rfl rfl rfl rfl rfl recorded.grounded (fun _ => Iff.rfl)
    · dsimp only
      rw [getLastD_append, voting.ends]

end Voting

end AvalancheParallel.Snowman
