import AvalancheParallel.Snowman.PreferredBranch

/-!
# The vote loop

The loop of `vote` goes up a branch of the tree from the last accepted block. As long as
it is on the preferred branch, the block voted on is the one reached, and the loop moves on
to its preferred child, which may just have been accepted. Once the next block of the
branch is not the preferred child, the loop has left the preferred branch for good: all
later blocks are above a sibling of the block reached, so that neither the way to the block
reached nor anything above it is voted on any more. If the sibling was rejected, the loop
ends.
-/

namespace AvalancheParallel.Snowman

open AvalancheParallel.Ids AvalancheParallel.RangeLoop AvalancheParallel.Snowball
open AvalancheParallel.ParentTree

variable {F : Factory} {l : Lineage} {genesis : ID} {before ts : Topological F}
  {path accepted done : List ID} {reached : ID}

namespace Voting

variable (voting : Voting l genesis before path accepted done reached ts)
include voting

/-- Nodes of the tree are replaced. The way to the block then reached has to be preferred, and what
was preferred above that block has to stay so. -/
theorem replace {after : GoMap ID (SnowmanBlock F)} {doneAfter : List ID} {reachedAfter : ID}
    (grounded : Grounded l ts.lastAcceptedID after) (members : ∀ id, id ∈ after ↔ id ∈ ts.blocks)
    (walks : Walks (choice after) ts.lastAcceptedID doneAfter)
    (ends : doneAfter.getLastD ts.lastAcceptedID = reachedAfter)
    (above : ∀ id, Below l.parent l.height reachedAfter id →
      Below l.parent l.height reached id ∧ choice after id = choice ts.blocks id) :
    Voting l genesis before path accepted doneAfter reachedAfter { ts with blocks := after } := by
  constructor
  case recorded => exact voting.recorded.congr rfl rfl rfl rfl rfl grounded members
  case params => exact voting.params
  case chain => exact voting.chain
  case last => exact voting.last
  case walks => exact walks
  case ends => exact ends
  case unchanged =>
    intro id member below
    obtain ⟨earlier, same⟩ := above id below
    obtain ⟨stored, unchanged⟩ := voting.unchanged id member earlier
    exact ⟨(members id).mpr stored, same.trans unchanged⟩
  case preference => exact voting.preference
  case preferredIDs => exact voting.preferredIDs
  case preferredHeights => exact voting.preferredHeights

/-- Marking blocks for a reset. -/
theorem alike {after : GoMap ID (SnowmanBlock F)}
    (alike : Topological.Alike l ts.lastAcceptedID ts.blocks after) :
    Voting l genesis before path accepted done reached { ts with blocks := after } := by
  have sameChoice : choice after = choice ts.blocks := funext alike.choice_eq
  refine voting.replace alike.grounded alike.mem_iff ?_ voting.ends ?_
  · rw [sameChoice]
    exact voting.walks
  · exact fun id below => ⟨below, alike.choice_eq id⟩

/-- The way to the block reached does not leave blocks that are as high as it. -/
theorem walks_insert {id : ID} (high : l.height reached ≤ l.height id) (n : SnowmanBlock F) :
    Walks (choice (ts.blocks.insert id n)) ts.lastAcceptedID done := by
  refine voting.walks.congr ?_
  intro node next _ member chosen
  rw [choice_insert, if_neg]
  rintro rfl
  have chain := voting.recorded.grounded.chain_of_walks voting.walks
  have bound := (height_mem chain member).2
  have level := (voting.recorded.grounded.choice_childOf chosen).2.2.2
  rw [voting.ends] at bound
  omega

/-- A vote off the preferred branch. -/
theorem setNode_off {id : ID} {n : SnowmanBlock F} (high : l.height reached ≤ l.height id)
    (apart : ¬ Below l.parent l.height reached id) (stored : id ∈ ts.blocks)
    (grounded : Grounded l ts.lastAcceptedID (ts.blocks.insert id n)) :
    Voting l genesis before path accepted done reached (ts.setNode id n) := by
  refine voting.replace grounded (mem_insert_of_mem stored n) (voting.walks_insert high n)
    voting.ends ?_
  intro other below
  refine ⟨below, ?_⟩
  rw [choice_insert, if_neg]
  rintro rfl
  exact apart below

/-- A vote on the block reached, without a decision: its preferred child is reached. -/
theorem setNode_on {n : SnowmanBlock F} {polled : Tree F}
    (grounded : Grounded l ts.lastAcceptedID (ts.blocks.insert reached n))
    (prefers : n.sb = some polled) :
    Voting l genesis before path accepted (done ++ [polled.preference]) polled.preference
      (ts.setNode reached n) := by
  have chosen : choice (ts.blocks.insert reached n) reached = some polled.preference := by
    rw [choice_insert, if_pos rfl, prefers]
    rfl
  have childOf := (grounded.choice_childOf chosen).2.2
  refine voting.replace grounded (mem_insert_of_mem voting.reached_mem n) ?_
    List.getLastD_concat ?_
  · refine (isChain_cons_append _ done _).mpr ⟨voting.walks_insert (Nat.le_refl _) n, ?_⟩
    rw [voting.ends]
    exact List.isChain_cons_cons.mpr ⟨chosen, List.isChain_singleton _⟩
  · intro other below
    refine ⟨childOf.below.trans below, ?_⟩
    rw [choice_insert, if_neg]
    rintro rfl
    have lower := below.1
    have level := childOf.2
    omega

/-- A vote on the last accepted block with a decision: the accepted child is reached. -/
theorem accept {n : SnowmanBlock F} {polled : Tree F} (atRoot : reached = ts.lastAcceptedID)
    (grounded : Grounded l ts.lastAcceptedID (ts.blocks.insert reached n))
    (prefers : n.sb = some polled) {after : GoMap ID (SnowmanBlock F)} {rejected : List ID}
    (decides : Topological.Decides l ts.lastAcceptedID polled.preference rejected
      (ts.blocks.insert reached n) after) :
    Voting l genesis before path (accepted ++ [polled.preference]) [] polled.preference
      (ts.accepting l polled.preference rejected after) := by
  have members := mem_insert_of_mem voting.reached_mem n
  have chosen : choice (ts.blocks.insert reached n) reached = some polled.preference := by
    rw [choice_insert, if_pos rfl, prefers]
    rfl
  obtain ⟨stored, _, childOf⟩ := grounded.choice_childOf chosen
  have recorded : Recorded l genesis (ts.setNode reached n) :=
    voting.recorded.congr rfl rfl rfl rfl rfl grounded members
  have level := childOf.2
  constructor
  case recorded => exact recorded.accepting stored (atRoot ▸ childOf) decides
  case params => exact voting.params
  case chain =>
    rw [isChain_cons_append, voting.last, ← atRoot]
    exact ⟨voting.chain, List.isChain_cons_cons.mpr ⟨childOf, List.isChain_singleton _⟩⟩
  case last => exact List.getLastD_concat
  case walks => exact List.isChain_singleton _
  case ends => rfl
  case unchanged =>
    intro other member below
    obtain ⟨inside, same⟩ := voting.unchanged other member (childOf.below.trans below)
    have kept := (decides.kept.mem_iff other).mpr ⟨(members other).mpr inside, below⟩
    refine ⟨kept, ?_⟩
    change choice after other = _
    rw [decides.kept.choice_eq kept, choice_insert, if_neg]
    · exact same
    · rintro rfl
      have lower := below.1
      omega
  case preference => exact voting.preference
  case preferredIDs =>
    intro id
    change id ∈ ts.preferredIDs.erase polled.preference ↔ _
    rw [Finset.mem_erase, voting.preferredIDs, List.mem_append, List.mem_singleton, not_or]
    tauto
  case preferredHeights =>
    intro height id
    change (ts.preferredHeights.erase (l.height polled.preference)).lookup height = some id ↔
      id ∈ path ∧ l.height id = height ∧ l.height polled.preference < height
    have lower : l.height polled.preference = ts.lastAcceptedHeight + 1 := by
      rw [voting.recorded.height, ← atRoot, level]
    constructor
    · intro found
      obtain ⟨apart, earlier⟩ := lookup_erase_some found
      obtain ⟨listed, same, above⟩ := (voting.preferredHeights height id).mp earlier
      exact ⟨listed, same, by omega⟩
    · rintro ⟨listed, same, above⟩
      rw [Finmap.lookup_erase_ne (by omega)]
      exact (voting.preferredHeights height id).mpr ⟨listed, same, by omega⟩

end Voting

/-- The votes still to be applied. On the preferred branch the next one is for the block reached;
off it, it is for a block that is as high and not above it. -/
structure Remaining (l : Lineage) (reached : ID) (onPreferredBranch : Bool) (stack : List Votes)
    (ts : Topological F) : Prop where
  chain : List.IsChain (ChildOf l.parent l.height) (stack.map Votes.parentID)
  entries : ∀ entry ∈ stack, entry.parentID ∈ ts.blocks →
    ∃ child ∈ ts.blocks, child ≠ ts.lastAcceptedID ∧ l.parent child = entry.parentID
  on : onPreferredBranch = true → ∀ vote ∈ stack.head?, vote.parentID = reached
  off : onPreferredBranch = false → ∀ vote ∈ stack.head?,
    l.height reached ≤ l.height vote.parentID ∧ ¬ Below l.parent l.height reached vote.parentID

namespace Remaining

variable {vote : Votes} {stack : List Votes}

/-- The next vote, when the last one was off the preferred branch. -/
theorem next_off (remaining : Remaining l reached false (vote :: stack) ts) (after : Topological F)
    (sameLast : after.lastAcceptedID = ts.lastAcceptedID)
    (members : ∀ id, id ∈ after.blocks ↔ id ∈ ts.blocks) :
    Remaining l reached false stack after := by
  obtain ⟨high, apart⟩ := remaining.off rfl vote rfl
  constructor
  case chain => exact List.IsChain.tail remaining.chain
  case entries =>
    intro entry listed
    simp only [members, sameLast]
    exact remaining.entries entry (List.mem_cons_of_mem _ listed)
  case on => exact fun impossible => nomatch impossible
  case off =>
    intro _ next listed
    cases stack with
    | nil => cases listed
    | cons first rest =>
      cases listed
      have childOf := (List.isChain_cons_cons.mp remaining.chain).1
      have level := childOf.2
      rw [← childOf.1] at level
      rw [← childOf.1] at high apart
      refine ⟨by omega, fun below => apart ?_⟩
      exact (below_iff_parent level (by omega)).mp below

/-- The next vote, when the last one was for the block reached and a child of it is preferred. -/
theorem next_on (remaining : Remaining l reached true (vote :: stack) ts) {preferred : ID}
    (childOf : ChildOf l.parent l.height reached preferred) (after : Topological F)
    (entries : ∀ entry ∈ stack, entry.parentID ∈ after.blocks →
      ∃ child ∈ after.blocks, child ≠ after.lastAcceptedID ∧ l.parent child = entry.parentID) :
    Remaining l preferred (decide ((stack.head?.map Votes.parentID).getD emptyID = preferred))
      stack after := by
  have atReached := remaining.on rfl vote rfl
  have nextChild : ∀ next ∈ stack.head?, ChildOf l.parent l.height reached next.parentID := by
    intro next listed
    cases stack with
    | nil => cases listed
    | cons first rest =>
      cases listed
      exact atReached ▸ (List.isChain_cons_cons.mp remaining.chain).1
  constructor
  case chain => exact List.IsChain.tail remaining.chain
  case entries => exact entries
  case on =>
    intro same next listed
    have chosen := of_decide_eq_true same
    rw [Option.mem_def.mp listed] at chosen
    exact chosen
  case off =>
    intro different next listed
    have other := of_decide_eq_false different
    rw [Option.mem_def.mp listed] at other
    have level : l.height next.parentID = l.height preferred := by
      rw [(nextChild next listed).2, childOf.2]
    exact ⟨Nat.le_of_eq level.symm, fun below => other ((below_iff_eq level).mp below)⟩

/-- The blocks that are voted on and kept when a child of the root is accepted keep their
children. -/
theorem entries_accepting (remaining : Remaining l reached true (vote :: stack) ts)
    {blocks after : GoMap ID (SnowmanBlock F)} (grounded : Grounded l ts.lastAcceptedID blocks)
    (members : ∀ id, id ∈ blocks ↔ id ∈ ts.blocks) {preferred : ID}
    (kept : KeptAbove l preferred blocks after) :
    ∀ entry ∈ stack, entry.parentID ∈ after →
      ∃ child ∈ after, child ≠ preferred ∧ l.parent child = entry.parentID := by
  intro entry listed inside
  obtain ⟨stored, below⟩ := (kept.mem_iff _).mp inside
  obtain ⟨child, childStored, other, above⟩ :=
    remaining.entries entry (List.mem_cons_of_mem _ listed) ((members _).mp stored)
  have level := grounded.height_eq ((members child).mpr childStored) other
  have lower := below.1
  rw [above] at level
  rw [← above] at below
  refine ⟨child, (kept.mem_iff child).mpr ⟨(members child).mpr childStored, ?_⟩, ?_, above⟩
  · exact (below_iff_parent (above ▸ level) (by omega)).mpr below
  · rintro rfl
    omega

/-- The blocks that are voted on keep their children when a node is written. -/
theorem entries_setNode {on : Bool} (remaining : Remaining l reached on (vote :: stack) ts)
    {id : ID} (member : id ∈ ts.blocks) (n : SnowmanBlock F) :
    ∀ entry ∈ stack, entry.parentID ∈ (ts.setNode id n).blocks →
      ∃ child ∈ (ts.setNode id n).blocks, child ≠ (ts.setNode id n).lastAcceptedID ∧
        l.parent child = entry.parentID := by
  intro entry listed
  simp only [Topological.setNode, mem_insert_of_mem member]
  exact remaining.entries entry (List.mem_cons_of_mem _ listed)

end Remaining

/-- A vote off the preferred branch is not for the last accepted block. -/
theorem Voting.ne_root (voting : Voting l genesis before path accepted done reached ts) {id : ID}
    (high : l.height reached ≤ l.height id) (apart : ¬ Below l.parent l.height reached id) :
    id ≠ ts.lastAcceptedID := by
  rintro rfl
  apply apart
  by_cases atRoot : reached = ts.lastAcceptedID
  · rw [atRoot]
    exact Below.refl _
  · have above := voting.recorded.grounded.height_lt voting.reached_mem atRoot
    omega

/-- The rest of an iteration after a state with its votes recorded: resets change nothing. -/
theorem Voting.reset (voting : Voting l genesis before path accepted done reached ts) {on : Bool}
    {stack : List Votes} (remaining : Remaining l reached on stack ts) (resets : List ID) :
    Voting l genesis before path accepted done reached (resets.foldl Topological.deferReset ts) ∧
      Remaining l reached on stack (resets.foldl Topological.deferReset ts) := by
  obtain ⟨after, result, alike⟩ :=
    Topological.foldl_deferReset_law resets voting.recorded.grounded
  rw [result]
  refine ⟨voting.alike alike, remaining.chain, ?_, remaining.on, remaining.off⟩
  intro entry listed
  simp only [alike.mem_iff]
  exact remaining.entries entry listed

/-- The votes for a block off the preferred branch. -/
theorem recordVotes_off (order : IterationOrder ID) {vote : Votes} {stack : List Votes}
    (voting : Voting l genesis before path accepted done reached ts)
    (remaining : Remaining l reached false (vote :: stack) ts) {n : SnowmanBlock F}
    (found : ts.blocks.lookup vote.parentID = some n) {sb : Tree F} (stored : n.sb = some sb) :
    ∃ polled after, ts.recordVotes order vote n sb = some (polled, after) ∧
      Voting l genesis before path accepted done reached after ∧
      Remaining l reached false stack after := by
  have member := Finmap.mem_of_lookup_eq_some found
  obtain ⟨high, apart⟩ := remaining.off rfl vote rfl
  obtain ⟨polled, updated, outcome⟩ :=
    Topological.recordVotes_law order vote voting.recorded.grounded found stored
  obtain result | ⟨atRoot, _⟩ := outcome
  · exact ⟨polled, _, result, voting.setNode_off high apart member updated,
      remaining.next_off _ rfl (mem_insert_of_mem member _)⟩
  · exact absurd atRoot (voting.ne_root high apart)

/-- The votes for the block reached: its preferred child is reached, and possibly accepted. -/
theorem recordVotes_on (order : IterationOrder ID) {vote : Votes} {stack : List Votes}
    (voting : Voting l genesis before path accepted done reached ts)
    (remaining : Remaining l reached true (vote :: stack) ts) {n : SnowmanBlock F}
    (found : ts.blocks.lookup vote.parentID = some n) {sb : Tree F} (stored : n.sb = some sb) :
    ∃ polled after, ts.recordVotes order vote n sb = some (polled, after) ∧
      (∃ accepted done, Voting l genesis before path accepted done polled.preference after) ∧
      Remaining l polled.preference
        (decide ((stack.head?.map Votes.parentID).getD emptyID = polled.preference))
        stack after := by
  have member := Finmap.mem_of_lookup_eq_some found
  obtain ⟨polled, updated, outcome⟩ :=
    Topological.recordVotes_law order vote voting.recorded.grounded found stored
  rw [remaining.on rfl vote rfl] at updated outcome member
  have chosen : choice (ts.blocks.insert reached
      { n with shouldFalter := false, sb := some polled }) reached = some polled.preference := by
    rw [choice_insert, if_pos rfl]
    rfl
  have childOf := (updated.choice_childOf chosen).2.2
  obtain result | ⟨atRoot, after, rejected, result, decides⟩ := outcome
  · exact ⟨polled, _, result,
      ⟨accepted, done ++ [polled.preference], voting.setNode_on updated rfl⟩,
      remaining.next_on childOf _ (remaining.entries_setNode member _)⟩
  · have entries := remaining.entries_accepting updated (mem_insert_of_mem member _) decides.kept
    exact ⟨polled, _, result,
      ⟨accepted ++ [polled.preference], [], voting.accept atRoot updated rfl decides⟩,
      remaining.next_on childOf (ts.accepting l polled.preference rejected after) entries⟩

/-- The loop of `vote` ends with the block reached. -/
theorem applyVotes_law (order : IterationOrder ID) (stack : List Votes) (on : Bool)
    (voting : Voting l genesis before path accepted done reached ts)
    (remaining : Remaining l reached on stack ts) :
    ∃ returned after, ts.applyVotes order stack reached on = some (returned, after) ∧
      ∃ accepted done, Voting l genesis before path accepted done returned after := by
  induction stack generalizing accepted done reached on ts with
  | nil => exact ⟨reached, ts, rfl, accepted, done, voting⟩
  | cons vote rest inductionHypothesis =>
    unfold Topological.applyVotes
    cases found : ts.blocks.lookup vote.parentID with
    | none => exact ⟨reached, ts, rfl, accepted, done, voting⟩
    | some n =>
      have member := Finmap.mem_of_lookup_eq_some found
      obtain ⟨child, inside, other, above⟩ := remaining.entries vote List.mem_cons_self member
      obtain ⟨sb, stored⟩ := voting.recorded.grounded.exists_sb found inside other above
      dsimp only
      rw [stored]
      dsimp only
      cases on with
      | false =>
        obtain ⟨polled, recorded, result, next, more⟩ :=
          recordVotes_off order voting remaining found stored
        rw [result]
        obtain ⟨nextReset, moreReset⟩ := next.reset more _
        exact inductionHypothesis false nextReset moreReset
      | true =>
        obtain ⟨polled, recorded, result, ⟨accepted, done, next⟩, more⟩ :=
          recordVotes_on order voting remaining found stored
        rw [result]
        obtain ⟨nextReset, moreReset⟩ := next.reset more _
        exact inductionHypothesis _ nextReset moreReset

/-- Before any vote is applied. -/
theorem Voting.start (recorded : Recorded l genesis ts) (prefers : Prefers l ts path)
    (walks : Walks (choice ts.blocks) ts.lastAcceptedID done) :
    Voting l genesis ts path [] done (done.getLastD ts.lastAcceptedID) ts := by
  have chain := recorded.grounded.chain_of_walks prefers.follows.1
  constructor
  case recorded => exact recorded
  case params => rfl
  case chain => exact List.isChain_singleton _
  case last => rfl
  case walks => exact walks
  case ends => rfl
  case unchanged => exact fun id member _ => ⟨member, rfl⟩
  case preference => rfl
  case preferredIDs =>
    intro id
    rw [prefers.caches.ids]
    exact ⟨fun listed => ⟨listed, List.not_mem_nil⟩, And.left⟩
  case preferredHeights =>
    intro height id
    rw [prefers.caches.heights]
    constructor
    · rintro ⟨listed, rfl⟩
      exact ⟨listed, rfl, recorded.height ▸ (height_mem chain listed).1⟩
    · rintro ⟨listed, same, _⟩
      exact ⟨listed, same⟩

/-- `vote` returns a block reached from the last accepted one. -/
theorem vote_law (order : IterationOrder ID) (recorded : Recorded l genesis ts)
    (prefers : Prefers l ts path) {stack : List Votes}
    (branch : Branch l ts.lastAcceptedID ts.blocks stack)
    (first : ∀ top rest, stack = top :: rest → top.parentID = ts.lastAcceptedID) :
    ∃ returned after, ts.vote order stack = some (returned, after) ∧
      ∃ accepted done, Voting l genesis ts path accepted done returned after := by
  cases stack with
  | nil =>
    have voting := Voting.start recorded prefers prefers.follows.1
    rw [← prefers.preference] at voting
    obtain ⟨after, result, alike⟩ :=
      Topological.deferReset_law ts.lastAcceptedID recorded.grounded
    refine ⟨ts.preference, { ts with blocks := after }, ?_, [], path, voting.alike alike⟩
    unfold Topological.vote
    dsimp only
    rw [if_pos recorded.grounded.root_mem, result]
  | cons top rest =>
    have here : Walks (choice ts.blocks) ts.lastAcceptedID [] := List.isChain_singleton _
    have voting := Voting.start recorded prefers here
    refine applyVotes_law order (top :: rest) true voting ?_
    constructor
    case chain => exact branch.chain
    case entries => exact fun entry listed _ => (branch.entries entry listed).2
    case on =>
      intro _ vote listed
      cases listed
      exact first top rest rfl
    case off => exact fun impossible => nomatch impossible

/-- `RecordPoll` returns, and keeps the lists of calls and the preferred branch in order. -/
theorem recordPoll_law (orders : PollOrders) (recorded : Recorded l genesis ts)
    (prefers : Prefers l ts path) (valid : ts.params.verify = none) {bag : Multiset ID}
    (bounded : (bag.card : ℤ) ≤ ts.params.k) :
    ∃ after rest, ts.recordPoll orders bag = some after ∧ Recorded l genesis after ∧
      Prefers l after rest ∧ after.params = ts.params := by
  obtain ⟨stack, pushed, branch, first⟩ :=
    voteStack_law recorded.grounded recorded.height orders valid bounded
  obtain ⟨returned, voted, result, accepted, done, voting⟩ :=
    vote_law orders.children recorded prefers branch first
  obtain ⟨after, rest, updated, outcome⟩ := voting.updatePreference recorded.grounded prefers
  refine ⟨after, rest, ?_, outcome⟩
  unfold Topological.recordPoll
  rw [pushed]
  dsimp only
  rw [result]
  exact updated

end AvalancheParallel.Snowman
