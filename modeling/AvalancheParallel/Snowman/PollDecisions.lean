import AvalancheParallel.Snowman.Consensus

/-!
# What a poll decides

A poll takes blocks out of the tree and adds none. The blocks that it accepts and rejects are
listed behind those decided before. A block that leaves the tree was rejected, or it was, or
became, the last accepted block and one of its children was accepted.
-/

namespace AvalancheParallel.Snowman

open AvalancheParallel.Ids AvalancheParallel.RangeLoop AvalancheParallel.Snowball
open AvalancheParallel.ParentTree

variable {F : Factory} {l : Lineage} {genesis : ID}

/-- Blocks were decided: none was added, and the lists of decisions are continued. -/
structure Advances (before after : Topological F) : Prop where
  blocks : ∀ id, id ∈ after.blocks → id ∈ before.blocks
  issued : after.issued = before.issued
  accepted : before.accepted <+: after.accepted
  rejected : before.rejected <+: after.rejected

/-- Nothing is decided without a step. -/
theorem Advances.refl (ts : Topological F) : Advances ts ts :=
  ⟨fun _ member => member, rfl, List.prefix_rfl, List.prefix_rfl⟩

/-- Two advances, one after the other. -/
theorem Advances.trans {first second third : Topological F} (one : Advances first second)
    (other : Advances second third) : Advances first third :=
  ⟨fun id member => one.blocks id (other.blocks id member), other.issued.trans one.issued,
    one.accepted.trans other.accepted, one.rejected.trans other.rejected⟩

namespace Topological

/-- Rejecting descendants only adds to the rejected blocks. -/
theorem rejectTransitively_advances (order : IterationOrder ID) (fuel : ℕ) {stack : List ID}
    {ts after : Topological F} (result : rejectTransitively order fuel stack ts = some after) :
    Advances ts after := by
  induction fuel generalizing stack ts with
  | zero =>
    cases stack with
    | nil =>
      cases result
      exact Advances.refl _
    | cons first rest => cases result
  | succ fuel inductionHypothesis =>
    cases stack with
    | nil =>
      cases result
      exact Advances.refl _
    | cons first rest =>
      unfold rejectTransitively at result
      split at result
      · cases result
      · apply Advances.trans _ (inductionHypothesis result)
        exact ⟨fun id member => (Finmap.mem_erase.mp member).2, rfl, List.prefix_rfl,
          List.prefix_append _ _⟩

/-- Accepting the preferred child adds to the decisions. -/
theorem acceptPreferredChild_advances {order : IterationOrder ID} {n : SnowmanBlock F} {sb : Tree F}
    {ts after : Topological F} (result : ts.acceptPreferredChild order n sb = some after) :
    Advances ts after := by
  unfold acceptPreferredChild at result
  simp only at result
  split at result
  · cases result
  · apply Advances.trans _ (rejectTransitively_advances order _ result)
    exact ⟨fun id member => member, rfl, List.prefix_append _ _, List.prefix_append _ _⟩

/-- Writing a node that is there. -/
theorem advances_insert {ts : Topological F} {id : ID} (stored : id ∈ ts.blocks)
    (n : SnowmanBlock F) : Advances ts { ts with blocks := ts.blocks.insert id n } :=
  ⟨fun other => (mem_insert_of_mem stored n other).mp, rfl, List.prefix_rfl, List.prefix_rfl⟩

/-- Recording the votes for the children of a block adds to the decisions at most. -/
theorem recordVotes_advances {order : IterationOrder ID} {vote : Votes} {n : SnowmanBlock F}
    {sb polled : Tree F} {ts after : Topological F} (stored : vote.parentID ∈ ts.blocks)
    (result : ts.recordVotes order vote n sb = some (polled, after)) : Advances ts after := by
  unfold recordVotes at result
  simp only at result
  generalize ((if n.shouldFalter = true then sb.recordUnsuccessfulPoll else sb).recordPoll
    vote.votes).1 = tree at result
  split at result
  · split at result
    · cases result
    · rename_i accepted accepting
      cases result
      apply (advances_insert stored _).trans
      apply (acceptPreferredChild_advances accepting).trans
      exact ⟨fun id member => (Finmap.mem_erase.mp member).2, rfl, List.prefix_rfl,
        List.prefix_rfl⟩
  · cases result
    exact advances_insert stored _

/-- Deferring a reset decides nothing. -/
theorem deferReset_advances (ts : Topological F) (id : ID) : Advances ts (ts.deferReset id) := by
  unfold deferReset
  split
  · exact Advances.refl ts
  · rename_i found
    exact advances_insert (Finmap.mem_of_lookup_eq_some found) _

/-- Deferring several resets decides nothing. -/
theorem foldl_deferReset_advances (reset : List ID) (ts : Topological F) :
    Advances ts (reset.foldl deferReset ts) := by
  induction reset generalizing ts with
  | nil => exact Advances.refl ts
  | cons id rest inductionHypothesis =>
    exact (deferReset_advances ts id).trans (inductionHypothesis _)

/-- Applying the votes of one block adds to the decisions at most. -/
theorem applyVotes_advances (order : IterationOrder ID) {stack : List Votes} {newPreferred : ID}
    {onPreferredBranch : Bool} {ts after : Topological F} {returned : ID}
    (result : ts.applyVotes order stack newPreferred onPreferredBranch = some (returned, after)) :
    Advances ts after := by
  induction stack generalizing newPreferred onPreferredBranch ts with
  | nil =>
    cases result
    exact Advances.refl _
  | cons vote rest inductionHypothesis =>
    unfold applyVotes at result
    split at result
    · cases result
      exact Advances.refl _
    · rename_i parentBlock found
      split at result
      · cases result
      · split at result
        · cases result
        · rename_i polled voted recorded
          apply (recordVotes_advances (Finmap.mem_of_lookup_eq_some found) recorded).trans
          apply Advances.trans _ (inductionHypothesis result)
          exact foldl_deferReset_advances _ voted

/-- Applying all votes adds to the decisions at most. -/
theorem vote_advances {order : IterationOrder ID} {stack : List Votes} {ts after : Topological F}
    {returned : ID} (result : ts.vote order stack = some (returned, after)) :
    Advances ts after := by
  unfold vote at result
  split at result
  · split at result
    · cases result
      exact deferReset_advances ts _
    · cases result
  · exact applyVotes_advances order result

/-- The preferred branch is not part of the tree or of the lists. -/
theorem advances_preferences (ts : Topological F) (preferredIDs : Finset ID)
    (preferredHeights : GoMap ℕ ID) (preference : ID) :
    Advances ts { ts with
      preferredIDs := preferredIDs
      preferredHeights := preferredHeights
      preference := preference } :=
  ⟨fun _ member => member, rfl, List.prefix_rfl, List.prefix_rfl⟩

/-- Updating the preference towards the root decides nothing. -/
theorem preferAncestors_advances (fuel : ℕ) {block : SnowmanBlock F} {ts after : Topological F}
    (result : preferAncestors fuel block ts = some after) : Advances ts after := by
  induction fuel generalizing block ts with
  | zero =>
    unfold preferAncestors at result
    split at result
    · cases result
      exact Advances.refl _
    · cases result
  | succ fuel inductionHypothesis =>
    unfold preferAncestors at result
    split at result
    · cases result
      exact Advances.refl _
    · simp only at result
      split at result
      · cases result
      · exact (advances_preferences ts _ _ _).trans (inductionHypothesis result)

/-- Updating the preference towards the leaves decides nothing. -/
theorem preferDescendants_advances (fuel : ℕ) {block : SnowmanBlock F} {ts after : Topological F}
    (result : preferDescendants fuel block ts = some after) : Advances ts after := by
  induction fuel generalizing block ts with
  | zero =>
    unfold preferDescendants at result
    split at result
    · cases result
      exact Advances.refl _
    · cases result
  | succ fuel inductionHypothesis =>
    unfold preferDescendants at result
    split at result
    · cases result
      exact Advances.refl _
    · simp only at result
      split at result
      · cases result
      · split at result
        · cases result
        · exact (advances_preferences ts _ _ _).trans (inductionHypothesis result)

/-- Updating the preference decides nothing. -/
theorem updatePreference_advances {preferred : ID} {ts after : Topological F}
    (result : ts.updatePreference preferred = some after) : Advances ts after := by
  unfold updatePreference at result
  split at result
  · cases result
    exact Advances.refl _
  · split at result
    · cases result
    · split at result
      · cases result
      · rename_i ancestors
        exact (advances_preferences ts _ _ _).trans
          ((preferAncestors_advances _ ancestors).trans (preferDescendants_advances _ result))

/-- A poll adds to the decisions at most. -/
theorem recordPoll_advances {orders : PollOrders} {bag : Multiset ID} {ts after : Topological F}
    (result : ts.recordPoll orders bag = some after) : Advances ts after := by
  unfold recordPoll at result
  split at result
  · cases result
  · split at result
    · cases result
    · rename_i voted
      exact (vote_advances voted).trans (updatePreference_advances result)

end Topological

/-- A node of a chain other than its end has a child in it. -/
theorem exists_child_of_isChain {parent : ID → ID} {height : ID → ℕ} {start : ID} {path : List ID}
    (chain : List.IsChain (ChildOf parent height) (start :: path)) {node : ID}
    (member : node ∈ start :: path) (notLast : node ≠ path.getLastD start) :
    ∃ child ∈ path, parent child = node := by
  induction path generalizing start with
  | nil => exact absurd (List.mem_singleton.mp member) notLast
  | cons next rest inductionHypothesis =>
    obtain ⟨childOf, later⟩ := List.isChain_cons_cons.mp chain
    cases List.mem_cons.mp member with
    | inl same => exact ⟨next, List.mem_cons_self, same ▸ childOf.1⟩
    | inr inside =>
      rw [List.getLastD_cons] at notLast
      obtain ⟨child, listed, above⟩ := inductionHypothesis later inside notLast
      exact ⟨child, List.mem_cons_of_mem _ listed, above⟩

/-- A block that left the tree was rejected, or one of its children was accepted. -/
theorem Advances.left {before after : Topological F} (advances : Advances before after)
    (recorded : Recorded l genesis before) (recordedAfter : Recorded l genesis after) {id : ID}
    (stored : id ∈ before.blocks) (gone : id ∉ after.blocks) :
    id ∈ (after.rejected.drop before.rejected.length).map Block.id ∨
      id ∈ (after.accepted.drop before.accepted.length).map Block.parent := by
  obtain ⟨accepted, acceptedAfter⟩ := advances.accepted
  obtain ⟨rejected, rejectedAfter⟩ := advances.rejected
  rw [← acceptedAfter, ← rejectedAfter, List.drop_left, List.drop_left]
  have notLast : id ≠ after.lastAcceptedID := by
    rintro rfl
    exact gone recordedAfter.grounded.root_mem
  have last : (ids accepted).getLastD before.lastAcceptedID = after.lastAcceptedID := by
    rw [← recordedAfter.last, ← acceptedAfter, ids_append, getLastD_append, recorded.last]
  have chain : List.IsChain (ChildOf l.parent l.height)
      (before.lastAcceptedID :: ids accepted) := by
    have whole := recordedAfter.chain
    rw [← acceptedAfter, ids_append, isChain_cons_append, recorded.last] at whole
    exact whole.2
  have onChain : id ∈ before.lastAcceptedID :: ids accepted →
      id ∈ accepted.map Block.parent := by
    intro member
    obtain ⟨child, listed, above⟩ := exists_child_of_isChain chain member (by rwa [last])
    obtain ⟨blk, inside, rfl⟩ := List.mem_map.mp listed
    have named := recordedAfter.named blk (by rw [← acceptedAfter]; simp [inside])
    exact List.mem_map.mpr ⟨blk, inside, (congrArg Block.parent named).trans above⟩
  by_cases atRoot : id = before.lastAcceptedID
  · exact Or.inr (onChain (atRoot ▸ List.mem_cons_self))
  · obtain ⟨issued, notAccepted, notRejected⟩ := (recorded.processing id).mp ⟨stored, atRoot⟩
    by_cases nowRejected : id ∈ ids after.rejected
    · rw [← rejectedAfter, ids_append, List.mem_append] at nowRejected
      exact Or.inl (nowRejected.resolve_left notRejected)
    · have nowAccepted : id ∈ ids after.accepted := by
        by_contra undecided
        rw [← advances.issued] at issued
        exact gone ((recordedAfter.processing id).mpr ⟨issued, undecided, nowRejected⟩).1
      rw [← acceptedAfter, ids_append, List.mem_append] at nowAccepted
      exact Or.inr (onChain (List.mem_cons_of_mem _ (nowAccepted.resolve_left notAccepted)))

end AvalancheParallel.Snowman
