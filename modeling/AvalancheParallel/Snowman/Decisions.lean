import AvalancheParallel.Snowman.BlockTree

/-!
# Decisions of a poll

The laws of the operations that `vote` performs on one block. Rejection of the siblings of
an accepted block removes exactly the blocks that are not above it and calls `Reject` once
on each of them. Recording a poll changes the snowball instance of one block, and accepts
the preferred child if that block is the last accepted one and its instance is finalized.
Marking blocks for a reset changes neither the tree nor what is preferred in it.
-/

namespace AvalancheParallel.Snowman

open AvalancheParallel.Ids AvalancheParallel.RangeLoop AvalancheParallel.Snowball
open AvalancheParallel.ParentTree

variable {F : Factory} {l : Lineage} {root : ID}

/-- The children of a node in the order in which they are visited. -/
theorem Grounded.values_children {blocks : GoMap ID (SnowmanBlock F)}
    (grounded : Grounded l root blocks) (order : IterationOrder ID) {id : ID}
    {n : SnowmanBlock F} (found : blocks.lookup id = some n) {part : GoMap ID Block}
    (inside : ∀ child blk, part.lookup child = some blk → n.children.lookup child = some blk) :
    order.values part = (order.arrange part.keys).map l.block := by
  unfold IterationOrder.values
  rw [← List.filterMap_eq_map]
  apply List.filterMap_congr
  intro child member
  rw [order.mem_arrange, Finmap.mem_keys, Finmap.mem_iff] at member
  obtain ⟨blk, listed⟩ := member
  have named := ((grounded.children id n found child blk).mp (inside child blk listed)).1
  rw [listed, named]
  rfl

/-- What working off a stack of `rejectTransitively` leaves of the tree, and the blocks that it
rejects: those that are not above the accepted one, those on the stack apart. -/
structure Swept (l : Lineage) (root accepted : ID) (blocks : GoMap ID (SnowmanBlock F))
    (stack : List ID) (current left : GoMap ID (SnowmanBlock F)) (ids : List ID) : Prop where
  kept : KeptAbove l accepted blocks (left.erase root)
  nodup : ids.Nodup
  mem_ids : ∀ id, id ∈ ids ↔ id ∈ current ∧ id ∉ stack ∧ id ≠ root ∧
    ¬ Below l.parent l.height accepted id

namespace Sweeping

variable {accepted : ID} {blocks current : GoMap ID (SnowmanBlock F)}

/-- Nothing is left to reject when the stack is empty. -/
theorem swept (sweeping : Sweeping l root accepted blocks [] current)
    (grounded : Grounded l root blocks) (level : l.height accepted = l.height root + 1) :
    Swept l root accepted blocks [] current current [] := by
  have kept := sweeping.finished grounded level
  refine ⟨kept, List.nodup_nil, ?_⟩
  intro id
  refine iff_of_false List.not_mem_nil ?_
  rintro ⟨inside, _, different, outside⟩
  have left : id ∈ current.erase root := Finmap.mem_erase.mpr ⟨different, inside⟩
  exact outside ((kept.mem_iff id).mp left).2

/-- The children of the first block of the stack are rejected before the rest is worked off. -/
theorem swept_cons {first : ID} {rest new ids : List ID} {left : GoMap ID (SnowmanBlock F)}
    (sweeping : Sweeping l root accepted blocks (first :: rest) current)
    (grounded : Grounded l root blocks) (level : l.height accepted = l.height root + 1)
    (children : ∀ child, child ∈ new ↔ child ∈ blocks ∧ child ≠ root ∧ l.parent child = first)
    (distinct : new.Nodup)
    (swept : Swept l root accepted blocks (new.reverse ++ rest) (current.erase first) left ids) :
    Swept l root accepted blocks (first :: rest) current left (new ++ ids) := by
  refine ⟨swept.kept, ?_, ?_⟩
  · refine List.Nodup.append distinct swept.nodup ?_
    intro child early later
    exact ((swept.mem_ids child).mp later).2.1
      (List.mem_append_left _ (List.mem_reverse.mpr early))
  · intro id
    rw [List.mem_append, swept.mem_ids, List.mem_append, List.mem_reverse, Finmap.mem_erase]
    constructor
    · rintro (early | ⟨⟨apart, inside⟩, waiting, others⟩)
      · obtain ⟨old, different, above⟩ := (children id).mp early
        obtain ⟨inside, waiting, _, outside⟩ :=
          sweeping.children grounded level old different above
        exact ⟨inside, waiting, different, outside⟩
      · refine ⟨inside, ?_, others⟩
        rw [List.mem_cons]
        exact fun either => either.elim apart (fun later => waiting (Or.inr later))
    · rintro ⟨inside, waiting, others⟩
      rw [List.mem_cons, not_or] at waiting
      by_cases early : id ∈ new
      · exact Or.inl early
      · exact Or.inr ⟨⟨waiting.1, inside⟩, fun either => either.elim early waiting.2, others⟩

end Sweeping

/-- `rejectTransitively` ends, and rejects the blocks that are not above the accepted one,
those on the stack apart. -/
theorem rejectTransitively_law (order : IterationOrder ID) {blocks : GoMap ID (SnowmanBlock F)}
    (grounded : Grounded l root blocks) {accepted : ID}
    (level : l.height accepted = l.height root + 1) {fuel : ℕ} {stack : List ID}
    (ts : Topological F) (sweeping : Sweeping l root accepted blocks stack ts.blocks)
    (enough : ts.blocks.keys.card ≤ fuel) :
    ∃ (left : GoMap ID (SnowmanBlock F)) (ids : List ID),
      Topological.rejectTransitively order fuel stack ts =
        some { ts with blocks := left, rejected := ts.rejected ++ ids.map l.block } ∧
      Swept l root accepted blocks stack ts.blocks left ids := by
  -- Every iteration with a block on the stack removes that block, so the fuel is not used up.
  induction fuel generalizing stack ts with
  | zero =>
    cases stack with
    | nil =>
      exact ⟨ts.blocks, [], by simp [Topological.rejectTransitively],
        sweeping.swept grounded level⟩
    | cons first rest =>
      have stored := Finmap.mem_keys.mpr ((sweeping.mem_stack first).mp List.mem_cons_self).1
      have counted := Finset.card_pos.mpr ⟨first, stored⟩
      omega
  | succ fuel inductionHypothesis =>
    cases stack with
    | nil =>
      exact ⟨ts.blocks, [], by simp [Topological.rejectTransitively],
        sweeping.swept grounded level⟩
    | cons first rest =>
      have stored := ((sweeping.mem_stack first).mp List.mem_cons_self).1
      obtain ⟨n, found⟩ := Finmap.mem_iff.mp stored
      have original := sweeping.lookup first n found
      have children : ∀ child, child ∈ order.arrange n.children.keys ↔
          child ∈ blocks ∧ child ≠ root ∧ l.parent child = first := by
        intro child
        rw [order.mem_arrange, Finmap.mem_keys, grounded.mem_children original]
      have distinct := order.nodup n.children.keys
      have next := sweeping.step grounded level
        (fun child => List.mem_reverse.trans (children child)) (List.nodup_reverse.mpr distinct)
      have fewer : (ts.blocks.erase first).keys.card ≤ fuel := by
        rw [Finmap.keys_erase, Finset.card_erase_of_mem (Finmap.mem_keys.mpr stored)]
        omega
      obtain ⟨left, ids, result, swept⟩ := inductionHypothesis
        { ts with
          blocks := ts.blocks.erase first
          rejected := ts.rejected ++ order.values n.children } next fewer
      refine ⟨left, order.arrange n.children.keys ++ ids, ?_,
        sweeping.swept_cons grounded level children distinct swept⟩
      simp only [Topological.rejectTransitively, found]
      rw [result, grounded.values_children order original (fun _ _ listed => listed),
        List.map_append, List.append_assoc]

namespace Topological

/-- The state in which a block was accepted and the given blocks were rejected. -/
def accepting (l : Lineage) (accepted : ID) (rejected : List ID)
    (blocks : GoMap ID (SnowmanBlock F)) (ts : Topological F) : Topological F :=
  { ts with
    lastAcceptedID := accepted
    lastAcceptedHeight := l.height accepted
    blocks := blocks
    preferredIDs := ts.preferredIDs.erase accepted
    preferredHeights := ts.preferredHeights.erase (l.height accepted)
    accepted := ts.accepted ++ [l.block accepted]
    rejected := ts.rejected ++ rejected.map l.block }

/-- The rejected blocks are those other than the root that are not above the accepted one. -/
structure Decides (l : Lineage) (root accepted : ID) (rejected : List ID)
    (before after : GoMap ID (SnowmanBlock F)) : Prop where
  kept : KeptAbove l accepted before after
  nodup : rejected.Nodup
  mem_rejected : ∀ id, id ∈ rejected ↔
    id ∈ before ∧ id ≠ root ∧ ¬ Below l.parent l.height accepted id

/-- The stack with which `rejectTransitively` is called. -/
theorem sweeping_siblings (order : IterationOrder ID) {blocks : GoMap ID (SnowmanBlock F)}
    (grounded : Grounded l root blocks) {n : SnowmanBlock F} (found : blocks.lookup root = some n)
    {accepted : ID} (listed : accepted ∈ n.children) :
    Sweeping l root accepted blocks (order.arrange (n.children.erase accepted).keys).reverse
      blocks := by
  obtain ⟨stored, different, above⟩ := (grounded.mem_children found accepted).mp listed
  have level := grounded.height_eq stored different
  rw [above] at level
  constructor
  case lookup => exact fun _ _ looked => looked
  case removed => exact fun _ member gone => absurd member gone
  case nodup => exact List.nodup_reverse.mpr (order.nodup _)
  case mem_stack =>
    intro id
    rw [List.mem_reverse, order.mem_arrange, Finmap.mem_keys, Finmap.mem_erase,
      grounded.mem_children found]
    constructor
    · rintro ⟨apart, member, other, under⟩
      have idLevel := grounded.height_eq member other
      rw [under] at idLevel
      exact ⟨member, other, fun below => apart ((below_iff_eq (by omega)).mp below), Or.inl under⟩
    · rintro ⟨member, other, outside, up⟩
      refine ⟨fun same => outside (same ▸ Below.refl id), member, other, ?_⟩
      exact up.resolve_right (not_not_intro (grounded.parent_mem member other))

/-- The siblings of the accepted block and the blocks swept after them are all the blocks that are
not above it. -/
theorem Swept.decides {accepted : ID} {blocks left : GoMap ID (SnowmanBlock F)} {new ids : List ID}
    (sweeping : Sweeping l root accepted blocks new.reverse blocks) (distinct : new.Nodup)
    (swept : Swept l root accepted blocks new.reverse blocks left ids) :
    Decides l root accepted (new ++ ids) blocks (left.erase root) := by
  refine ⟨swept.kept, ?_, ?_⟩
  · refine List.Nodup.append distinct swept.nodup ?_
    intro id first later
    exact ((swept.mem_ids id).mp later).2.1 (List.mem_reverse.mpr first)
  · intro id
    rw [List.mem_append, swept.mem_ids, ← List.mem_reverse, sweeping.mem_stack id]
    constructor
    · rintro (⟨member, other, outside, _⟩ | ⟨member, _, rest⟩)
      · exact ⟨member, other, outside⟩
      · exact ⟨member, rest⟩
    · rintro ⟨member, other, outside⟩
      by_cases up : l.parent id = root ∨ l.parent id ∉ blocks
      · exact Or.inl ⟨member, other, outside, up⟩
      · exact Or.inr ⟨member, fun waiting => up waiting.2.2.2, other, outside⟩

/-- `acceptPreferredChild` accepts the preferred child of the root, once, and rejects the blocks
that are not above it. The root is still to be removed. -/
theorem acceptPreferredChild_law (order : IterationOrder ID) (ts : Topological F)
    (grounded : Grounded l root ts.blocks) {n : SnowmanBlock F}
    (found : ts.blocks.lookup root = some n) {sb : Tree F} (stored : n.sb = some sb) :
    ∃ (left : GoMap ID (SnowmanBlock F)) (rejected : List ID),
      ts.acceptPreferredChild order n sb = some (ts.accepting l sb.preference rejected left) ∧
      Decides l root sb.preference rejected ts.blocks (left.erase root) := by
  have listed := (grounded.chooses root n sb found stored).preference
  obtain ⟨child, present⟩ := Finmap.mem_iff.mp listed
  obtain ⟨rfl, inside, different, above⟩ := (grounded.children root n found _ _).mp present
  have level := grounded.height_eq inside different
  rw [above] at level
  have siblings : ∀ id blk, (n.children.erase sb.preference).lookup id = some blk →
      n.children.lookup id = some blk := fun _ _ looked => (lookup_erase_some looked).2
  have sweeping := sweeping_siblings order grounded found listed
  obtain ⟨left, ids, result, swept⟩ :=
    rejectTransitively_law order grounded level
      { ts with
        lastAcceptedID := sb.preference
        lastAcceptedHeight := l.height sb.preference
        preferredIDs := ts.preferredIDs.erase sb.preference
        preferredHeights := ts.preferredHeights.erase (l.height sb.preference)
        accepted := ts.accepted ++ [l.block sb.preference]
        rejected := ts.rejected ++ order.values (n.children.erase sb.preference) }
      sweeping (Nat.le_refl _)
  refine ⟨left, order.arrange (n.children.erase sb.preference).keys ++ ids, ?_,
    Swept.decides sweeping (order.nodup _) swept⟩
  unfold acceptPreferredChild
  simp only [present]
  refine result.trans ?_
  rw [grounded.values_children order found siblings]
  simp only [Topological.accepting, List.map_append, List.append_assoc]

/-- The state after a node was written. -/
def setNode (id : ID) (n : SnowmanBlock F) (ts : Topological F) : Topological F :=
  { ts with blocks := ts.blocks.insert id n }

/-- The snowball instance of a block after a poll. -/
theorem recordPoll_chooses {n : SnowmanBlock F} {sb : Tree F}
    (chooses : sb.Chooses (fun child => child ∈ n.children)) (votes : Multiset ID) :
    ((if n.shouldFalter = true then sb.recordUnsuccessfulPoll else sb).recordPoll votes).1.Chooses
      (fun child => child ∈ n.children) := by
  split
  · exact chooses.recordUnsuccessfulPoll.recordPoll votes
  · exact chooses.recordPoll votes

/-- Recording votes on a block changes its snowball instance; if the block is the root, its
preferred child may be accepted. -/
theorem recordVotes_law (order : IterationOrder ID) (vote : Votes) {ts : Topological F}
    (grounded : Grounded l ts.lastAcceptedID ts.blocks) {n : SnowmanBlock F}
    (found : ts.blocks.lookup vote.parentID = some n) {sb : Tree F} (stored : n.sb = some sb) :
    ∃ polled : Tree F,
      Grounded l ts.lastAcceptedID
        (ts.blocks.insert vote.parentID { n with shouldFalter := false, sb := some polled }) ∧
      (ts.recordVotes order vote n sb = some (polled,
          ts.setNode vote.parentID { n with shouldFalter := false, sb := some polled }) ∨
        vote.parentID = ts.lastAcceptedID ∧
        ∃ (after : GoMap ID (SnowmanBlock F)) (rejected : List ID),
          ts.recordVotes order vote n sb =
            some (polled, ts.accepting l polled.preference rejected after) ∧
          Decides l ts.lastAcceptedID polled.preference rejected
            (ts.blocks.insert vote.parentID { n with shouldFalter := false, sb := some polled })
            after) := by
  have chooses := recordPoll_chooses (grounded.chooses _ n sb found stored) vote.votes
  unfold recordVotes
  dsimp only
  generalize ((if n.shouldFalter = true then sb.recordUnsuccessfulPoll else sb).recordPoll
    vote.votes).1 = polled at chooses
  have updated : Grounded l ts.lastAcceptedID
      (ts.blocks.insert vote.parentID { n with shouldFalter := false, sb := some polled }) := by
    refine grounded.update found rfl rfl (fun missing => nomatch missing) ?_
    rintro _ ⟨rfl⟩
    exact chooses
  refine ⟨polled, updated, ?_⟩
  split
  · rename_i finalized
    have atRoot := finalized.2
    obtain ⟨left, rejected, result, decides⟩ := acceptPreferredChild_law order
      (ts.setNode vote.parentID { n with shouldFalter := false, sb := some polled })
      updated (by rw [atRoot]; exact Finmap.lookup_insert _) rfl
    refine Or.inr ⟨atRoot.symm, left.erase ts.lastAcceptedID, rejected, ?_, decides⟩
    unfold setNode at result
    rw [result, ← atRoot]
    rfl
  · exact Or.inl rfl

/-- The second map is a tree of the same blocks with the same preferred children. -/
structure Alike (l : Lineage) (root : ID) (before after : GoMap ID (SnowmanBlock F)) : Prop where
  grounded : Grounded l root after
  mem_iff : ∀ id, id ∈ after ↔ id ∈ before
  choice_eq : ∀ id, choice after id = choice before id

/-- Deferring a reset marks one block. -/
theorem deferReset_law (id : ID) {ts : Topological F} (grounded : Grounded l root ts.blocks) :
    ∃ after : GoMap ID (SnowmanBlock F),
      ts.deferReset id = { ts with blocks := after } ∧ Alike l root ts.blocks after := by
  unfold deferReset
  cases found : ts.blocks.lookup id with
  | none => exact ⟨ts.blocks, rfl, grounded, fun _ => Iff.rfl, fun _ => rfl⟩
  | some n =>
    refine ⟨ts.blocks.insert id { n with shouldFalter := true }, rfl, ?_, ?_, ?_⟩
    · exact grounded.update found rfl rfl (grounded.childless id n found)
        (fun sb => grounded.chooses id n sb found)
    · exact mem_insert_of_mem (Finmap.mem_of_lookup_eq_some found) _
    · intro other
      rw [choice_insert]
      split
      · rename_i same
        rw [same, choice, found, Option.bind_some]
      · rfl

/-- Deferring several resets marks the blocks and changes nothing else. -/
theorem foldl_deferReset_law (ids : List ID) {ts : Topological F}
    (grounded : Grounded l root ts.blocks) :
    ∃ after : GoMap ID (SnowmanBlock F),
      ids.foldl deferReset ts = { ts with blocks := after } ∧ Alike l root ts.blocks after := by
  induction ids generalizing ts with
  | nil => exact ⟨ts.blocks, rfl, grounded, fun _ => Iff.rfl, fun _ => rfl⟩
  | cons id rest inductionHypothesis =>
    obtain ⟨first, result, alike⟩ := deferReset_law id grounded
    have tree : Grounded l root (ts.deferReset id).blocks := by
      rw [result]
      exact alike.grounded
    obtain ⟨after, ended, more⟩ := inductionHypothesis tree
    refine ⟨after, ?_, more.grounded, ?_, ?_⟩
    · rw [List.foldl_cons, ended, result]
    · intro other
      rw [more.mem_iff, result]
      exact alike.mem_iff other
    · intro other
      rw [more.choice_eq, result]
      exact alike.choice_eq other

end Topological

end AvalancheParallel.Snowman
