import AvalancheParallel.Snowman.Consensus
import Mathlib.Algebra.BigOperators.Group.Finset.Piecewise
import Mathlib.Data.Multiset.Count

/-!
# Counting votes

The votes that `calculateInDegree` and `pushVotes` arrive at, compared with counting them one by
one. A vote for a block in the tree supports the block and its ancestors up to the last
accepted block; a vote for another block supports nothing.

At first each vote is at the parent of its block. Popping a leaf moves its votes to its parent,
so the votes at the waiting nodes above a waiting block stay those for its descendants, and what
is recorded for a child together with what is still above it stays what supports the child. When
a leaf is popped nothing is waiting above it.
-/

namespace AvalancheParallel.Snowman

open AvalancheParallel.Ids AvalancheParallel.RangeLoop AvalancheParallel.Snowball
open AvalancheParallel.ParentTree AvalancheParallel.Runs

variable {F : Factory} {l : Lineage}

instance (id other : ID) : Decidable (Below l.parent l.height id other) :=
  inferInstanceAs (Decidable (_ ∧ _))

/-- The votes for a block and its processing descendants. -/
def Topological.support (ts : Topological F) (l : Lineage) (bag : Multiset ID) (id : ID) : ℕ :=
  bag.countP (fun vote => ts.processing vote = true ∧ Below l.parent l.height id vote)

/-- The votes for the processing proper descendants of a block. -/
def Topological.descendantVotes (ts : Topological F) (l : Lineage) (bag : Multiset ID) (id : ID) :
    ℕ :=
  bag.countP (fun vote => ts.processing vote = true ∧ vote ≠ id ∧ Below l.parent l.height id vote)

/-- The votes that a block is to record for another: those that support a child of it. -/
def Topological.share (ts : Topological F) (l : Lineage) (bag : Multiset ID) (id child : ID) : ℕ :=
  if ts.processing child = true ∧ l.parent child = id then ts.support l bag child else 0

/-- The stack that is obtained by counting the votes one by one. -/
structure CountedNaively (l : Lineage) (ts : Topological F) (bag : Multiset ID)
    (stack : List Votes) : Prop where
  blocks : ∀ id, id ∈ stack.map Votes.parentID ↔
    id ∈ ts.blocks ∧ ts.params.alphaPreference ≤ (ts.descendantVotes l bag id : ℤ)
  votes : ∀ entry ∈ stack, ∀ child,
    entry.votes.count child = ts.share l bag entry.parentID child
  first : ∀ top rest, stack = top :: rest → top.parentID = ts.lastAcceptedID
  chain : List.IsChain (ChildOf l.parent l.height) (stack.map Votes.parentID)

/-- A block is processing when it is stored and not the last accepted one. -/
theorem processing_iff {ts : Topological F} (id : ID) :
    ts.processing id = true ↔ id ∈ ts.blocks ∧ id ≠ ts.lastAcceptedID := by
  unfold Topological.processing
  split
  · rename_i same
    simp [same]
  · rename_i other
    simp [other]

/-- The votes after a node was written. -/
theorem Kahn.votes_write (k : Kahn) (id other : ID) (degree : ℤ) (added : Multiset ID)
    (leaves : Finset ID) :
    ((k.write id ⟨degree, (k.node id).votes + added⟩ leaves).node other).votes =
      (k.node other).votes + if other = id then added else 0 := by
  rw [Kahn.node_write]
  split
  · rename_i same
    rw [same]
  · rw [add_zero]

/-- The walk to the ancestors moves no votes. -/
theorem markAncestors_votes {ts : Topological F} {fuel : ℕ} {id : ID} {k after : Kahn}
    (marked : ts.markAncestors fuel id k = some after) (other : ID) :
    (after.node other).votes = (k.node other).votes := by
  induction fuel generalizing id k with
  | zero =>
    unfold Topological.markAncestors at marked
    split at marked
    · cases marked
    · split at marked
      · rw [Option.some.inj marked]
      · cases marked
  | succ fuel inductionHypothesis =>
    unfold Topological.markAncestors at marked
    split at marked
    · cases marked
    · split at marked
      · rw [Option.some.inj marked]
      · rename_i blk _
        have same : ∀ leaves, ((k.write blk.parent
            ⟨(k.node blk.parent).inDegree + 1, (k.node blk.parent).votes⟩ leaves).node
              other).votes = (k.node other).votes := by
          intro leaves
          have written := k.votes_write blk.parent other ((k.node blk.parent).inDegree + 1) 0 leaves
          simpa using written
        dsimp only at marked
        split at marked
        · rw [← Option.some.inj marked]
          exact same _
        · exact (inductionHypothesis marked).trans (same _)

/-- The elements of a bag among some values, one value at a time. -/
theorem filter_cons (bag : Multiset ID) (p : ID → Prop) [DecidablePred p] {first : ID}
    {rest : List ID} (new : first ∉ rest) :
    bag.filter (fun vote => vote ∈ first :: rest ∧ p vote) =
      (if p first then Multiset.replicate (bag.count first) first else 0) +
        bag.filter (fun vote => vote ∈ rest ∧ p vote) := by
  ext value
  rw [Multiset.count_add, Multiset.count_filter, Multiset.count_filter]
  by_cases same : value = first
  · subst same
    by_cases holds : p value <;> simp [holds, new]
  · by_cases holds : p first <;> simp [same, holds, Multiset.count_replicate, Ne.symm same]

section Counting

variable {ts : Topological F} (grounded : Grounded l ts.lastAcceptedID ts.blocks)
  (height : ts.lastAcceptedHeight = l.height ts.lastAcceptedID)
include grounded height

/-- A vote for a processing block is added at its parent. -/
theorem countVote_votes {bag : Multiset ID} {vote : ID} {k after : Kahn}
    (counted : ts.countVote bag k vote = some after) (id : ID) :
    (after.node id).votes = (k.node id).votes +
      if ts.processing vote = true ∧ l.parent vote = id then
        Multiset.replicate (bag.count vote) vote else 0 := by
  unfold Topological.countVote at counted
  rw [height] at counted
  cases found : ts.blocks.lookup vote with
  | none =>
    rw [found] at counted
    have missing : vote ∉ ts.blocks := Finmap.lookup_eq_none.mp found
    rw [if_neg (by rw [processing_iff]; tauto), add_zero, Option.some.inj counted]
  | some n =>
    have stored := Finmap.mem_of_lookup_eq_some found
    rw [found] at counted
    dsimp only at counted
    by_cases atRoot : vote = ts.lastAcceptedID
    · subst atRoot
      rw [grounded.pending_root found] at counted
      rw [if_neg (by rw [processing_iff]; tauto), add_zero, Option.some.inj counted]
    · rw [grounded.pending_other found atRoot] at counted
      dsimp only [Lineage.block] at counted
      have processing : ts.processing vote = true := (processing_iff vote).mpr ⟨stored, atRoot⟩
      have written := fun leaves => k.votes_write (l.parent vote) id
        (k.node (l.parent vote)).inDegree (Multiset.replicate (bag.count vote) vote) leaves
      simp only [processing, true_and, eq_comm]
      split at counted
      · rw [← Option.some.inj counted]
        exact written _
      · exact (markAncestors_votes counted id).trans (written _)

/-- `calculateInDegree` leaves each vote for a processing block at its parent. -/
theorem calculateInDegree_votes {order : IterationOrder ID} {bag : Multiset ID} {k : Kahn}
    (result : ts.calculateInDegree order bag = some k) (id : ID) :
    (k.node id).votes =
      bag.filter (fun vote => ts.processing vote = true ∧ l.parent vote = id) := by
  have counts : ∀ (votes : List ID) (before after : Kahn), votes.Nodup →
      votes.foldlM (ts.countVote bag) before = some after →
      (after.node id).votes = (before.node id).votes + bag.filter (fun vote =>
        vote ∈ votes ∧ ts.processing vote = true ∧ l.parent vote = id) := by
    intro votes
    induction votes with
    | nil =>
      intro before after _ folded
      rw [Option.some.inj folded]
      simp
    | cons vote rest inductionHypothesis =>
      intro before after distinct folded
      obtain ⟨new, distinct⟩ := List.nodup_cons.mp distinct
      rw [List.foldlM_cons] at folded
      obtain ⟨middle, counted, later⟩ := Option.bind_eq_some_iff.mp folded
      rw [inductionHypothesis middle after distinct later,
        countVote_votes grounded height counted, filter_cons bag
          (fun vote => ts.processing vote = true ∧ l.parent vote = id) new, add_assoc]
  rw [counts _ _ _ (order.nodup _) result]
  have unwritten : ((⟨∅, ∅⟩ : Kahn).node id).votes = 0 := by
    rw [Kahn.node_of_notMem Finmap.notMem_empty]
  rw [unwritten, zero_add]
  refine Multiset.filter_congr ?_
  intro vote member
  simp [member]

end Counting

/-- The elements of a bag, counted by their images. -/
theorem sum_card_filter {K : Type*} [DecidableEq K] (bag : Multiset K) (p : K → Prop)
    [DecidablePred p] (image : K → K) (ids : Finset K) :
    ∑ id ∈ ids, (bag.filter (fun vote => p vote ∧ image vote = id)).card =
      bag.countP (fun vote => p vote ∧ image vote ∈ ids) := by
  induction bag using Multiset.induction_on with
  | empty => simp
  | cons vote rest inductionHypothesis =>
    simp only [← Multiset.countP_eq_card_filter] at inductionHypothesis ⊢
    simp only [Multiset.countP_cons, Finset.sum_add_distrib, inductionHypothesis]
    by_cases holds : p vote <;> simp [holds]

/-- Votes for a block support it, and so do those for its descendants. -/
theorem Topological.support_eq {ts : Topological F} {bag : Multiset ID} {id : ID}
    (processing : ts.processing id = true) :
    ts.support l bag id = bag.count id + ts.descendantVotes l bag id := by
  unfold Topological.support Topological.descendantVotes
  induction bag using Multiset.induction_on with
  | empty => simp
  | cons vote rest inductionHypothesis =>
    rw [Multiset.countP_cons, Multiset.countP_cons, Multiset.count_cons, inductionHypothesis]
    by_cases same : vote = id
    · subst same
      simp [processing, Below.refl]
      omega
    · simp [same, Ne.symm same]
      omega

/-- Where the votes are: those for descendants of a waiting block are at the waiting nodes above
it, and those that support a child are recorded for it or above it. -/
structure Tally (l : Lineage) (ts : Topological F) (bag : Multiset ID) (waiting : Finset ID)
    (k : Kahn) : Prop where
  carried : ∀ id ∈ waiting,
    k.weight (waiting.filter (Below l.parent l.height id)) = ts.descendantVotes l bag id
  shared : ∀ child, ts.processing child = true →
    (k.node (l.parent child)).votes.count child +
      k.weight (waiting.filter (Below l.parent l.height child)) = ts.support l bag child

section Tallies

variable {ts : Topological F} {bag : Multiset ID} {k : Kahn}
  (grounded : Grounded l ts.lastAcceptedID ts.blocks)
include grounded

/-- The votes above a block, at the parents of the blocks voted for. -/
theorem weight_above (votes : ∀ id, (k.node id).votes =
      bag.filter (fun vote => ts.processing vote = true ∧ l.parent vote = id)) (id : ID) :
    k.weight (k.nodes.keys.filter (Below l.parent l.height id)) =
      ts.descendantVotes l bag id := by
  unfold Kahn.weight Topological.descendantVotes
  simp only [votes]
  rw [sum_card_filter]
  refine Multiset.countP_congr rfl ?_
  intro vote member
  refine propext (and_congr_right ?_)
  intro processing
  obtain ⟨stored, other⟩ := (processing_iff vote).mp processing
  rw [ne_and_below_iff (grounded.height_eq stored other), Finset.mem_filter]
  refine and_iff_right ?_
  rw [Finmap.mem_keys]
  by_contra missing
  have recorded := votes (l.parent vote)
  rw [Kahn.node_of_notMem missing] at recorded
  have listed : vote ∈ bag.filter (fun other => ts.processing other = true ∧
      l.parent other = l.parent vote) := Multiset.mem_filter.mpr ⟨member, processing, rfl⟩
  rw [← recorded] at listed
  exact Multiset.notMem_zero vote listed

/-- Before a leaf is popped each vote is at the parent of its block. -/
theorem tally_start (votes : ∀ id, (k.node id).votes =
      bag.filter (fun vote => ts.processing vote = true ∧ l.parent vote = id)) :
    Tally l ts bag k.nodes.keys k where
  carried id _ := weight_above grounded votes id
  shared child processing := by
    rw [weight_above grounded votes, Topological.support_eq processing, votes,
      Multiset.count_filter, if_pos ⟨processing, rfl⟩]

end Tallies

/-- Votes added to a node add to the weight of the sets it is in. -/
theorem Kahn.weight_add (k : Kahn) (id : ID) (degree : ℤ) (added : Multiset ID)
    (leaves ids : Finset ID) :
    (k.write id ⟨degree, (k.node id).votes + added⟩ leaves).weight ids =
      k.weight ids + if id ∈ ids then added.card else 0 := by
  unfold Kahn.weight
  simp only [Kahn.votes_write, Multiset.card_add, Finset.sum_add_distrib,
    apply_ite Multiset.card, Multiset.card_zero, Finset.sum_ite_eq']

/-- The weight without a node. -/
theorem Kahn.weight_erase (k : Kahn) (ids : Finset ID) (id : ID) :
    k.weight (ids.erase id) + (if id ∈ ids then (k.node id).votes.card else 0) = k.weight ids := by
  unfold Kahn.weight
  split
  · rename_i member
    exact Finset.sum_erase_add ids _ member
  · rename_i missing
    rw [Finset.erase_eq_of_notMem missing, Nat.add_zero]

section Popping

variable {ts : Topological F} {bag : Multiset ID} {waiting : Finset ID} {k : Kahn} {leaf : ID}

/-- The votes of a popped leaf leave the sets that hold the leaf, and are in those that hold its
parent. -/
theorem Kahn.weight_pop (k : Kahn) (member : leaf ∈ waiting) {parent : ID}
    (parentWaits : parent ∈ waiting) (apart : parent ≠ leaf) (degree : ℤ) (leaves : Finset ID)
    (p : ID → Prop) [DecidablePred p] :
    (k.write parent ⟨degree, (k.node parent).votes +
        Multiset.replicate (k.node leaf).votes.card leaf⟩ leaves).weight
          ((waiting.erase leaf).filter p) + (if p leaf then (k.node leaf).votes.card else 0) =
      k.weight (waiting.filter p) + if p parent then (k.node leaf).votes.card else 0 := by
  have removed := k.weight_erase (waiting.filter p) leaf
  rw [Kahn.weight_add, Finset.filter_erase, Multiset.card_replicate]
  simp only [Finset.mem_erase, Finset.mem_filter, member, parentWaits, apart, ne_eq,
    not_false_eq_true, true_and] at removed ⊢
  omega

/-- Popping a leaf keeps the votes in the right places. -/
theorem Tally.pop (tally : Tally l ts bag waiting k)
    (grounded : Grounded l ts.lastAcceptedID ts.blocks)
    (counting : Counting l ts.lastAcceptedID ts.blocks waiting (waiting.erase ts.lastAcceptedID) k)
    (member : leaf ∈ waiting) (other : leaf ≠ ts.lastAcceptedID)
    (parentWaits : l.parent leaf ∈ waiting) (apart : l.parent leaf ≠ leaf) (degree : ℤ)
    (leaves : Finset ID) :
    Tally l ts bag (waiting.erase leaf)
      (k.write (l.parent leaf) ⟨degree, (k.node (l.parent leaf)).votes +
        Multiset.replicate (k.node leaf).votes.card leaf⟩ leaves) := by
  have level := grounded.height_eq (counting.inside leaf member) other
  have moved := fun id => k.weight_pop member parentWaits apart degree leaves
    (Below l.parent l.height id)
  have passed : ∀ id, id ≠ leaf →
      (Below l.parent l.height id leaf ↔ Below l.parent l.height id (l.parent leaf)) := by
    intro id different
    rw [← ne_and_below_iff level]
    exact (and_iff_right (Ne.symm different)).symm
  constructor
  case carried =>
    intro id listed
    obtain ⟨different, waits⟩ := Finset.mem_erase.mp listed
    have weight := moved id
    simp only [passed id different] at weight
    rw [← tally.carried id waits]
    exact Nat.add_right_cancel weight
  case shared =>
    intro child processing
    have weight := moved child
    rw [← tally.shared child processing, Kahn.votes_write, Multiset.count_add]
    by_cases same : child = leaf
    · -- What was above the leaf is now recorded for it.
      subst same
      have higher : ¬Below l.parent l.height child (l.parent child) := by
        intro below
        have bound := below.1
        omega
      rw [if_pos (Below.refl child), if_neg higher] at weight
      rw [if_pos rfl, Multiset.count_replicate_self]
      omega
    · simp only [passed child same] at weight
      have unchanged : (if l.parent child = l.parent leaf then
          Multiset.replicate (k.node leaf).votes.card leaf else 0).count child = 0 := by
        split
        · rw [Multiset.count_replicate, if_neg (Ne.symm same)]
        · exact Multiset.count_zero child
      rw [unchanged]
      omega

/-- Popping the root keeps the votes in the right places. -/
theorem Tally.popRoot (tally : Tally l ts bag {ts.lastAcceptedID} k)
    (grounded : Grounded l ts.lastAcceptedID ts.blocks) :
    Tally l ts bag ∅ ⟨k.nodes, ∅⟩ := by
  constructor
  case carried => exact fun _ impossible => absurd impossible (Finset.notMem_empty _)
  case shared =>
    intro child processing
    obtain ⟨stored, other⟩ := (processing_iff child).mp processing
    have higher := grounded.height_lt stored other
    have nothing : ({ts.lastAcceptedID} : Finset ID).filter (Below l.parent l.height child) = ∅ :=
      by rw [Finset.filter_singleton, if_neg (fun below => Nat.not_le.mpr higher below.1)]
    have shared := tally.shared child processing
    rw [nothing] at shared
    exact shared

end Popping

section Leaves

variable {ts : Topological F} {bag : Multiset ID} {waiting : Finset ID} {k : Kahn} {leaf : ID}
  (grounded : Grounded l ts.lastAcceptedID ts.blocks)
  (counting : Counting l ts.lastAcceptedID ts.blocks waiting (waiting.erase ts.lastAcceptedID) k)
  (isLeaf : leaf ∈ k.leaves)
include grounded counting isLeaf

/-- Only a leaf itself is waiting above it. -/
theorem eq_leaf_of_below {node : ID} (waits : node ∈ waiting)
    (below : Below l.parent l.height leaf node) : node = leaf :=
  have member := ((counting.leaves leaf).mp isLeaf).1
  (counting.rooted grounded ⟨leaf, member⟩).eq_of_below member
    (fun _ inside other => counting.no_children isLeaf inside other) node waits below

/-- The votes of a leaf are those for its descendants. -/
theorem Tally.leaf_card (tally : Tally l ts bag waiting k) :
    (k.node leaf).votes.card = ts.descendantVotes l bag leaf := by
  have member := ((counting.leaves leaf).mp isLeaf).1
  have only : waiting.filter (Below l.parent l.height leaf) = {leaf} := by
    ext node
    rw [Finset.mem_filter, Finset.mem_singleton]
    constructor
    · rintro ⟨waits, below⟩
      exact eq_leaf_of_below grounded counting isLeaf waits below
    · rintro rfl
      exact ⟨member, Below.refl node⟩
  rw [← tally.carried leaf member, only]
  unfold Kahn.weight
  rw [Finset.sum_singleton]

/-- A leaf has recorded what supports its children. -/
theorem Tally.leaf_count (tally : Tally l ts bag waiting k) (child : ID) :
    (k.node leaf).votes.count child = ts.share l bag leaf child := by
  have member := ((counting.leaves leaf).mp isLeaf).1
  unfold Topological.share
  split
  · rename_i isChild
    obtain ⟨processing, rfl⟩ := isChild
    obtain ⟨stored, other⟩ := (processing_iff child).mp processing
    have childOf := grounded.childOf stored other
    have nothing : waiting.filter (Below l.parent l.height child) = ∅ := by
      apply Finset.filter_eq_empty_iff.mpr
      intro node waits below
      have same := eq_leaf_of_below grounded counting isLeaf waits (childOf.below.trans below)
      have bound := below.1
      rw [same] at bound
      have level := childOf.2
      omega
    have shared := tally.shared child processing
    rw [nothing] at shared
    exact shared
  · rename_i notChild
    rw [Multiset.count_eq_zero]
    intro voted
    obtain ⟨stored, other, above⟩ := counting.votes leaf member child voted
    exact notChild ⟨(processing_iff child).mpr ⟨stored, other⟩, above⟩

end Leaves

/-- The stack holds the blocks that are not waiting and have a majority, with the votes for their
children. -/
structure Listed (l : Lineage) (ts : Topological F) (bag : Multiset ID) (waiting : Finset ID)
    (stack : List Votes) : Prop where
  blocks : ∀ id ∈ ts.blocks, id ∉ waiting → (id ∈ stack.map Votes.parentID ↔
    ts.params.alphaPreference ≤ (ts.descendantVotes l bag id : ℤ))
  popped : ∀ entry ∈ stack, entry.parentID ∉ waiting
  votes : ∀ entry ∈ stack, ∀ child,
    entry.votes.count child = ts.share l bag entry.parentID child

section Stacks

variable {ts : Topological F} {bag : Multiset ID} {waiting : Finset ID} {k : Kahn}
  (grounded : Grounded l ts.lastAcceptedID ts.blocks)
  (counting : Counting l ts.lastAcceptedID ts.blocks waiting (waiting.erase ts.lastAcceptedID) k)
include grounded counting

/-- A block that is not a node has no votes for descendants. -/
theorem descendantVotes_eq_zero (votes : ∀ id, (k.node id).votes =
      bag.filter (fun vote => ts.processing vote = true ∧ l.parent vote = id))
    (whole : waiting = k.nodes.keys) {id : ID} (stored : id ∈ ts.blocks) (missing : id ∉ waiting) :
    ts.descendantVotes l bag id = 0 := by
  have nothing : waiting.filter (Below l.parent l.height id) = ∅ := by
    apply Finset.filter_eq_empty_iff.mpr
    intro node waits below
    exact missing ((counting.rooted grounded ⟨node, waits⟩).mem_of_below
      (grounded.height_le stored) node waits below)
  rw [← weight_above grounded votes id, ← whole, nothing]
  exact Finset.sum_empty

/-- Before a leaf is popped the stack is empty. -/
theorem listed_start (votes : ∀ id, (k.node id).votes =
      bag.filter (fun vote => ts.processing vote = true ∧ l.parent vote = id))
    (whole : waiting = k.nodes.keys) (positive : 0 < ts.params.alphaPreference) :
    Listed l ts bag waiting [] := by
  constructor
  case blocks =>
    intro id stored missing
    rw [descendantVotes_eq_zero grounded counting votes whole stored missing]
    refine iff_of_false List.not_mem_nil ?_
    intro enough
    have noVotes : ts.params.alphaPreference ≤ 0 := enough
    omega
  case popped => exact fun _ impossible => absurd impossible List.not_mem_nil
  case votes => exact fun _ impossible => absurd impossible List.not_mem_nil

/-- A popped leaf with a majority is put on the stack. -/
theorem Listed.push {stack : List Votes} (listed : Listed l ts bag waiting stack)
    (tally : Tally l ts bag waiting k) {leaf : ID} (isLeaf : leaf ∈ k.leaves) :
    Listed l ts bag (waiting.erase leaf) (pushed ts.params.alphaPreference k leaf stack) := by
  have member := ((counting.leaves leaf).mp isLeaf).1
  have card := tally.leaf_card grounded counting isLeaf
  have entries : ∀ entry ∈ pushed ts.params.alphaPreference k leaf stack,
      entry = ⟨leaf, (k.node leaf).votes⟩ ∨ entry ∈ stack := by
    intro entry found
    unfold pushed at found
    split at found
    · exact List.mem_cons.mp found
    · exact Or.inr found
  constructor
  case blocks =>
    intro id stored missing
    unfold pushed
    rw [card]
    by_cases same : id = leaf
    · subst same
      split
      · rename_i enough
        exact iff_of_true List.mem_cons_self enough
      · rename_i few
        refine iff_of_false ?_ few
        intro found
        obtain ⟨entry, inside, names⟩ := List.mem_map.mp found
        exact listed.popped entry inside (names ▸ member)
    · have before := listed.blocks id stored
        (fun waits => missing (Finset.mem_erase.mpr ⟨same, waits⟩))
      split
      · rw [List.map_cons, List.mem_cons, or_iff_right same]
        exact before
      · exact before
  case popped =>
    intro entry found waits
    obtain ⟨different, waits⟩ := Finset.mem_erase.mp waits
    cases entries entry found with
    | inl new =>
      subst new
      exact different rfl
    | inr old => exact listed.popped entry old waits
  case votes =>
    intro entry found child
    cases entries entry found with
    | inl new =>
      subst new
      exact tally.leaf_count grounded counting isLeaf child
    | inr old => exact listed.votes entry old child

end Stacks

/-- `calculateInDegree` and `pushVotes` give the stack of naive counting. -/
theorem pushVotes_counted {ts : Topological F} (grounded : Grounded l ts.lastAcceptedID ts.blocks)
    (height : ts.lastAcceptedHeight = l.height ts.lastAcceptedID)
    (valid : ts.params.verify = none) (visit pop : IterationOrder ID) {bag : Multiset ID}
    (bounded : (bag.card : ℤ) ≤ ts.params.k) :
    ∃ k stack, ts.calculateInDegree visit bag = some k ∧
      ts.pushVotes pop k.nodes.keys.card k [] = some stack ∧ CountedNaively l ts bag stack := by
  obtain ⟨positive, majority⟩ := Parameters.majority valid
  obtain ⟨k, calculated, counting, weight⟩ := calculateInDegree_law grounded height visit bag
  have votes := calculateInDegree_votes grounded height calculated
  have climbs : Climbs l ts ts.params.k k.nodes.keys k [] :=
    ⟨by omega, ⟨List.isChain_nil, fun _ impossible => absurd impossible List.not_mem_nil⟩,
      fun _ _ impossible => nomatch impossible⟩
  obtain ⟨last, stack, result, climbed, _, listed⟩ := pushVotes_invariant pop grounded height
    (fun waiting k stack => Climbs l ts ts.params.k waiting k stack ∧ Tally l ts bag waiting k ∧
      Listed l ts bag waiting stack)
    (by
      rintro k stack ⟨climbs, tally, listed⟩ isLeaf counting
      have next := listed.push grounded counting tally isLeaf
      rw [Finset.erase_singleton] at next
      exact ⟨climbs.popRoot grounded majority counting _, tally.popRoot grounded, next⟩)
    (by
      rintro waiting k stack leaf degree leaves ⟨climbs, tally, listed⟩ isLeaf member other
        parentWaits apart counting
      exact ⟨climbs.pop grounded majority counting member other parentWaits apart degree leaves,
        tally.pop grounded counting member other parentWaits apart degree leaves,
        listed.push grounded counting tally isLeaf⟩)
    k.nodes.keys k [] counting
    ⟨climbs, tally_start grounded votes, listed_start grounded counting votes rfl positive⟩
    (Nat.le_refl _)
  refine ⟨k, stack, calculated, result, ?_⟩
  constructor
  case blocks =>
    intro id
    constructor
    · intro found
      obtain ⟨entry, inside, rfl⟩ := List.mem_map.mp found
      have stored := (climbed.branch.entries entry inside).1
      exact ⟨stored, (listed.blocks _ stored (Finset.notMem_empty _)).mp found⟩
    · rintro ⟨stored, enough⟩
      exact (listed.blocks id stored (Finset.notMem_empty id)).mpr enough
  case votes => exact listed.votes
  case first => exact fun top rest shape => climbed.continues.ended shape
  case chain => exact climbed.branch.chain

/-- In every state of a run, transitive counting is naive counting. -/
theorem always_countsNaively (l : Lineage) {params : Parameters} {genesis : ID}
    {ts : Topological F}
    (started : Topological.initializeAt params genesis (l.height genesis) = .ok ts)
    {calls : List Call} (admissible : ∀ action ∈ calls, action.Admissible l params.k) :
    Always call (fun state => ∃ after, state = some after ∧
      ∀ (visit pop : IterationOrder ID) (bag : Multiset ID), (bag.card : ℤ) ≤ params.k →
        ∃ k stack, after.calculateInDegree visit bag = some k ∧
          after.pushVotes pop k.nodes.keys.card k [] = some stack ∧
          CountedNaively l after bag stack) (some ts) calls := by
  have valid := (initializeAt_sound started).1
  refine Always.imp call ?_ (always_sound started admissible)
  rintro _ ⟨after, path, rfl, recorded, _, rfl⟩
  refine ⟨after, rfl, ?_⟩
  intro visit pop bag bounded
  exact pushVotes_counted recorded.grounded recorded.height valid visit pop bounded

/-- Blocks above the only child of a genesis block with the empty ID. -/
def forked : Lineage where
  parent id := if id = Vector.replicate 32 1 then emptyID else Vector.replicate 32 1
  height id := if id = emptyID then 0 else if id = Vector.replicate 32 1 then 1 else 2

/-- Parameters with which two of three votes are a majority. -/
def twoOfThree : Parameters := ⟨3, 2, 2, 2, 1, 1, 1, 1⟩

/-- The only child and two children of it. -/
def forkedCalls : List Call :=
  [.add (forked.block (Vector.replicate 32 1)), .add (forked.block (Vector.replicate 32 2)),
    .add (forked.block (Vector.replicate 32 3))]

/-- The calls are admissible. -/
theorem forkedCalls_admissible :
    ∀ action ∈ forkedCalls, action.Admissible forked twoOfThree.k := by
  intro action member
  simp only [forkedCalls, List.mem_cons, List.not_mem_nil, or_false] at member
  rcases member with rfl | rfl | rfl
  · exact ⟨rfl, by decide⟩
  · exact ⟨rfl, by decide⟩
  · exact ⟨rfl, by decide⟩

/-- One vote for each of two siblings and one for an unknown block: their parent has two votes, and
so has the genesis block for it. -/
theorem countsNaively_forked :
    ((run call (some { decisiveStart with params := twoOfThree }) forkedCalls).bind (fun ts =>
      (ts.calculateInDegree (byValue 32)
        {Vector.replicate 32 2, Vector.replicate 32 3, Vector.replicate 32 4}).bind (fun k =>
        (ts.pushVotes (byValue 32) k.nodes.keys.card k []).map (fun stack => stack.map (fun entry =>
          (entry.parentID, [1, 2, 3, 4].map (fun byte =>
            entry.votes.count (Vector.replicate 32 byte)))))))) =
        some [(emptyID, [2, 0, 0, 0]), (Vector.replicate 32 1, [0, 1, 1, 0])] ∧
      Always call (fun state => ∃ after, state = some after ∧
        ∀ (visit pop : IterationOrder ID) (bag : Multiset ID), (bag.card : ℤ) ≤ twoOfThree.k →
          ∃ k stack, after.calculateInDegree visit bag = some k ∧
            after.pushVotes pop k.nodes.keys.card k [] = some stack ∧
            CountedNaively forked after bag stack)
        (some { decisiveStart with params := twoOfThree }) forkedCalls :=
  ⟨by decide +kernel, always_countsNaively forked rfl forkedCalls_admissible⟩

end AvalancheParallel.Snowman
