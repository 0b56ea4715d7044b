import Mathlib.Algebra.BigOperators.Group.Finset.Basic
import AvalancheParallel.Snowman.BlockTree

/-!
# Vote propagation

`calculateInDegree` and `pushVotes`. The nodes not yet popped are waiting; each of them
but the root has an edge to its parent, which is waiting too. The in-degree of a node is
the number of its counted edges, the leaves are the waiting nodes of in-degree zero, and
the votes of a node are for its children. Popping a leaf moves its votes to its parent, so
the votes of all waiting nodes together are never more than those of the bag.

At most one waiting node can therefore have a majority. Once a node with a majority is
popped its parent has one, and is the next to be put on the stack. The stack is a branch
of the tree that begins at the root.
-/

namespace AvalancheParallel.Snowman

open AvalancheParallel.Ids AvalancheParallel.RangeLoop AvalancheParallel.Snowball
open AvalancheParallel.ParentTree

variable {F : Factory} {l : Lineage} {root : ID} {blocks : GoMap ID (SnowmanBlock F)}

/-- A node is written and the leaves are replaced. -/
def Kahn.write (k : Kahn) (id : ID) (node : KahnNode) (leaves : Finset ID) : Kahn :=
  ⟨k.nodes.insert id node, leaves⟩

/-- The node under an ID after a write. -/
theorem Kahn.node_write (k : Kahn) (id other : ID) (node : KahnNode) (leaves : Finset ID) :
    (k.write id node leaves).node other = if other = id then node else k.node other := by
  unfold Kahn.write Kahn.node
  split
  · rename_i same
    rw [same, Finmap.lookup_insert]
    rfl
  · rename_i different
    rw [Finmap.lookup_insert_of_ne _ different]

/-- The IDs after a write. -/
theorem Kahn.keys_write (k : Kahn) (id : ID) (node : KahnNode) (leaves : Finset ID) :
    (k.write id node leaves).nodes.keys = insert id k.nodes.keys := keys_insert _ _ _

/-- A missing node has neither votes nor children. -/
theorem Kahn.node_of_notMem {k : Kahn} {id : ID} (missing : id ∉ k.nodes) :
    k.node id = ⟨0, 0⟩ := by
  unfold Kahn.node
  rw [Finmap.lookup_eq_none.mpr missing]
  rfl

/-- The same for the keys. -/
theorem Kahn.node_of_notMem_keys {k : Kahn} {id : ID} (missing : id ∉ k.nodes.keys) :
    k.node id = ⟨0, 0⟩ :=
  Kahn.node_of_notMem (fun seen => missing (Finmap.mem_keys.mpr seen))

/-- The number of votes of a set of nodes. -/
def Kahn.weight (k : Kahn) (waiting : Finset ID) : ℕ := ∑ id ∈ waiting, (k.node id).votes.card

/-- The state of the sort: the waiting nodes, and those whose edge to the parent is counted. -/
structure Counting (l : Lineage) (root : ID) (blocks : GoMap ID (SnowmanBlock F))
    (waiting counted : Finset ID) (k : Kahn) : Prop where
  inside : ∀ id ∈ waiting, id ∈ blocks
  edges : ∀ id ∈ counted, id ∈ waiting ∧ id ≠ root ∧ l.parent id ∈ waiting
  degree : ∀ id ∈ waiting,
    (k.node id).inDegree = ((counted.filter (fun child => l.parent child = id)).card : ℤ)
  leaves : ∀ id, id ∈ k.leaves ↔ id ∈ waiting ∧ (k.node id).inDegree = 0
  votes : ∀ id ∈ waiting, ∀ child ∈ (k.node id).votes,
    child ∈ blocks ∧ child ≠ root ∧ l.parent child = id

namespace Counting

variable {waiting counted : Finset ID} {k : Kahn}

/-- Nothing is waiting. -/
theorem empty (nodes : GoMap ID KahnNode) :
    Counting l root blocks ∅ ((∅ : Finset ID).erase root) ⟨nodes, ∅⟩ := by
  constructor
  case inside => exact fun _ impossible => absurd impossible (Finset.notMem_empty _)
  case edges => simp
  case degree => exact fun _ impossible => absurd impossible (Finset.notMem_empty _)
  case leaves => simp
  case votes => exact fun _ impossible => absurd impossible (Finset.notMem_empty _)

/-- No edge to a node that is not waiting is counted. -/
theorem filter_edges (counting : Counting l root blocks waiting counted k) {id : ID}
    (missing : id ∉ waiting) : counted.filter (fun child => l.parent child = id) = ∅ := by
  apply Finset.filter_eq_empty_iff.mpr
  rintro child edge rfl
  exact missing (counting.edges child edge).2.2

/-- A node that is not waiting and not written has the right in-degree. -/
theorem degree_fresh (counting : Counting l root blocks waiting counted k) {id : ID}
    (fresh : id ∉ waiting → k.node id = ⟨0, 0⟩) :
    (k.node id).inDegree = ((counted.filter (fun child => l.parent child = id)).card : ℤ) := by
  by_cases seen : id ∈ waiting
  · exact counting.degree id seen
  · rw [fresh seen, counting.filter_edges seen]
    rfl

/-- A node that is not waiting and not written has no votes. -/
theorem votes_fresh (counting : Counting l root blocks waiting counted k) {id : ID}
    (fresh : id ∉ waiting → k.node id = ⟨0, 0⟩) {child : ID} (voted : child ∈ (k.node id).votes) :
    child ∈ blocks ∧ child ≠ root ∧ l.parent child = id := by
  by_cases seen : id ∈ waiting
  · exact counting.votes id seen child voted
  · rw [fresh seen] at voted
    exact absurd voted (Multiset.notMem_zero child)

/-- Counting the edge of a waiting node to its parent. -/
theorem countEdge (counting : Counting l root blocks waiting counted k)
    (grounded : Grounded l root blocks) {id : ID} (member : id ∈ waiting) (other : id ≠ root)
    (uncounted : id ∉ counted) (fresh : l.parent id ∉ waiting → k.node (l.parent id) = ⟨0, 0⟩) :
    Counting l root blocks (insert (l.parent id) waiting) (insert id counted)
      (k.write (l.parent id)
        ⟨(k.node (l.parent id)).inDegree + 1, (k.node (l.parent id)).votes⟩
        (k.leaves.erase (l.parent id))) := by
  have degreeParent := counting.degree_fresh fresh
  have old : ∀ node, node ≠ l.parent id → node ∈ insert (l.parent id) waiting → node ∈ waiting :=
    fun node apart listed => (Finset.mem_insert.mp listed).resolve_left apart
  constructor
  case inside =>
    intro node listed
    cases Finset.mem_insert.mp listed with
    | inl same => exact same ▸ grounded.parent_mem (counting.inside id member) other
    | inr earlier => exact counting.inside node earlier
  case edges =>
    intro node listed
    simp only [Finset.mem_insert] at listed ⊢
    cases listed with
    | inl same =>
      subst same
      exact ⟨Or.inr member, other, Or.inl rfl⟩
    | inr earlier =>
      obtain ⟨inside, different, up⟩ := counting.edges node earlier
      exact ⟨Or.inr inside, different, Or.inr up⟩
  case degree =>
    intro node listed
    rw [Kahn.node_write, Finset.filter_insert]
    split
    · rename_i same
      rw [if_pos same.symm, Finset.card_insert_of_notMem (by simp [uncounted]), same,
        degreeParent]
      rfl
    · rename_i apart
      rw [if_neg (fun same => apart same.symm)]
      exact counting.degree node (old node apart listed)
  case leaves =>
    intro node
    rw [Kahn.node_write]
    change node ∈ k.leaves.erase (l.parent id) ↔ _
    rw [Finset.mem_erase, counting.leaves]
    split
    · rename_i same
      refine iff_of_false (fun leaf => leaf.1 same) ?_
      rintro ⟨_, zero⟩
      have positive : (k.node (l.parent id)).inDegree + 1 = 0 := zero
      omega
    · rename_i apart
      constructor
      · rintro ⟨_, inside, zero⟩
        exact ⟨Finset.mem_insert_of_mem inside, zero⟩
      · rintro ⟨listed, zero⟩
        exact ⟨apart, old node apart listed, zero⟩
  case votes =>
    intro node listed child
    rw [Kahn.node_write]
    split
    · rename_i same
      subst same
      exact counting.votes_fresh fresh
    · rename_i apart
      exact counting.votes node (old node apart listed) child

/-- Adding votes for a child to its parent. A parent that was not waiting is a leaf. -/
theorem addVotes (counting : Counting l root blocks waiting counted k)
    (grounded : Grounded l root blocks) {child : ID} (stored : child ∈ blocks)
    (other : child ≠ root) (count : ℕ) (leaves : Finset ID)
    (fresh : l.parent child ∉ waiting → k.node (l.parent child) = ⟨0, 0⟩)
    (leaf : ∀ id, id ∈ leaves ↔ id ∈ k.leaves ∨ id = l.parent child ∧ l.parent child ∉ waiting) :
    Counting l root blocks (insert (l.parent child) waiting) counted
      (k.write (l.parent child)
        ⟨(k.node (l.parent child)).inDegree,
          (k.node (l.parent child)).votes + Multiset.replicate count child⟩ leaves) := by
  have sameDegree : ∀ id, ((k.write (l.parent child)
      ⟨(k.node (l.parent child)).inDegree,
        (k.node (l.parent child)).votes + Multiset.replicate count child⟩
      leaves).node id).inDegree = (k.node id).inDegree := by
    intro id
    rw [Kahn.node_write]
    split
    · rename_i same
      rw [same]
    · rfl
  constructor
  case inside =>
    intro id listed
    cases Finset.mem_insert.mp listed with
    | inl same => exact same ▸ grounded.parent_mem stored other
    | inr earlier => exact counting.inside id earlier
  case edges =>
    intro id listed
    obtain ⟨inside, different, up⟩ := counting.edges id listed
    exact ⟨Finset.mem_insert_of_mem inside, different, Finset.mem_insert_of_mem up⟩
  case degree =>
    intro id listed
    rw [sameDegree]
    by_cases earlier : id ∈ waiting
    · exact counting.degree id earlier
    · have same := (Finset.mem_insert.mp listed).resolve_right earlier
      exact same ▸ counting.degree_fresh fresh
  case leaves =>
    intro id
    rw [sameDegree]
    change id ∈ leaves ↔ _
    rw [leaf, counting.leaves, Finset.mem_insert]
    constructor
    · rintro (⟨inside, zero⟩ | ⟨rfl, missing⟩)
      · exact ⟨Or.inr inside, zero⟩
      · exact ⟨Or.inl rfl, by rw [fresh missing]⟩
    · rintro ⟨listed, zero⟩
      by_cases earlier : id ∈ waiting
      · exact Or.inl ⟨earlier, zero⟩
      · have same := listed.resolve_right earlier
        exact Or.inr ⟨same, same ▸ earlier⟩
  case votes =>
    intro id listed voted
    rw [Kahn.node_write]
    split
    · rename_i same
      subst same
      intro member
      cases Multiset.mem_add.mp member with
      | inl earlier => exact counting.votes_fresh fresh earlier
      | inr new =>
        rw [Multiset.eq_of_mem_replicate new]
        exact ⟨stored, other, rfl⟩
    · rename_i apart
      exact counting.votes id ((Finset.mem_insert.mp listed).resolve_left apart) voted

/-- Votes added to a node that is waiting or has none add to the weight. -/
theorem weight_write (k : Kahn) {id : ID} (degree : ℤ) (added : Multiset ID)
    (leaves : Finset ID) (fresh : id ∉ waiting → k.node id = ⟨0, 0⟩) :
    (k.write id ⟨degree, (k.node id).votes + added⟩ leaves).weight (insert id waiting) =
      k.weight waiting + added.card := by
  have others : ∀ other ∈ waiting.erase id,
      ((k.write id ⟨degree, (k.node id).votes + added⟩ leaves).node other).votes.card =
        (k.node other).votes.card := by
    intro other listed
    rw [Kahn.node_write, if_neg (Finset.mem_erase.mp listed).1]
  unfold Kahn.weight
  rw [← Finset.insert_erase (Finset.mem_insert_self id waiting), Finset.erase_insert_eq_erase,
    Finset.sum_insert (Finset.notMem_erase id waiting), Finset.sum_congr rfl others,
    Kahn.node_write, if_pos rfl, Multiset.card_add]
  by_cases seen : id ∈ waiting
  · rw [← Finset.add_sum_erase waiting _ seen]
    omega
  · rw [Finset.erase_eq_of_notMem seen, fresh seen]
    simp [Nat.add_comm]

/-- A write that keeps the votes keeps the weight. -/
theorem weight_write_degree (k : Kahn) {id : ID} (degree : ℤ) (leaves : Finset ID)
    (fresh : id ∉ waiting → k.node id = ⟨0, 0⟩) :
    (k.write id ⟨degree, (k.node id).votes⟩ leaves).weight (insert id waiting) =
      k.weight waiting := by
  have written := weight_write k degree 0 leaves fresh
  rw [add_zero, Multiset.card_zero, Nat.add_zero] at written
  exact written

/-- A leaf has no waiting children. -/
theorem no_children (counting : Counting l root blocks waiting (waiting.erase root) k) {leaf : ID}
    (isLeaf : leaf ∈ k.leaves) {child : ID} (member : child ∈ waiting) (other : child ≠ root) :
    l.parent child ≠ leaf := by
  intro same
  obtain ⟨inside, zero⟩ := (counting.leaves leaf).mp isLeaf
  rw [counting.degree leaf inside, Nat.cast_eq_zero, Finset.card_eq_zero] at zero
  exact Finset.filter_eq_empty_iff.mp zero (Finset.mem_erase.mpr ⟨other, member⟩) same

/-- The waiting nodes are a tree. -/
theorem rooted (counting : Counting l root blocks waiting (waiting.erase root) k)
    (grounded : Grounded l root blocks) (inhabited : waiting.Nonempty) :
    Rooted l.parent l.height root waiting :=
  grounded.rooted.of_closed (fun id member => Finmap.mem_keys.mpr (counting.inside id member))
    (fun id member other => (counting.edges id (Finset.mem_erase.mpr ⟨other, member⟩)).2.2)
    inhabited

/-- Without leaves nothing is waiting. -/
theorem eq_empty (counting : Counting l root blocks waiting (waiting.erase root) k)
    (grounded : Grounded l root blocks) (noLeaves : k.leaves = ∅) : waiting = ∅ := by
  by_contra inhabited
  have tree := counting.rooted grounded (Finset.nonempty_iff_ne_empty.mpr inhabited)
  obtain ⟨leaf, member, childless⟩ := tree.exists_leaf
  have isLeaf : leaf ∈ k.leaves := by
    rw [counting.leaves, counting.degree leaf member, Nat.cast_eq_zero, Finset.card_eq_zero,
      Finset.filter_eq_empty_iff]
    exact ⟨member, fun child listed =>
      childless child (Finset.mem_erase.mp listed).2 (Finset.mem_erase.mp listed).1⟩
  rw [noLeaves] at isLeaf
  exact absurd isLeaf (Finset.notMem_empty leaf)

/-- The root is a leaf when only it is waiting. -/
theorem eq_singleton (counting : Counting l root blocks waiting (waiting.erase root) k)
    (grounded : Grounded l root blocks) (isLeaf : root ∈ k.leaves) : waiting = {root} := by
  have member := ((counting.leaves root).mp isLeaf).1
  refine Finset.eq_singleton_iff_unique_mem.mpr ⟨member, ?_⟩
  intro id listed
  by_contra other
  obtain ⟨child, inside, different, above⟩ :=
    (counting.rooted grounded ⟨root, member⟩).exists_child listed other
  exact counting.no_children isLeaf inside different above

/-- Popping a leaf moves its votes to its parent. -/
theorem pop (counting : Counting l root blocks waiting (waiting.erase root) k)
    (grounded : Grounded l root blocks) {leaf : ID} (isLeaf : leaf ∈ k.leaves)
    (other : leaf ≠ root) (leaves : Finset ID)
    (leafIff : ∀ id, id ∈ leaves ↔ id ∈ k.leaves.erase leaf ∨
      id = l.parent leaf ∧ (k.node (l.parent leaf)).inDegree - 1 = 0) :
    Counting l root blocks (waiting.erase leaf) ((waiting.erase leaf).erase root)
      (k.write (l.parent leaf)
        ⟨(k.node (l.parent leaf)).inDegree - 1, (k.node (l.parent leaf)).votes +
          Multiset.replicate (k.node leaf).votes.card leaf⟩ leaves) := by
  obtain ⟨member, zero⟩ := (counting.leaves leaf).mp isLeaf
  have edge : leaf ∈ waiting.erase root := Finset.mem_erase.mpr ⟨other, member⟩
  have parentWaits := (counting.edges leaf edge).2.2
  have parentApart := grounded.parent_ne (counting.inside leaf member) other
  -- The edge of the leaf is one of those that its parent has counted.
  have counted : leaf ∈ (waiting.erase root).filter
      (fun child => l.parent child = l.parent leaf) := Finset.mem_filter.mpr ⟨edge, rfl⟩
  have positive := Finset.card_pos.mpr ⟨leaf, counted⟩
  have degree := counting.degree _ parentWaits
  constructor
  case inside => exact fun id listed => counting.inside id (Finset.mem_erase.mp listed).2
  case edges =>
    intro id listed
    obtain ⟨different, listed⟩ := Finset.mem_erase.mp listed
    have inside := (Finset.mem_erase.mp listed).2
    have up := (counting.edges id (Finset.mem_erase.mpr ⟨different, inside⟩)).2.2
    exact ⟨listed, different,
      Finset.mem_erase.mpr ⟨counting.no_children isLeaf inside different, up⟩⟩
  case degree =>
    intro id listed
    rw [Kahn.node_write, Finset.erase_right_comm, Finset.filter_erase]
    split
    · rename_i same
      subst same
      rw [Finset.card_erase_of_mem counted, degree]
      dsimp only
      omega
    · rename_i apart
      rw [Finset.erase_eq_of_notMem
        (fun counted => apart (Finset.mem_filter.mp counted).2.symm)]
      exact counting.degree id (Finset.mem_erase.mp listed).2
  case leaves =>
    intro id
    rw [Kahn.node_write]
    change id ∈ leaves ↔ _
    rw [leafIff, Finset.mem_erase, Finset.mem_erase, counting.leaves]
    split
    · rename_i same
      subst same
      constructor
      · rintro (⟨_, _, none⟩ | ⟨_, last⟩)
        · omega
        · exact ⟨⟨parentApart, parentWaits⟩, last⟩
      · rintro ⟨_, last⟩
        exact Or.inr ⟨rfl, last⟩
    · rename_i apart
      constructor
      · rintro (⟨different, inside, none⟩ | ⟨same, _⟩)
        · exact ⟨⟨different, inside⟩, none⟩
        · exact absurd same apart
      · rintro ⟨⟨different, inside⟩, none⟩
        exact Or.inl ⟨different, inside, none⟩
  case votes =>
    intro id listed child
    rw [Kahn.node_write]
    split
    · rename_i same
      subst same
      intro voted
      cases Multiset.mem_add.mp voted with
      | inl earlier => exact counting.votes _ parentWaits child earlier
      | inr new =>
        rw [Multiset.eq_of_mem_replicate new]
        exact ⟨counting.inside leaf member, other, rfl⟩
    · exact counting.votes id (Finset.mem_erase.mp listed).2 child

/-- The weight does not change when a leaf is popped. -/
theorem weight_pop (k : Kahn) {leaf parent : ID} (member : leaf ∈ waiting)
    (parentWaits : parent ∈ waiting) (apart : parent ≠ leaf) (degree : ℤ) (leaves : Finset ID) :
    (k.write parent ⟨degree, (k.node parent).votes +
        Multiset.replicate (k.node leaf).votes.card leaf⟩ leaves).weight (waiting.erase leaf) =
      k.weight waiting := by
  have listed : parent ∈ waiting.erase leaf := Finset.mem_erase.mpr ⟨apart, parentWaits⟩
  have fresh : parent ∉ waiting.erase leaf → k.node parent = ⟨0, 0⟩ :=
    fun missing => absurd listed missing
  have moved := weight_write k degree (Multiset.replicate (k.node leaf).votes.card leaf)
    leaves fresh
  rw [Finset.insert_eq_of_mem listed, Multiset.card_replicate] at moved
  rw [moved]
  unfold Kahn.weight
  rw [← Finset.add_sum_erase waiting _ member, Nat.add_comm]

/-- Two waiting nodes do not have more votes than all of them. -/
theorem two_votes_le (k : Kahn) {first second : ID} (member : first ∈ waiting)
    (also : second ∈ waiting) (apart : first ≠ second) :
    (k.node first).votes.card + (k.node second).votes.card ≤ k.weight waiting := by
  unfold Kahn.weight
  rw [← Finset.add_sum_erase waiting _ member,
    ← Finset.add_sum_erase (waiting.erase first) _ (Finset.mem_erase.mpr ⟨apart.symm, also⟩)]
  omega

end Counting

/-- The nodes other than the root and a new one. -/
theorem erase_new {keys : Finset ID} {id : ID} (missing : id ∉ keys) :
    ((insert id keys).erase root).erase id = keys.erase root := by
  rw [Finset.erase_right_comm, Finset.erase_insert missing]

section Marking

variable {ts : Topological F} (grounded : Grounded l ts.lastAcceptedID ts.blocks)
  (height : ts.lastAcceptedHeight = l.height ts.lastAcceptedID)
include grounded height

/-- The outcome of the walk to the ancestors: all edges are counted, and no votes are moved. -/
def Marked (l : Lineage) (ts : Topological F) (before : Kahn) (result : Option Kahn) : Prop :=
  ∃ after, result = some after ∧
    Counting l ts.lastAcceptedID ts.blocks after.nodes.keys
      (after.nodes.keys.erase ts.lastAcceptedID) after ∧
    after.weight after.nodes.keys = before.weight before.nodes.keys

/-- The walk to the ancestors ends at the root. -/
theorem markAncestors_root {fuel : ℕ} {id : ID} {k : Kahn}
    (counting : Counting l ts.lastAcceptedID ts.blocks k.nodes.keys
      ((k.nodes.keys.erase ts.lastAcceptedID).erase id) k) (atRoot : id = ts.lastAcceptedID) :
    Marked l ts k (ts.markAncestors fuel id k) := by
  subst atRoot
  obtain ⟨n, found⟩ := Finmap.mem_iff.mp grounded.root_mem
  rw [Finset.erase_eq_of_notMem (Finset.notMem_erase _ _)] at counting
  refine ⟨k, ?_, counting, rfl⟩
  unfold Topological.markAncestors
  rw [found, height]
  dsimp only
  rw [grounded.pending_root found]

/-- The walk to the ancestors ends with all edges counted. -/
theorem markAncestors_law {fuel : ℕ} (id : ID) (k : Kahn)
    (counting : Counting l ts.lastAcceptedID ts.blocks k.nodes.keys
      ((k.nodes.keys.erase ts.lastAcceptedID).erase id) k)
    (member : id ∈ k.nodes) (enough : l.height id ≤ fuel) :
    Marked l ts k (ts.markAncestors fuel id k) := by
  induction fuel generalizing id k with
  | zero =>
    refine markAncestors_root grounded height counting ?_
    by_contra other
    have above := grounded.height_lt (counting.inside id (Finmap.mem_keys.mpr member)) other
    omega
  | succ fuel inductionHypothesis =>
    by_cases other : id = ts.lastAcceptedID
    · exact markAncestors_root grounded height counting other
    have listed := Finmap.mem_keys.mpr member
    have level := grounded.height_eq (counting.inside id listed) other
    have shorter : l.height (l.parent id) ≤ fuel := by omega
    obtain ⟨n, found⟩ := Finmap.mem_iff.mp (counting.inside id listed)
    have fresh : l.parent id ∉ k.nodes.keys → k.node (l.parent id) = ⟨0, 0⟩ :=
      Kahn.node_of_notMem_keys
    have next := counting.countEdge grounded listed other (Finset.notMem_erase _ _) fresh
    rw [Finset.insert_erase (Finset.mem_erase.mpr ⟨other, listed⟩)] at next
    unfold Topological.markAncestors
    rw [found, height]
    dsimp only
    rw [grounded.pending_other found other]
    dsimp only [Lineage.block]
    split
    · rename_i seen
      rw [Finset.insert_eq_of_mem (Finmap.mem_keys.mpr seen)] at next
      refine ⟨k.write (l.parent id) _ _, rfl, ?_, ?_⟩
      · rw [Kahn.keys_write, Finset.insert_eq_of_mem (Finmap.mem_keys.mpr seen)]
        exact next
      · rw [Kahn.keys_write]
        exact Counting.weight_write_degree k _ _ fresh
    · rename_i unseen
      have missing : l.parent id ∉ k.nodes.keys := fun seen => unseen (Finmap.mem_keys.mp seen)
      have notLeaf : l.parent id ∉ k.leaves := fun leaf =>
        missing ((counting.leaves _).mp leaf).1
      rw [Finset.erase_eq_of_notMem notLeaf, ← erase_new missing, ← Kahn.keys_write k (l.parent id)
        ⟨(k.node (l.parent id)).inDegree + 1, (k.node (l.parent id)).votes⟩ k.leaves] at next
      obtain ⟨after, result, counted, weight⟩ := inductionHypothesis (l.parent id) _ next
        (Finmap.mem_insert.mpr (Or.inl rfl)) shorter
      refine ⟨after, result, counted, weight.trans ?_⟩
      rw [Kahn.keys_write]
      exact Counting.weight_write_degree k _ _ fresh

/-- One vote of the bag. -/
theorem countVote_law (bag : Multiset ID) (vote : ID) {k : Kahn}
    (counting : Counting l ts.lastAcceptedID ts.blocks k.nodes.keys
      (k.nodes.keys.erase ts.lastAcceptedID) k) :
    ∃ after, ts.countVote bag k vote = some after ∧
      Counting l ts.lastAcceptedID ts.blocks after.nodes.keys
        (after.nodes.keys.erase ts.lastAcceptedID) after ∧
      after.weight after.nodes.keys ≤ k.weight k.nodes.keys + bag.count vote := by
  unfold Topological.countVote
  rw [height]
  cases found : ts.blocks.lookup vote with
  | none => exact ⟨k, rfl, counting, Nat.le_add_right _ _⟩
  | some n =>
    dsimp only
    by_cases atRoot : vote = ts.lastAcceptedID
    · subst atRoot
      rw [grounded.pending_root found]
      exact ⟨k, rfl, counting, Nat.le_add_right _ _⟩
    rw [grounded.pending_other found atRoot]
    dsimp only [Lineage.block]
    have stored := Finmap.mem_of_lookup_eq_some found
    have level := grounded.height_eq stored atRoot
    have fresh : l.parent vote ∉ k.nodes.keys → k.node (l.parent vote) = ⟨0, 0⟩ :=
      Kahn.node_of_notMem_keys
    split
    · rename_i seen
      have listed := Finmap.mem_keys.mpr seen
      have next := counting.addVotes grounded stored atRoot (bag.count vote) k.leaves
        fresh (fun id => (or_iff_left (fun new => new.2 listed)).symm)
      rw [Finset.insert_eq_of_mem listed] at next
      refine ⟨k.write (l.parent vote) _ _, rfl, ?_, ?_⟩
      · rw [Kahn.keys_write, Finset.insert_eq_of_mem listed]
        exact next
      · rw [Kahn.keys_write, Counting.weight_write k _ _ _ fresh, Multiset.card_replicate]
    · rename_i unseen
      have missing : l.parent vote ∉ k.nodes.keys := fun seen => unseen (Finmap.mem_keys.mp seen)
      have next := counting.addVotes grounded stored atRoot (bag.count vote)
        (insert (l.parent vote) k.leaves) fresh (by
          intro id
          rw [Finset.mem_insert, or_comm]
          simp [missing])
      rw [← erase_new missing, ← Kahn.keys_write k (l.parent vote)
        ⟨(k.node (l.parent vote)).inDegree,
          (k.node (l.parent vote)).votes + Multiset.replicate (bag.count vote) vote⟩
        (insert (l.parent vote) k.leaves)] at next
      obtain ⟨after, result, counted, weight⟩ := markAncestors_law grounded height (l.parent vote)
        _ next (Finmap.mem_insert.mpr (Or.inl rfl)) (by omega : _ ≤ l.height vote)
      refine ⟨after, result, counted, ?_⟩
      rw [weight, Kahn.keys_write, Counting.weight_write k _ _ _ fresh, Multiset.card_replicate]

/-- `calculateInDegree` counts all edges from the votes to the root, and at most the votes of
the bag. -/
theorem calculateInDegree_law (order : IterationOrder ID) (bag : Multiset ID) :
    ∃ k, ts.calculateInDegree order bag = some k ∧
      Counting l ts.lastAcceptedID ts.blocks k.nodes.keys
        (k.nodes.keys.erase ts.lastAcceptedID) k ∧ k.weight k.nodes.keys ≤ bag.card := by
  have counts : ∀ (votes : List ID) (k : Kahn),
      Counting l ts.lastAcceptedID ts.blocks k.nodes.keys
        (k.nodes.keys.erase ts.lastAcceptedID) k →
      ∃ after, votes.foldlM (ts.countVote bag) k = some after ∧
        Counting l ts.lastAcceptedID ts.blocks after.nodes.keys
          (after.nodes.keys.erase ts.lastAcceptedID) after ∧
        after.weight after.nodes.keys ≤ k.weight k.nodes.keys + (votes.map bag.count).sum := by
    intro votes
    induction votes with
    | nil => exact fun k counting => ⟨k, rfl, counting, Nat.le_refl _⟩
    | cons vote rest inductionHypothesis =>
      intro k counting
      obtain ⟨next, result, counted, weight⟩ := countVote_law grounded height bag vote counting
      obtain ⟨after, ended, all, bound⟩ := inductionHypothesis next counted
      refine ⟨after, ?_, all, ?_⟩
      · rw [List.foldlM_cons, result]
        exact ended
      · rw [List.map_cons, List.sum_cons]
        omega
  obtain ⟨k, result, counting, weight⟩ := counts (order.arrange bag.toFinset) ⟨∅, ∅⟩
    (Counting.empty ∅)
  refine ⟨k, result, counting, weight.trans (Nat.le_of_eq ?_)⟩
  have same : (order.arrange bag.toFinset).toFinset = bag.toFinset := by
    ext id
    simp
  rw [← List.sum_toFinset bag.count (order.nodup _), same, Multiset.toFinset_sum_count_eq]
  simp [Kahn.weight]

end Marking

/-- A stack of votes is a branch of the tree; each block on it has a child. -/
structure Branch (l : Lineage) (root : ID) (blocks : GoMap ID (SnowmanBlock F))
    (stack : List Votes) : Prop where
  chain : List.IsChain (ChildOf l.parent l.height) (stack.map Votes.parentID)
  entries : ∀ entry ∈ stack, entry.parentID ∈ blocks ∧
    ∃ child ∈ blocks, child ≠ root ∧ l.parent child = entry.parentID

/-- The branch is to be continued with the parent of its top, which has a majority. -/
def Continues (l : Lineage) (root : ID) (alpha : ℤ) (waiting : Finset ID) (k : Kahn)
    (stack : List Votes) : Prop :=
  ∀ top rest, stack = top :: rest →
    top.parentID = root ∧ waiting = ∅ ∨
      top.parentID ≠ root ∧ l.parent top.parentID ∈ waiting ∧
        alpha ≤ ((k.node (l.parent top.parentID)).votes.card : ℤ)

section Pushing

variable {waiting : Finset ID} {k : Kahn} {alpha total : ℤ} {stack : List Votes}

/-- A leaf with a majority is the next block of the branch. -/
theorem Branch.cons (branch : Branch l root blocks stack) (grounded : Grounded l root blocks)
    (counting : Counting l root blocks waiting (waiting.erase root) k)
    (continues : Continues l root alpha waiting k stack)
    (majority : total < 2 * alpha) (bound : (k.weight waiting : ℤ) ≤ total) {leaf : ID}
    (member : leaf ∈ waiting) (enough : alpha ≤ ((k.node leaf).votes.card : ℤ)) :
    Branch l root blocks (⟨leaf, (k.node leaf).votes⟩ :: stack) := by
  constructor
  case entries =>
    intro entry listed
    cases List.mem_cons.mp listed with
    | inl same =>
      subst same
      obtain ⟨child, voted⟩ := Multiset.card_pos_iff_exists_mem.mp
        (by omega : 0 < (k.node leaf).votes.card)
      obtain ⟨inside, other, above⟩ := counting.votes leaf member child voted
      exact ⟨counting.inside leaf member, child, inside, other, above⟩
    | inr earlier => exact branch.entries entry earlier
  case chain =>
    cases stack with
    | nil => exact List.isChain_singleton _
    | cons top rest =>
      refine List.isChain_cons_cons.mpr ⟨?_, branch.chain⟩
      obtain ⟨_, nothing⟩ | ⟨other, parentWaits, parentEnough⟩ := continues top rest rfl
      · rw [nothing] at member
        exact absurd member (Finset.notMem_empty leaf)
      · -- Two different nodes with a majority would have more votes than there are.
        have same : l.parent top.parentID = leaf := by
          by_contra apart
          have both := Counting.two_votes_le k parentWaits member apart
          omega
        have stored := (branch.entries top List.mem_cons_self).1
        exact same ▸ grounded.childOf stored other

/-- The stack after a leaf was popped. -/
def pushed (alpha : ℤ) (k : Kahn) (leaf : ID) (stack : List Votes) : List Votes :=
  if alpha ≤ ((k.node leaf).votes.card : ℤ) then ⟨leaf, (k.node leaf).votes⟩ :: stack else stack

/-- After the root was popped the branch is complete. -/
theorem Continues.pop_root (continues : Continues l root alpha waiting k stack)
    (only : waiting = {root}) (after : Kahn) :
    Continues l root alpha ∅ after (pushed alpha k root stack) := by
  intro top rest shape
  unfold pushed at shape
  split at shape
  · rw [← (List.cons.inj shape).1]
    exact Or.inl ⟨rfl, rfl⟩
  · rename_i few
    subst shape
    obtain ⟨_, nothing⟩ | ⟨_, parentWaits, enough⟩ := continues top rest rfl
    · rw [only] at nothing
      exact absurd nothing (Finset.singleton_ne_empty root)
    · rw [only, Finset.mem_singleton] at parentWaits
      rw [parentWaits] at enough
      exact absurd enough few

/-- After another leaf was popped its parent continues the branch, if the leaf is on it. -/
theorem Continues.pop (continues : Continues l root alpha waiting k stack) {leaf : ID}
    (member : leaf ∈ waiting) (other : leaf ≠ root) (parentWaits : l.parent leaf ∈ waiting)
    (apart : l.parent leaf ≠ leaf) (degree : ℤ) (leaves : Finset ID) :
    Continues l root alpha (waiting.erase leaf)
      (k.write (l.parent leaf) ⟨degree, (k.node (l.parent leaf)).votes +
        Multiset.replicate (k.node leaf).votes.card leaf⟩ leaves)
      (pushed alpha k leaf stack) := by
  intro top rest shape
  right
  unfold pushed at shape
  split at shape
  · rename_i enough
    rw [← (List.cons.inj shape).1]
    refine ⟨other, Finset.mem_erase.mpr ⟨apart, parentWaits⟩, ?_⟩
    rw [Kahn.node_write, if_pos rfl]
    simp only [Multiset.card_add, Multiset.card_replicate]
    omega
  · rename_i few
    subst shape
    obtain ⟨_, nothing⟩ | ⟨notRoot, topWaits, enough⟩ := continues top rest rfl
    · rw [nothing] at member
      exact absurd member (Finset.notMem_empty leaf)
    · have different : l.parent top.parentID ≠ leaf := by
        intro same
        rw [same] at enough
        exact few enough
      refine ⟨notRoot, Finset.mem_erase.mpr ⟨different, topWaits⟩, ?_⟩
      rw [Kahn.node_write]
      split
      · rename_i same
        rw [same] at enough
        simp only [Multiset.card_add]
        omega
      · exact enough

/-- Pushing the votes of a leaf keeps the stack one branch. -/
theorem Branch.push (branch : Branch l root blocks stack) (grounded : Grounded l root blocks)
    (counting : Counting l root blocks waiting (waiting.erase root) k)
    (continues : Continues l root alpha waiting k stack)
    (majority : total < 2 * alpha) (bound : (k.weight waiting : ℤ) ≤ total) {leaf : ID}
    (member : leaf ∈ waiting) : Branch l root blocks (pushed alpha k leaf stack) := by
  unfold pushed
  split
  · rename_i enough
    exact branch.cons grounded counting continues majority bound member enough
  · exact branch

/-- Nothing is left to be popped. -/
theorem Continues.ended (continues : Continues l root alpha ∅ k stack) {top : Votes}
    {rest : List Votes} (shape : stack = top :: rest) : top.parentID = root := by
  obtain ⟨atRoot, _⟩ | ⟨_, impossible, _⟩ := continues top rest shape
  · exact atRoot
  · exact absurd impossible (Finset.notMem_empty _)

end Pushing

section PushVotes

variable (order : IterationOrder ID) {ts : Topological F}
  (grounded : Grounded l ts.lastAcceptedID ts.blocks)
  (height : ts.lastAcceptedHeight = l.height ts.lastAcceptedID)

/-- The outcome of `pushVotes`: a branch that begins at the root. -/
def Pushed (l : Lineage) (ts : Topological F) (result : Option (List Votes)) : Prop :=
  ∃ voteStack, result = some voteStack ∧ Branch l ts.lastAcceptedID ts.blocks voteStack ∧
    ∀ top rest, voteStack = top :: rest → top.parentID = ts.lastAcceptedID

include grounded in
/-- `pushVotes` ends when there are no leaves. -/
theorem pushVotes_done {invariant : Finset ID → Kahn → List Votes → Prop} {fuel : ℕ}
    {waiting : Finset ID} {k : Kahn} {stack : List Votes}
    (counting : Counting l ts.lastAcceptedID ts.blocks waiting (waiting.erase ts.lastAcceptedID) k)
    (holds : invariant waiting k stack) (popped : order.arrange k.leaves = []) :
    ∃ last voteStack, ts.pushVotes order fuel k stack = some voteStack ∧
      invariant ∅ last voteStack := by
  have noLeaves : k.leaves = ∅ := by
    apply Finset.eq_empty_of_forall_notMem
    intro leaf isLeaf
    rw [← order.mem_arrange, popped] at isLeaf
    exact absurd isLeaf List.not_mem_nil
  obtain rfl := counting.eq_empty grounded noLeaves
  refine ⟨k, stack, ?_, holds⟩
  unfold Topological.pushVotes
  rw [popped]

include grounded height in
/-- What holds of the waiting nodes and the stack, and is kept when a leaf is popped, holds when
`pushVotes` ends. -/
theorem pushVotes_invariant (invariant : Finset ID → Kahn → List Votes → Prop)
    (popRoot : ∀ k stack, invariant {ts.lastAcceptedID} k stack →
      ts.lastAcceptedID ∈ k.leaves →
      Counting l ts.lastAcceptedID ts.blocks {ts.lastAcceptedID}
        (({ts.lastAcceptedID} : Finset ID).erase ts.lastAcceptedID) k →
      invariant ∅ ⟨k.nodes, ∅⟩ (pushed ts.params.alphaPreference k ts.lastAcceptedID stack))
    (pop : ∀ waiting k stack leaf degree leaves, invariant waiting k stack → leaf ∈ k.leaves →
      leaf ∈ waiting → leaf ≠ ts.lastAcceptedID → l.parent leaf ∈ waiting →
      l.parent leaf ≠ leaf →
      Counting l ts.lastAcceptedID ts.blocks waiting (waiting.erase ts.lastAcceptedID) k →
      invariant (waiting.erase leaf)
        (k.write (l.parent leaf) ⟨degree, (k.node (l.parent leaf)).votes +
          Multiset.replicate (k.node leaf).votes.card leaf⟩ leaves)
        (pushed ts.params.alphaPreference k leaf stack))
    {fuel : ℕ} (waiting : Finset ID) (k : Kahn) (stack : List Votes)
    (counting : Counting l ts.lastAcceptedID ts.blocks waiting (waiting.erase ts.lastAcceptedID) k)
    (holds : invariant waiting k stack) (enough : waiting.card ≤ fuel) :
    ∃ last voteStack, ts.pushVotes order fuel k stack = some voteStack ∧
      invariant ∅ last voteStack := by
  induction fuel generalizing waiting k stack with
  | zero =>
    refine pushVotes_done order grounded counting holds ?_
    apply List.eq_nil_iff_forall_not_mem.mpr
    intro leaf listed
    have member := ((counting.leaves leaf).mp ((order.mem_arrange _ _).mp listed)).1
    have positive := Finset.card_pos.mpr ⟨leaf, member⟩
    omega
  | succ fuel inductionHypothesis =>
    cases popped : order.arrange k.leaves with
    | nil => exact pushVotes_done order grounded counting holds popped
    | cons leaf others =>
      have isLeaf : leaf ∈ k.leaves := (order.mem_arrange _ _).mp (popped ▸ List.mem_cons_self)
      have member := ((counting.leaves leaf).mp isLeaf).1
      have fewer : (waiting.erase leaf).card ≤ fuel := by
        rw [Finset.card_erase_of_mem member]
        omega
      obtain ⟨n, found⟩ := Finmap.mem_iff.mp (counting.inside leaf member)
      unfold Topological.pushVotes
      rw [popped]
      dsimp only
      rw [found, height]
      dsimp only
      by_cases atRoot : leaf = ts.lastAcceptedID
      · subst atRoot
        obtain rfl := counting.eq_singleton grounded isLeaf
        have noLeaves : k.leaves.erase ts.lastAcceptedID = ∅ := by
          apply Finset.eq_empty_of_forall_notMem
          intro id listed
          obtain ⟨apart, isLeaf⟩ := Finset.mem_erase.mp listed
          exact apart (Finset.mem_singleton.mp ((counting.leaves id).mp isLeaf).1)
        rw [grounded.pending_root found, noLeaves]
        exact inductionHypothesis ∅ _ _ (Counting.empty _)
          (popRoot k stack holds isLeaf counting) (Nat.zero_le _)
      · have parentWaits :=
          (counting.edges leaf (Finset.mem_erase.mpr ⟨atRoot, member⟩)).2.2
        have apart := grounded.parent_ne (counting.inside leaf member) atRoot
        have kept := fun degree leaves => pop waiting k stack leaf degree leaves holds isLeaf
          member atRoot parentWaits apart counting
        rw [grounded.pending_other found atRoot]
        dsimp only [Lineage.block]
        split
        · rename_i last
          have next := counting.pop grounded isLeaf atRoot
            (insert (l.parent leaf) (k.leaves.erase leaf))
            (by intro id; rw [Finset.mem_insert, or_comm]; simp [last])
          exact inductionHypothesis (waiting.erase leaf) _ _ next (kept _ _) fewer
        · rename_i more
          have next := counting.pop grounded isLeaf atRoot (k.leaves.erase leaf)
            (by intro id; simp [more])
          exact inductionHypothesis (waiting.erase leaf) _ _ next (kept _ _) fewer

/-- What `pushVotes` keeps: no votes are added, and the stack is a branch that continues. -/
structure Climbs (l : Lineage) (ts : Topological F) (total : ℤ) (waiting : Finset ID) (k : Kahn)
    (stack : List Votes) : Prop where
  bound : (k.weight waiting : ℤ) ≤ total
  branch : Branch l ts.lastAcceptedID ts.blocks stack
  continues : Continues l ts.lastAcceptedID ts.params.alphaPreference waiting k stack

/-- Popping the root. -/
theorem Climbs.popRoot {total : ℤ} {k : Kahn} {stack : List Votes}
    (climbs : Climbs l ts total {ts.lastAcceptedID} k stack)
    (grounded : Grounded l ts.lastAcceptedID ts.blocks)
    (majority : total < 2 * ts.params.alphaPreference)
    (counting : Counting l ts.lastAcceptedID ts.blocks {ts.lastAcceptedID}
      (({ts.lastAcceptedID} : Finset ID).erase ts.lastAcceptedID) k) (after : Kahn) :
    Climbs l ts total ∅ after (pushed ts.params.alphaPreference k ts.lastAcceptedID stack) where
  bound := (Int.natCast_nonneg _).trans climbs.bound
  branch := climbs.branch.push grounded counting climbs.continues majority climbs.bound
    (Finset.mem_singleton_self _)
  continues := climbs.continues.pop_root rfl _

/-- Popping another leaf. -/
theorem Climbs.pop {total : ℤ} {waiting : Finset ID} {k : Kahn} {stack : List Votes}
    (climbs : Climbs l ts total waiting k stack)
    (grounded : Grounded l ts.lastAcceptedID ts.blocks)
    (majority : total < 2 * ts.params.alphaPreference)
    (counting : Counting l ts.lastAcceptedID ts.blocks waiting (waiting.erase ts.lastAcceptedID) k)
    {leaf : ID} (member : leaf ∈ waiting) (other : leaf ≠ ts.lastAcceptedID)
    (parentWaits : l.parent leaf ∈ waiting) (apart : l.parent leaf ≠ leaf) (degree : ℤ)
    (leaves : Finset ID) :
    Climbs l ts total (waiting.erase leaf)
      (k.write (l.parent leaf) ⟨degree, (k.node (l.parent leaf)).votes +
        Multiset.replicate (k.node leaf).votes.card leaf⟩ leaves)
      (pushed ts.params.alphaPreference k leaf stack) where
  bound := by
    rw [Counting.weight_pop k member parentWaits apart]
    exact climbs.bound
  branch := climbs.branch.push grounded counting climbs.continues majority climbs.bound member
  continues := climbs.continues.pop member other parentWaits apart degree leaves

/-- In the end the stack begins at the root. -/
theorem Climbs.pushed {total : ℤ} {k : Kahn} {stack : List Votes}
    (climbs : Climbs l ts total ∅ k stack) : Pushed l ts (some stack) :=
  ⟨stack, rfl, climbs.branch, fun _ _ shape => climbs.continues.ended shape⟩

include grounded height in
/-- `pushVotes` pops every waiting node and ends with a branch that begins at the root. -/
theorem pushVotes_law {total : ℤ} (majority : total < 2 * ts.params.alphaPreference) {fuel : ℕ}
    (waiting : Finset ID) (k : Kahn) (stack : List Votes)
    (counting : Counting l ts.lastAcceptedID ts.blocks waiting (waiting.erase ts.lastAcceptedID) k)
    (climbs : Climbs l ts total waiting k stack) (enough : waiting.card ≤ fuel) :
    Pushed l ts (ts.pushVotes order fuel k stack) := by
  obtain ⟨last, voteStack, result, ended⟩ := pushVotes_invariant order grounded height
    (Climbs l ts total)
    (fun k _ climbs _ counting => climbs.popRoot grounded majority counting _)
    (fun _ _ _ _ degree leaves climbs _ member other parentWaits apart counting =>
      climbs.pop grounded majority counting member other parentWaits apart degree leaves)
    waiting k stack counting climbs enough
  rw [result]
  exact ended.pushed

include grounded height in
/-- The votes that are recorded for a bag of at most `k` votes. -/
theorem voteStack_law (orders : PollOrders) (valid : ts.params.verify = none) {bag : Multiset ID}
    (bounded : (bag.card : ℤ) ≤ ts.params.k) : Pushed l ts (ts.voteStack orders bag) := by
  have majority := (Parameters.majority valid).2
  have noVotes : Branch l ts.lastAcceptedID ts.blocks [] :=
    ⟨List.isChain_nil, fun _ impossible => absurd impossible List.not_mem_nil⟩
  unfold Topological.voteStack
  split
  · obtain ⟨k, result, counting, weight⟩ :=
      calculateInDegree_law grounded height orders.votes bag
    rw [result]
    exact pushVotes_law orders.leaves grounded height majority k.nodes.keys k [] counting
      ⟨by omega, noVotes, fun _ _ impossible => nomatch impossible⟩ (Nat.le_refl _)
  · exact ⟨[], rfl, noVotes, fun _ _ impossible => nomatch impossible⟩

end PushVotes

end AvalancheParallel.Snowman
