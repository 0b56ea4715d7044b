import AvalancheParallel.Foundation.Forest
import AvalancheParallel.Ids

/-!
# The graph of the blocks voted for

`buildVoteGraph` of `default/snow/consensus/snowman/poll/graph.go`. The graph has a vertex
for each block voted for and for each of its ancestors that is not finalized. Vertices
refer to their parent and to their children; references are identifiers, and the graph
carries the vertices they refer to. The votes and the vertices are visited in orders that
the code does not control.

A graph that has been built represents the block tree on a set of blocks that holds the
votes and the parents of its blocks.
-/

namespace AvalancheParallel.Poll

open AvalancheParallel.Ids AvalancheParallel.RangeLoop AvalancheParallel.FiniteDag
  AvalancheParallel.Forest

/-- `BlockTraversal`: the parents of blocks that are not finalized. No block is its own
ancestor. -/
structure BlockTraversal where
  getParent : ID → Option ID
  acyclic : Acyclic (ChildOf getParent)

/-- `voteVertex`. -/
structure VoteVertex where
  id : ID
  parent : Option ID
  descendants : List ID
deriving DecidableEq

/-- `voteGraph`, with the vertices its references point to. -/
structure VoteGraph where
  vertices : GoMap ID VoteVertex
  vertexCount : ℕ
  leaves : List ID
  roots : List ID

/-- The orders in which one evaluation of a poll visits its maps. -/
structure PollOrders where
  votes : IterationOrder ID
  vertices : IterationOrder ID
  leaves : IterationOrder ID
  transitiveVotes : IterationOrder ID

/-- The number of identifiers, which bounds the number of rounds that add a new one. -/
def idCount : ℕ := 256 ^ 32

variable (getParent : ID → Option ID)

/-- `addIDAndAncestorsToGraph`. -/
def addIDAndAncestorsToGraph : ℕ → ID → GoMap ID VoteVertex → GoMap ID VoteVertex
  | 0, _, id2Vertex => id2Vertex
  | fuel + 1, id, id2Vertex =>
    if id ∈ id2Vertex then id2Vertex
    else
      let added := id2Vertex.insert id ⟨id, none, []⟩
      match getParent id with
      | none => added
      | some parent => addIDAndAncestorsToGraph fuel parent added

/-- Write to the vertex behind a reference. -/
def updateVertex (vertices : GoMap ID VoteVertex) (id : ID) (change : VoteVertex → VoteVertex) :
    GoMap ID VoteVertex :=
  match vertices.lookup id with
  | none => vertices
  | some v => vertices.insert id (change v)

/-- The body of the loop of `buildVoteGraph` that links a vertex to its parent. -/
def linkVertex (linked : GoMap ID VoteVertex × List ID) (id : ID) :
    GoMap ID VoteVertex × List ID :=
  match getParent id with
  | none => (linked.1, linked.2 ++ [id])
  | some parent =>
    match linked.1.lookup parent with
    | some _ =>
      let child := updateVertex linked.1 id (fun v => { v with parent := some parent })
      (updateVertex child parent (fun u => { u with descendants := u.descendants ++ [id] }),
        linked.2)
    | none => (linked.1, linked.2 ++ [id])

/-- `findLeaves`. -/
def findLeaves (order : IterationOrder ID) (idToVertex : GoMap ID VoteVertex) : List ID :=
  (order.arrange idToVertex.keys).filter (fun id =>
    match idToVertex.lookup id with
    | some v => v.descendants.isEmpty
    | none => false)

/-- `buildVoteGraph`. -/
def buildVoteGraph (orders : PollOrders) (votes : Multiset ID) : VoteGraph :=
  let id2Vertex := (orders.votes.arrange votes.toFinset).foldl
    (fun id2Vertex id => addIDAndAncestorsToGraph getParent idCount id id2Vertex) ∅
  let linked := (orders.vertices.arrange id2Vertex.keys).foldl (linkVertex getParent)
    (id2Vertex, [])
  { vertices := linked.1
    vertexCount := id2Vertex.keys.card
    leaves := findLeaves orders.leaves linked.1
    roots := linked.2 }

/-- The graph represents the block tree on a set of blocks. -/
structure Represents (nodes : Finset ID) (graph : VoteGraph) : Prop where
  closed : Closed getParent nodes
  stored : ∀ id ∈ nodes, ∃ v, graph.vertices.lookup id = some v ∧ v.id = id ∧
    v.parent = getParent id ∧ v.descendants.Nodup ∧
    ∀ child, child ∈ v.descendants ↔ child ∈ nodes ∧ getParent child = some id
  inside : ∀ id v, graph.vertices.lookup id = some v → id ∈ nodes
  vertexCount : graph.vertexCount = nodes.card
  leaves_nodup : graph.leaves.Nodup
  mem_leaves : ∀ id, id ∈ graph.leaves ↔
    id ∈ nodes ∧ ∀ child ∈ nodes, getParent child ≠ some id
  mem_roots : ∀ id, id ∈ graph.roots ↔ id ∈ nodes ∧ getParent id = none

section Gathering

/-- The vertices are not linked yet. -/
def Bare (vertices : GoMap ID VoteVertex) : Prop :=
  ∀ id v, vertices.lookup id = some v → v = ⟨id, none, []⟩

variable {getParent}

/-- A new vertex has neither parent nor children. -/
theorem Bare.insert {vertices : GoMap ID VoteVertex} (bare : Bare vertices) (id : ID) :
    Bare (vertices.insert id ⟨id, none, []⟩) := by
  intro other v found
  rcases lookup_insert_cases found with ⟨rfl, rfl⟩ | ⟨_, earlier⟩
  · rfl
  · exact bare other v earlier

/-- The loop adds the identifier and leaves no parent out. The parents missing before are at
most the identifier itself. -/
theorem addIDAndAncestorsToGraph_law (fuel : ℕ) (id : ID) (id2Vertex : GoMap ID VoteVertex)
    (bare : Bare id2Vertex) (room : idCount ≤ fuel + id2Vertex.keys.card)
    (almost : ClosedBut getParent id2Vertex.keys id) :
    Bare (addIDAndAncestorsToGraph getParent fuel id id2Vertex) ∧
      Closed getParent (addIDAndAncestorsToGraph getParent fuel id id2Vertex).keys ∧
      insert id id2Vertex.keys ⊆ (addIDAndAncestorsToGraph getParent fuel id id2Vertex).keys := by
  induction fuel generalizing id id2Vertex with
  | zero =>
    have full : id ∈ id2Vertex.keys := by
      by_contra absent
      have bound := card_le_pow (insert id id2Vertex.keys)
      rw [Finset.card_insert_of_notMem absent] at bound
      unfold idCount at room
      omega
    exact ⟨bare, almost.closed full, by simp [addIDAndAncestorsToGraph, full]⟩
  | succ fuel inductionHypothesis =>
    rw [addIDAndAncestorsToGraph]
    split
    · rename_i known
      have there : id ∈ id2Vertex.keys := Finmap.mem_keys.mpr known
      exact ⟨bare, almost.closed there,
        Finset.insert_subset_iff.mpr ⟨there, Finset.Subset.refl _⟩⟩
    · rename_i unknown
      have absent : id ∉ id2Vertex.keys := fun member => unknown (Finmap.mem_keys.mp member)
      have keys := keys_insert id2Vertex id ⟨id, none, []⟩
      cases step : getParent id with
      | none =>
        dsimp only
        rw [keys]
        have complete : ClosedBut getParent (insert id id2Vertex.keys) id :=
          almost.insert (fun node above => by rw [step] at above; cases above)
        exact ⟨bare.insert id, complete.closed (Finset.mem_insert_self _ _), Finset.Subset.refl _⟩
      | some parent =>
        have next : ClosedBut getParent (id2Vertex.insert id ⟨id, none, []⟩).keys parent := by
          rw [keys]
          exact almost.insert (fun node above => Option.some.inj (above.symm.trans step))
        obtain ⟨stillBare, closed, grown⟩ := inductionHypothesis parent _ (bare.insert id)
          (by rw [keys, Finset.card_insert_of_notMem absent]; omega) next
        rw [keys] at grown
        exact ⟨stillBare, closed, (Finset.subset_insert _ _).trans grown⟩

/-- The vertices of the blocks voted for and of their ancestors are gathered. -/
theorem gather_law (ids : List ID) (id2Vertex : GoMap ID VoteVertex) (bare : Bare id2Vertex)
    (closed : Closed getParent id2Vertex.keys) :
    let gathered := ids.foldl
      (fun id2Vertex id => addIDAndAncestorsToGraph getParent idCount id id2Vertex) id2Vertex
    Bare gathered ∧ Closed getParent gathered.keys ∧ id2Vertex.keys ⊆ gathered.keys ∧
      ∀ id ∈ ids, id ∈ gathered.keys := by
  induction ids generalizing id2Vertex with
  | nil =>
    exact ⟨bare, closed, Finset.Subset.refl _, fun id member => absurd member List.not_mem_nil⟩
  | cons id rest inductionHypothesis =>
    obtain ⟨oneBare, oneClosed, grown⟩ := addIDAndAncestorsToGraph_law idCount id id2Vertex bare
      (Nat.le_add_right _ _) (fun node member above step => Or.inl (closed node member above step))
    obtain ⟨allBare, allClosed, kept, all⟩ := inductionHypothesis _ oneBare oneClosed
    refine ⟨allBare, allClosed, ((Finset.subset_insert _ _).trans grown).trans kept, ?_⟩
    intro other member
    cases List.mem_cons.mp member with
    | inl same => exact same ▸ kept (grown (Finset.mem_insert_self _ _))
    | inr later => exact all other later

end Gathering

section Linking

/-- A lookup after a vertex is changed. -/
theorem lookup_updateVertex (vertices : GoMap ID VoteVertex) (id other : ID)
    (change : VoteVertex → VoteVertex) :
    (updateVertex vertices id change).lookup other =
      if other = id then (vertices.lookup id).map change else vertices.lookup other := by
  unfold updateVertex
  by_cases same : other = id
  · subst same
    cases found : vertices.lookup other with
    | none => simp [found]
    | some v => simp
  · cases found : vertices.lookup id with
    | none => simp [same]
    | some v => simp [Finmap.lookup_insert_of_ne _ same, same]

/-- A vertex after the vertices of some blocks have been linked. -/
def linkedVertex (done : List ID) (id : ID) : VoteVertex :=
  ⟨id, if id ∈ done then getParent id else none,
    done.filter (fun child => decide (getParent child = some id))⟩

/-- The blocks that are done are linked to their parents. -/
structure Linked (nodes : Finset ID) (done : List ID)
    (linked : GoMap ID VoteVertex × List ID) : Prop where
  lookup : ∀ id, linked.1.lookup id = if id ∈ nodes then some (linkedVertex getParent done id)
    else none
  roots : linked.2 = done.filter (fun id => decide (getParent id = none))

variable {getParent}

/-- Linking one more vertex to its parent. -/
theorem linkVertex_law {nodes : Finset ID} (closed : Closed getParent nodes) {done : List ID}
    {linked : GoMap ID VoteVertex × List ID} (before : Linked getParent nodes done linked)
    {next : ID} (inside : next ∈ nodes) (fresh : next ∉ done) :
    Linked getParent nodes (done ++ [next]) (linkVertex getParent linked next) := by
  unfold linkVertex
  split
  · rename_i final
    refine ⟨?_, by rw [before.roots, List.filter_append]; simp [final]⟩
    intro id
    rw [before.lookup id]
    by_cases same : id = next
    · subst same
      simp [linkedVertex, final, fresh, List.filter_append]
    · simp [linkedVertex, final, same, List.filter_append]
  · rename_i parent step
    have there : parent ∈ nodes := closed next inside parent step
    rw [before.lookup parent, if_pos there]
    dsimp only
    refine ⟨?_, by rw [before.roots, List.filter_append]; simp [step]⟩
    intro id
    rw [lookup_updateVertex, lookup_updateVertex, lookup_updateVertex, before.lookup,
      before.lookup, before.lookup, if_pos there, if_pos inside]
    by_cases above : id = parent
    · subst above
      by_cases same : id = next
      · subst same
        simp [linkedVertex, step, there, List.filter_append]
      · simp [linkedVertex, step, same, there, List.filter_append]
    · have notAbove : ¬ parent = id := fun equal => above equal.symm
      by_cases same : id = next
      · subst same
        simp [linkedVertex, step, above, notAbove, inside, List.filter_append]
      · simp [linkedVertex, step, above, notAbove, same, List.filter_append]

/-- The loop links every vertex to its parent. -/
theorem link_law {nodes : Finset ID} (closed : Closed getParent nodes)
    {id2Vertex : GoMap ID VoteVertex} (bare : Bare id2Vertex) (keys : id2Vertex.keys = nodes)
    {done : List ID} (distinct : done.Nodup) (inside : ∀ id ∈ done, id ∈ nodes) :
    Linked getParent nodes done (done.foldl (linkVertex getParent) (id2Vertex, [])) := by
  induction done using List.reverseRecOn with
  | nil =>
    refine ⟨?_, rfl⟩
    intro id
    by_cases member : id ∈ nodes
    · obtain ⟨v, found⟩ := Finmap.mem_iff.mp (Finmap.mem_keys.mp (keys ▸ member))
      rw [List.foldl_nil, found, bare id v found]
      simp [linkedVertex, member]
    · have absent : id ∉ id2Vertex := fun stored => member (keys ▸ Finmap.mem_keys.mpr stored)
      rw [List.foldl_nil, if_neg member]
      exact Finmap.lookup_eq_none.mpr absent
  | append_singleton done next inductionHypothesis =>
    have separate := List.nodup_append'.mp distinct
    rw [List.foldl_append]
    refine linkVertex_law closed (inductionHypothesis separate.1 ?_) (inside next (by simp)) ?_
    · exact fun id member => inside id (List.mem_append_left _ member)
    · exact fun earlier => separate.2.2 earlier List.mem_cons_self

end Linking

variable {getParent}

/-- The graph built from votes represents the block tree on blocks that include those voted
for. -/
theorem buildVoteGraph_represents (orders : PollOrders) (votes : Multiset ID) :
    ∃ nodes, (∀ vote ∈ votes, vote ∈ nodes) ∧
      Represents getParent nodes (buildVoteGraph getParent orders votes) := by
  obtain ⟨bare, closed, _, all⟩ := @gather_law getParent
    (orders.votes.arrange votes.toFinset) ∅
    (fun id v found => by simp at found) (fun node member => by simp at member)
  let gathered := (orders.votes.arrange votes.toFinset).foldl
    (fun id2Vertex id => addIDAndAncestorsToGraph getParent idCount id id2Vertex) ∅
  let order := orders.vertices.arrange gathered.keys
  have listed : ∀ id, id ∈ order ↔ id ∈ gathered.keys := orders.vertices.mem_arrange gathered.keys
  have linked : Linked getParent gathered.keys order
      (order.foldl (linkVertex getParent) (gathered, [])) :=
    link_law closed bare rfl (orders.vertices.nodup _) (fun id => (listed id).mp)
  have children : ∀ id child, child ∈ (linkedVertex getParent order id).descendants ↔
      child ∈ gathered.keys ∧ getParent child = some id := by
    intro id child
    simp only [linkedVertex, List.mem_filter, listed, decide_eq_true_eq]
  have keys : (order.foldl (linkVertex getParent) (gathered, [])).1.keys = gathered.keys := by
    ext id
    rw [Finmap.mem_keys, ← Finmap.lookup_isSome, linked.lookup id]
    split <;> simp [*]
  refine ⟨gathered.keys, fun vote voted => all vote (by simpa using voted), ?_⟩
  refine ⟨closed, ?_, ?_, rfl, (orders.leaves.nodup _).filter _, ?_, ?_⟩
  · intro id member
    refine ⟨linkedVertex getParent order id, ?_, rfl, ?_, (orders.vertices.nodup _).filter _,
      children id⟩
    · exact (linked.lookup id).trans (if_pos member)
    · exact if_pos ((listed id).mpr member)
  · intro id v found
    rw [← keys]
    exact Finmap.mem_keys.mpr (Finmap.mem_of_lookup_eq_some found)
  · intro id
    change id ∈ findLeaves orders.leaves (order.foldl (linkVertex getParent) (gathered, [])).1 ↔ _
    rw [findLeaves, List.mem_filter, orders.leaves.mem_arrange, keys]
    refine and_congr_right ?_
    intro member
    rw [linked.lookup id, if_pos member]
    dsimp only
    rw [List.isEmpty_iff, List.eq_nil_iff_forall_not_mem]
    simp only [children, not_and]
  · intro id
    change id ∈ (order.foldl (linkVertex getParent) (gathered, [])).2 ↔ _
    rw [linked.roots, List.mem_filter, listed, decide_eq_true_eq]

end AvalancheParallel.Poll
