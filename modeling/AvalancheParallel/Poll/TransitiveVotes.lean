import AvalancheParallel.Poll.VoteGraph

/-!
# Votes counted through the graph

The traversals of `default/snow/consensus/snowman/poll/graph.go` and the transitive vote
count. A traversal is the list of the vertices on which its argument is invoked: the
argument does not change the graph. The depth of the graph is at most its number of
vertices, and each layer of the topological order has at least one of them.

In the bag of transitive votes each block has the votes for it and for its descendants.
-/

namespace AvalancheParallel.Poll

open AvalancheParallel.Ids AvalancheParallel.RangeLoop AvalancheParallel.FiniteDag
  AvalancheParallel.Forest AvalancheParallel.DependencyOrder

/-- `voteVertex.traverse`: a vertex before its descendants. -/
def traverseFrom (vertices : GoMap ID VoteVertex) : ℕ → ID → List VoteVertex
  | 0, _ => []
  | fuel + 1, id =>
    match vertices.lookup id with
    | none => []
    | some v => v :: v.descendants.flatMap (traverseFrom vertices fuel)

/-- `voteGraph.traverse`. -/
def VoteGraph.traverse (graph : VoteGraph) : List VoteVertex :=
  graph.roots.flatMap (traverseFrom graph.vertices graph.vertexCount)

/-- The parent a vertex refers to. -/
def VoteGraph.parent (graph : VoteGraph) (id : ID) : Option ID :=
  (graph.vertices.lookup id).bind VoteVertex.parent

/-- The number of descendants of each vertex, as `topologicalSortTraversal` counts them. -/
def VoteGraph.childCount (graph : VoteGraph) : GoMap ID ℤ :=
  graph.traverse.foldl (fun childCount v => childCount.insert v.id (v.descendants.length : ℤ)) ∅

/-- The body of the inner loop of `topologicalSortTraversal`, on the counts and the new
leaves. -/
def VoteGraph.removeLeaf (graph : VoteGraph) (counted : GoMap ID ℤ × List ID) (leaf : ID) :
    GoMap ID ℤ × List ID :=
  match graph.parent leaf with
  | none => counted
  | some parent =>
    let count := (counted.1.lookup parent).getD 0 - 1
    (counted.1.insert parent count, if count = 0 then counted.2 ++ [parent] else counted.2)

/-- The outer loop of `topologicalSortTraversal`: one layer of leaves after another. -/
def VoteGraph.layers (graph : VoteGraph) : ℕ → GoMap ID ℤ → List ID → List ID
  | 0, _, _ => []
  | _ + 1, _, [] => []
  | fuel + 1, childCount, leaf :: leaves =>
    let counted := (leaf :: leaves).foldl graph.removeLeaf (childCount, [])
    (leaf :: leaves) ++ graph.layers fuel counted.1 counted.2

/-- `topologicalSortTraversal`. -/
def VoteGraph.topologicalSortTraversal (graph : VoteGraph) : List ID :=
  graph.layers graph.vertexCount graph.childCount graph.leaves

/-- `computeTransitiveVoteCountGraph`. -/
def computeTransitiveVoteCountGraph (graph : VoteGraph) (votes : Multiset ID) : Multiset ID :=
  graph.topologicalSortTraversal.foldl
    (fun transitiveClosureVotes id =>
      match graph.parent id with
      | none => transitiveClosureVotes
      | some parent => transitiveClosureVotes +
          Multiset.replicate (transitiveClosureVotes.count id) parent) votes

section Traversal

variable {vertices : GoMap ID VoteVertex} {fuel : ℕ} {id : ID} {v : VoteVertex}

/-- The visit of a stored vertex: the vertex itself, then those below its descendants. -/
theorem mem_traverseFrom_step : v ∈ traverseFrom vertices (fuel + 1) id ↔
    ∃ top, vertices.lookup id = some top ∧
      (v = top ∨ ∃ child ∈ top.descendants, v ∈ traverseFrom vertices fuel child) := by
  rw [traverseFrom]
  cases vertices.lookup id with
  | none => simp
  | some top => simp only [List.mem_cons, List.mem_flatMap, Option.some.injEq, exists_eq_left']

/-- More fuel visits more. -/
theorem mem_traverseFrom_succ (visited : v ∈ traverseFrom vertices fuel id) :
    v ∈ traverseFrom vertices (fuel + 1) id := by
  induction fuel generalizing id with
  | zero => exact absurd visited List.not_mem_nil
  | succ fuel inductionHypothesis =>
    obtain ⟨top, found, same | ⟨child, listed, reached⟩⟩ := mem_traverseFrom_step.mp visited
    · exact mem_traverseFrom_step.mpr ⟨top, found, .inl same⟩
    · exact mem_traverseFrom_step.mpr
        ⟨top, found, .inr ⟨child, listed, inductionHypothesis reached⟩⟩

/-- What is visited stays visited with more fuel. -/
theorem mem_traverseFrom_le {more : ℕ} (enough : fuel ≤ more)
    (visited : v ∈ traverseFrom vertices fuel id) : v ∈ traverseFrom vertices more id := by
  induction enough with
  | refl => exact visited
  | step _ inductionHypothesis => exact mem_traverseFrom_succ inductionHypothesis

/-- The children of a vertex are visited one level deeper. -/
theorem mem_traverseFrom_child {child : ID} {w : VoteVertex}
    (visited : v ∈ traverseFrom vertices fuel id) (listed : child ∈ v.descendants)
    (stored : vertices.lookup child = some w) : w ∈ traverseFrom vertices (fuel + 1) id := by
  induction fuel generalizing id with
  | zero => exact absurd visited List.not_mem_nil
  | succ fuel inductionHypothesis =>
    obtain ⟨top, found, rfl | ⟨between, member, reached⟩⟩ := mem_traverseFrom_step.mp visited
    · have below : w ∈ traverseFrom vertices (fuel + 1) child :=
        mem_traverseFrom_step.mpr ⟨w, stored, .inl rfl⟩
      exact mem_traverseFrom_step.mpr ⟨v, found, .inr ⟨child, listed, below⟩⟩
    · exact mem_traverseFrom_step.mpr
        ⟨top, found, .inr ⟨between, member, inductionHypothesis reached⟩⟩

/-- Only vertices of the graph are visited. -/
theorem stored_of_mem_traverseFrom (visited : v ∈ traverseFrom vertices fuel id) :
    ∃ reached, vertices.lookup reached = some v := by
  induction fuel generalizing id with
  | zero => exact absurd visited List.not_mem_nil
  | succ fuel inductionHypothesis =>
    obtain ⟨top, found, rfl | ⟨_, _, reached⟩⟩ := mem_traverseFrom_step.mp visited
    · exact ⟨id, found⟩
    · exact inductionHypothesis reached

variable {getParent : ID → Option ID} {nodes : Finset ID} {graph : VoteGraph}

/-- A block is visited at the depth given by its ancestors. -/
theorem Represents.mem_traverseFrom (represents : Represents getParent nodes graph)
    (acyclic : Acyclic (ChildOf getParent)) {id : ID} (inside : id ∈ nodes) {v : VoteVertex}
    (stored : graph.vertices.lookup id = some v) :
    ∃ root ∈ graph.roots,
      v ∈ traverseFrom graph.vertices (ancestors getParent nodes id).card root := by
  generalize depth : (ancestors getParent nodes id).card = count
  induction count generalizing id v with
  | zero =>
    have own : id ∈ ancestors getParent nodes id := mem_ancestors_self inside
    rw [Finset.card_eq_zero.mp depth] at own
    exact absurd own (Finset.notMem_empty id)
  | succ count inductionHypothesis =>
    cases step : getParent id with
    | none =>
      refine ⟨id, (represents.mem_roots id).mpr ⟨inside, step⟩, ?_⟩
      simp [traverseFrom, stored]
    | some above =>
      have there : above ∈ nodes := represents.closed id inside above step
      obtain ⟨u, found, _, _, _, children⟩ := represents.stored above there
      have shallower := card_ancestors acyclic inside step
      obtain ⟨root, member, reached⟩ := inductionHypothesis there found (by omega)
      exact ⟨root, member,
        mem_traverseFrom_child reached ((children id).mpr ⟨inside, step⟩) stored⟩

/-- The traversal visits every vertex. -/
theorem Represents.mem_traverse (represents : Represents getParent nodes graph)
    (acyclic : Acyclic (ChildOf getParent)) {id : ID} (inside : id ∈ nodes) {v : VoteVertex}
    (stored : graph.vertices.lookup id = some v) : v ∈ graph.traverse := by
  obtain ⟨root, member, reached⟩ := represents.mem_traverseFrom acyclic inside stored
  refine List.mem_flatMap.mpr ⟨root, member, mem_traverseFrom_le ?_ reached⟩
  rw [represents.vertexCount]
  exact card_ancestors_le nodes id

end Traversal

section Layers

variable {getParent : ID → Option ID} {nodes : Finset ID} {graph : VoteGraph}

/-- The graph has the parents of the blocks. -/
theorem Represents.parent_eq (represents : Represents getParent nodes graph) {id : ID}
    (inside : id ∈ nodes) : graph.parent id = getParent id := by
  obtain ⟨v, stored, _, parent, _⟩ := represents.stored id inside
  rw [VoteGraph.parent, stored, Option.bind_some, parent]

variable (getParent nodes) in
/-- The children of a block that have not been visited. -/
def unvisited (visited : List ID) (id : ID) : Finset ID :=
  nodes.filter (fun child => getParent child = some id ∧ child ∉ visited)

/-- The counts start with the numbers of children. -/
theorem Represents.lookup_childCount (represents : Represents getParent nodes graph)
    (acyclic : Acyclic (ChildOf getParent)) {id : ID} (inside : id ∈ nodes) :
    graph.childCount.lookup id = some ((unvisited getParent nodes [] id).card : ℤ) := by
  obtain ⟨v, stored, named, _, distinct, children⟩ := represents.stored id inside
  have counted : (unvisited getParent nodes [] id).card = v.descendants.length := by
    rw [← List.toFinset_card_of_nodup distinct]
    congr 1
    ext child
    simp [unvisited, children child]
  have visited := represents.mem_traverse acyclic inside stored
  have written := lookup_foldl_insert VoteVertex.id (fun v => (v.descendants.length : ℤ))
    graph.traverse ∅ visited (by
      intro other member same
      obtain ⟨root, _, reached⟩ := List.mem_flatMap.mp member
      obtain ⟨key, found⟩ := stored_of_mem_traverseFrom reached
      have there : key ∈ nodes := represents.inside key other found
      obtain ⟨w, again, keyed, _⟩ := represents.stored key there
      obtain rfl : other = w := Option.some.inj (found.symm.trans again)
      rw [keyed, named] at same
      subst same
      rw [Option.some.inj (found.symm.trans stored)])
  rw [named] at written
  rw [counted]
  exact written

variable (getParent nodes) in
/-- Where a traversal by layers stands: the blocks visited come after their children, and
the blocks waiting are those whose children have all been visited. -/
structure Layered (visited waiting : List ID) (childCount : GoMap ID ℤ) : Prop where
  distinct : (visited ++ waiting).Nodup
  inside : ∀ id ∈ visited ++ waiting, id ∈ nodes
  ordered : Respects (Awaits getParent nodes) visited
  ready : ∀ id ∈ nodes, id ∈ visited ++ waiting ↔ unvisited getParent nodes visited id = ∅
  counts : ∀ id ∈ nodes,
    childCount.lookup id = some ((unvisited getParent nodes visited id).card : ℤ)

/-- The children of a node that have not been visited. -/
theorem mem_unvisited {visited : List ID} {id child : ID} :
    child ∈ unvisited getParent nodes visited id ↔
      child ∈ nodes ∧ getParent child = some id ∧ child ∉ visited :=
  Finset.mem_filter

/-- A visited leaf is an unvisited child no more. -/
theorem unvisited_snoc (visited : List ID) (leaf id : ID) :
    unvisited getParent nodes (visited ++ [leaf]) id =
      (unvisited getParent nodes visited id).erase leaf := by
  ext child
  simp only [mem_unvisited, Finset.mem_erase, List.mem_append, List.mem_singleton, not_or]
  tauto

/-- A visit matters to the parent only. -/
theorem unvisited_snoc_of_ne {visited : List ID} {leaf id : ID}
    (notParent : getParent leaf ≠ some id) :
    unvisited getParent nodes (visited ++ [leaf]) id = unvisited getParent nodes visited id := by
  rw [unvisited_snoc]
  exact Finset.erase_eq_of_notMem (fun member => notParent (mem_unvisited.mp member).2.1)

/-- What waits has all its children visited. -/
theorem Layered.children_visited {visited waiting : List ID} {childCount : GoMap ID ℤ}
    (layered : Layered getParent nodes visited waiting childCount) {id : ID}
    (listed : id ∈ visited ++ waiting) (child : ID) (awaited : Awaits getParent nodes id child) :
    child ∈ visited := by
  have none := (layered.ready id (layered.inside id listed)).mp listed
  by_contra missing
  have left := mem_unvisited.mpr ⟨awaited.1, awaited.2, missing⟩
  rw [none] at left
  exact absurd left (Finset.notMem_empty child)

/-- Visiting a leaf concerns its parent only. -/
theorem unvisited_snoc_other {visited : List ID} {leaf parent id : ID}
    (step : getParent leaf = some parent) (different : id ≠ parent) :
    unvisited getParent nodes (visited ++ [leaf]) id = unvisited getParent nodes visited id :=
  unvisited_snoc_of_ne (fun same => different (Option.some.inj (same.symm.trans step)))

/-- A node with an unvisited child has not been reached. -/
theorem Layered.parent_notMem {visited waiting : List ID} {childCount : GoMap ID ℤ}
    (layered : Layered getParent nodes visited waiting childCount) {leaf parent : ID}
    (there : parent ∈ nodes) (pending : leaf ∈ unvisited getParent nodes visited parent) :
    parent ∉ visited ++ waiting := by
  intro member
  rw [(layered.ready parent there).mp member] at pending
  exact absurd pending (Finset.notMem_empty leaf)

/-- Visiting a leaf decreases the count of its parent. -/
theorem Layered.counts_snoc {visited waiting : List ID} {childCount : GoMap ID ℤ}
    (layered : Layered getParent nodes visited waiting childCount) {leaf parent : ID}
    (pending : leaf ∈ unvisited getParent nodes visited parent) {id : ID} (inside : id ∈ nodes) :
    (childCount.insert parent ((childCount.lookup parent).getD 0 - 1)).lookup id =
      some ((unvisited getParent nodes (visited ++ [leaf]) id).card : ℤ) := by
  by_cases same : id = parent
  · subst same
    have positive := Finset.card_pos.mpr ⟨leaf, pending⟩
    rw [Finmap.lookup_insert, layered.counts id inside, Option.getD_some, unvisited_snoc,
      Finset.card_erase_of_mem pending]
    congr 1
    omega
  · have step := (mem_unvisited.mp pending).2.1
    rw [Finmap.lookup_insert_of_ne _ same, layered.counts id inside, unvisited_snoc_other step same]

/-- Visiting a leaf keeps the traversal by layers. -/
theorem Layered.removeLeaf (represents : Represents getParent nodes graph)
    {visited rest fresh : List ID} {leaf : ID} {childCount : GoMap ID ℤ}
    (layered : Layered getParent nodes visited (leaf :: rest ++ fresh) childCount) :
    let counted := graph.removeLeaf (childCount, fresh) leaf
    Layered getParent nodes (visited ++ [leaf]) (rest ++ counted.2) counted.1 := by
  have listed : leaf ∈ visited ++ (leaf :: rest ++ fresh) := by simp
  have inside : leaf ∈ nodes := layered.inside leaf listed
  have new : leaf ∉ visited := by
    have separate := List.nodup_append'.mp layered.distinct
    exact fun earlier => separate.2.2 earlier (by simp)
  have moved : visited ++ [leaf] ++ (rest ++ fresh) = visited ++ (leaf :: rest ++ fresh) := by simp
  have ordered := layered.ordered.snoc (layered.children_visited listed)
  unfold VoteGraph.removeLeaf
  rw [represents.parent_eq inside]
  cases step : getParent leaf with
  | none =>
    dsimp only
    refine ⟨moved ▸ layered.distinct, moved ▸ layered.inside, ordered, ?_, ?_⟩
    · intro id member
      rw [moved, unvisited_snoc_of_ne (by simp [step])]
      exact layered.ready id member
    · intro id member
      rw [unvisited_snoc_of_ne (by simp [step])]
      exact layered.counts id member
  | some parent =>
    have there : parent ∈ nodes := represents.closed leaf inside parent step
    have pending : leaf ∈ unvisited getParent nodes visited parent :=
      mem_unvisited.mpr ⟨inside, step, new⟩
    have absent := layered.parent_notMem there pending
    have counts : ∀ id ∈ nodes, (childCount.insert parent
        ((childCount.lookup parent).getD 0 - 1)).lookup id =
          some ((unvisited getParent nodes (visited ++ [leaf]) id).card : ℤ) :=
      fun id member => layered.counts_snoc pending member
    have decreased := counts parent there
    rw [Finmap.lookup_insert] at decreased
    replace decreased := Option.some.inj decreased
    dsimp only
    split
    · rename_i last
      -- the leaf was the last child of its parent, which joins the next layer
      have complete : unvisited getParent nodes (visited ++ [leaf]) parent = ∅ := by
        rw [decreased] at last
        exact Finset.card_eq_zero.mp (by exact_mod_cast last)
      have joined : visited ++ [leaf] ++ (rest ++ (fresh ++ [parent])) =
          (visited ++ (leaf :: rest ++ fresh)) ++ [parent] := by simp
      refine ⟨?_, ?_, ordered, ?_, counts⟩
      · rw [joined]
        refine List.nodup_append'.mpr ⟨layered.distinct, List.nodup_singleton _, ?_⟩
        exact fun id earlier same => absent (List.mem_singleton.mp same ▸ earlier)
      · rw [joined]
        intro id member
        cases List.mem_append.mp member with
        | inl earlier => exact layered.inside id earlier
        | inr same => exact List.mem_singleton.mp same ▸ there
      · intro id member
        rw [joined, List.mem_append, List.mem_singleton]
        by_cases same : id = parent
        · subst same
          exact iff_of_true (Or.inr rfl) complete
        · rw [unvisited_snoc_other step same, ← layered.ready id member]
          simp [same]
    · rename_i more
      refine ⟨moved ▸ layered.distinct, moved ▸ layered.inside, ordered, ?_, counts⟩
      intro id member
      rw [moved]
      by_cases same : id = parent
      · subst same
        refine iff_of_false absent ?_
        intro complete
        rw [decreased, complete] at more
        exact more rfl
      · rw [unvisited_snoc_other step same]
        exact layered.ready id member

/-- Visiting a layer keeps the traversal by layers. -/
theorem Layered.layer (represents : Represents getParent nodes graph)
    {visited leaves fresh : List ID} {childCount : GoMap ID ℤ}
    (layered : Layered getParent nodes visited (leaves ++ fresh) childCount) :
    let counted := leaves.foldl graph.removeLeaf (childCount, fresh)
    Layered getParent nodes (visited ++ leaves) counted.2 counted.1 := by
  induction leaves generalizing visited fresh childCount with
  | nil => simpa using layered
  | cons leaf rest inductionHypothesis =>
    have next := inductionHypothesis (layered.removeLeaf represents)
    rw [List.append_assoc] at next
    exact next

/-- The layers visit blocks until none waits. -/
theorem Layered.layers (represents : Represents getParent nodes graph) (fuel : ℕ)
    {visited waiting : List ID} {childCount : GoMap ID ℤ}
    (layered : Layered getParent nodes visited waiting childCount)
    (room : nodes.card ≤ fuel + visited.length) :
    ∃ remaining, Layered getParent nodes (visited ++ graph.layers fuel childCount waiting) []
      remaining := by
  induction fuel generalizing visited waiting childCount with
  | zero =>
    have bound : (visited ++ waiting).length ≤ nodes.card := by
      rw [← List.toFinset_card_of_nodup layered.distinct]
      exact Finset.card_le_card (fun id member =>
        layered.inside id (List.mem_toFinset.mp member))
    rw [List.length_append] at bound
    obtain rfl : waiting = [] := List.length_eq_zero_iff.mp (by omega)
    exact ⟨childCount, by simpa [VoteGraph.layers] using layered⟩
  | succ fuel inductionHypothesis =>
    cases waiting with
    | nil => exact ⟨childCount, by simpa [VoteGraph.layers] using layered⟩
    | cons leaf leaves =>
      have whole : Layered getParent nodes visited ((leaf :: leaves) ++ []) childCount := by
        simpa using layered
      have next := whole.layer represents
      obtain ⟨remaining, final⟩ := inductionHypothesis next
        (by rw [List.length_append, List.length_cons]; omega)
      refine ⟨remaining, ?_⟩
      rw [VoteGraph.layers, ← List.append_assoc]
      exact final

/-- Every block is visited, once, after its children. -/
theorem Represents.topologicalSortTraversal_law (represents : Represents getParent nodes graph)
    (acyclic : Acyclic (ChildOf getParent)) :
    graph.topologicalSortTraversal.Nodup ∧
      (∀ id, id ∈ graph.topologicalSortTraversal ↔ id ∈ nodes) ∧
      Respects (Awaits getParent nodes) graph.topologicalSortTraversal := by
  have start : Layered getParent nodes [] graph.leaves graph.childCount := by
    refine ⟨represents.leaves_nodup, ?_, ?_, ?_, ?_⟩
    · exact fun id member => ((represents.mem_leaves id).mp member).1
    · intro before element after split
      cases before <;> cases split
    · intro id member
      rw [List.nil_append, represents.mem_leaves, and_iff_right member,
        Finset.eq_empty_iff_forall_notMem]
      simp [mem_unvisited]
    · exact fun id member => represents.lookup_childCount acyclic member
  obtain ⟨remaining, final⟩ := start.layers represents graph.vertexCount
    (by rw [represents.vertexCount]; exact Nat.le_add_right _ _)
  rw [List.nil_append] at final
  change Layered getParent nodes graph.topologicalSortTraversal [] remaining at final
  have inside := final.inside
  have distinct := final.distinct
  rw [List.append_nil] at inside distinct
  have downward : ∀ id child, Relation.TransGen (Awaits getParent nodes) id child →
      child ∈ nodes ∧ Relation.TransGen (ChildOf getParent) child id := by
    intro id child path
    induction path with
    | single edge => exact ⟨edge.1, Relation.TransGen.single edge.2⟩
    | tail _ edge inductionHypothesis =>
      exact ⟨edge.1, Relation.TransGen.head edge.2 inductionHypothesis.2⟩
  refine ⟨distinct, ?_, final.ordered⟩
  intro id
  rw [executed_iff (fun element cycle => acyclic element (downward element element cycle).2) nodes
    inside final.ordered]
  · exact and_iff_left (fun child path => (downward id child path).1)
  · intro element member left
    have waits : unvisited getParent nodes graph.topologicalSortTraversal element ≠ ∅ := by
      intro complete
      have listed := (final.ready element member).mpr complete
      rw [List.append_nil] at listed
      exact left listed
    obtain ⟨child, pending⟩ := Finset.nonempty_iff_ne_empty.mpr waits
    obtain ⟨there, step, missing⟩ := mem_unvisited.mp pending
    exact ⟨child, ⟨there, step⟩, missing⟩

/-- Each block has the votes for it and its descendants. -/
theorem Represents.count_transitiveVotes (represents : Represents getParent nodes graph)
    (acyclic : Acyclic (ChildOf getParent)) {votes : Multiset ID}
    (inside : ∀ vote ∈ votes, vote ∈ nodes) (id : ID) :
    (computeTransitiveVoteCountGraph graph votes).count id = total getParent votes id := by
  obtain ⟨distinct, all, ordered⟩ := represents.topologicalSortTraversal_law acyclic
  have pushed : computeTransitiveVoteCountGraph graph votes =
      graph.topologicalSortTraversal.foldl (pushUp getParent) votes := by
    refine List.foldl_ext _ _ _ ?_
    intro bag node member
    rw [represents.parent_eq ((all node).mp member), pushUp]
    cases getParent node <;> rfl
  rw [pushed, count_foldl_pushUp_all acyclic represents.closed inside distinct all ordered]

end Layers

end AvalancheParallel.Poll
