import AvalancheParallel.Consensus.RegistrationLaws

/-!
# The parallel DAG

`ParallelDAG` of `pkg/consensus/dag.go`. A vertex enters the DAG with the edges to
its parents; `reversedge` lists the children of each vertex and `frontier` the
vertices without children. Both are updated vertex by vertex. The DAG keeps any type
of vertex that has an ID; what `Parents` answers is an argument of the call, `none`
being an error.

`Represents` states how the three structures belong together. It holds after any
sequence of `AddVertex` calls whose `Parents` succeed, whether parents come before
their children, after them or never.
-/

namespace AvalancheParallel.Consensus

open AvalancheParallel.RangeLoop

/-- The maps of `ParallelDAG`. -/
structure ParallelDAG (V ID : Type) where
  vertices : GoMap ID V
  edges : GoMap ID (List ID)
  reversedge : GoMap ID (List ID)
  frontier : Finset ID

/-- `NewParallelDAG`: everything is empty. -/
def newParallelDAG {V ID : Type} : ParallelDAG V ID := ⟨∅, ∅, ∅, ∅⟩

variable {V ID : Type} [DecidableEq ID]

namespace ParallelDAG

/-- The parents recorded for a vertex; an absent entry has none. -/
def parentsOf (dag : ParallelDAG V ID) (vertexID : ID) : List ID :=
  (dag.edges.lookup vertexID).getD []

/-- The children recorded for a vertex; an absent entry has none. -/
def childrenOf (dag : ParallelDAG V ID) (parentID : ID) : List ID :=
  (dag.reversedge.lookup parentID).getD []

/-- One iteration of the loop over the parents of a new vertex. -/
def linkParent (vertexID : ID) (dag : ParallelDAG V ID) (parentID : ID) : ParallelDAG V ID :=
  { dag with
    reversedge := dag.reversedge.insert parentID (dag.childrenOf parentID ++ [vertexID])
    frontier := dag.frontier.erase parentID }

/-- The rest of `AddVertex` once `Parents` has answered. -/
def linkVertex (vertexID : ID) (parentIDs : List ID) (dag : ParallelDAG V ID) :
    ParallelDAG V ID :=
  let linked := parentIDs.foldl (linkParent vertexID) dag
  { linked with
    edges := linked.edges.insert vertexID parentIDs
    frontier := if vertexID ∈ linked.reversedge then linked.frontier
      else insert vertexID linked.frontier }

/-- `AddVertex`, with the error of `Parents`. A vertex stays in the map when `Parents` fails. -/
def addVertex (idOf : V → ID) (vertex : V) (parents : Option (List ID))
    (dag : ParallelDAG V ID) : ParallelDAG V ID × Option Failure :=
  if idOf vertex ∈ dag.vertices then (dag, none)
  else
    let stored := { dag with vertices := dag.vertices.insert (idOf vertex) vertex }
    match parents with
    | none => (stored, some .parents)
    | some parentIDs => (stored.linkVertex (idOf vertex) parentIDs, none)

/-- `GetVertex`; `none` is `ErrUnknownVertex`. -/
def getVertex (id : ID) (dag : ParallelDAG V ID) : Option V := dag.vertices.lookup id

/-- `GetFrontier`: the frontier vertices in the order in which the set is visited. -/
def getFrontier (order : IterationOrder ID) (dag : ParallelDAG V ID) : List V :=
  (order.arrange dag.frontier).filterMap dag.vertices.lookup

/-- `Size`. -/
def size (dag : ParallelDAG V ID) : ℕ := dag.vertices.keys.card

/-- The DAG after `AddVertex` calls on vertices whose `Parents` succeed. -/
abbrev addVertices (idOf : V → ID) (dag : ParallelDAG V ID) (vertices : List (V × List ID)) :
    ParallelDAG V ID :=
  Runs.run (fun dag entry => (addVertex idOf entry.1 (some entry.2) dag).1) dag vertices

/-- How the maps belong together: `reversedge` is the transpose of `edges`, edges are recorded
for exactly the vertices, and the frontier consists of the vertices that are a parent of no
vertex. Only vertices with children have an entry in `reversedge`. -/
structure Represents (dag : ParallelDAG V ID) : Prop where
  transpose : ∀ vertexID parentID,
    (dag.childrenOf parentID).count vertexID = (dag.parentsOf vertexID).count parentID
  keys : ∀ id, id ∈ dag.edges ↔ id ∈ dag.vertices
  frontier : ∀ id, id ∈ dag.frontier ↔
    id ∈ dag.vertices ∧ ∀ other ∈ dag.vertices, id ∉ dag.parentsOf other
  children : ∀ id, id ∈ dag.reversedge ↔ dag.childrenOf id ≠ []

/-- The new graph has no vertices. -/
theorem newParallelDAG_represents : (newParallelDAG : ParallelDAG V ID).Represents := by
  constructor <;> simp [newParallelDAG, childrenOf, parentsOf, Finmap.notMem_empty]

/-- The loop over the parents appends the vertex once for each occurrence. -/
theorem childrenOf_linkParents (vertexID : ID) (parentIDs : List ID) (dag : ParallelDAG V ID)
    (id : ID) :
    (parentIDs.foldl (linkParent vertexID) dag).childrenOf id =
      dag.childrenOf id ++ List.replicate (parentIDs.count id) vertexID := by
  induction parentIDs generalizing dag with
  | nil => simp
  | cons parentID rest inductionHypothesis =>
    rw [List.foldl_cons, inductionHypothesis, List.count_cons]
    by_cases same : parentID = id
    · subst same
      have here : (dag.linkParent vertexID parentID).childrenOf parentID =
          dag.childrenOf parentID ++ [vertexID] := by
        simp [linkParent, childrenOf]
      simp [here, List.replicate_succ]
    · have other : (dag.linkParent vertexID parentID).childrenOf id = dag.childrenOf id := by
        simp [linkParent, childrenOf, Finmap.lookup_insert_of_ne _ (Ne.symm same)]
      simp [other, same]

/-- The loop takes the parents out of the frontier and touches neither vertices nor edges. -/
theorem linkParents_frontier (vertexID : ID) (parentIDs : List ID) (dag : ParallelDAG V ID) :
    let linked := parentIDs.foldl (linkParent vertexID) dag
    linked.vertices = dag.vertices ∧ linked.edges = dag.edges ∧
      (∀ id, id ∈ linked.frontier ↔ id ∈ dag.frontier ∧ id ∉ parentIDs) ∧
      ∀ id, id ∈ linked.reversedge ↔ id ∈ dag.reversedge ∨ id ∈ parentIDs := by
  induction parentIDs generalizing dag with
  | nil => simp
  | cons parentID rest inductionHypothesis =>
    obtain ⟨vertices, edges, frontier, reversedge⟩ :=
      inductionHypothesis (dag.linkParent vertexID parentID)
    refine ⟨vertices, edges, ?_, ?_⟩
    · intro id
      rw [List.foldl_cons, frontier]
      simp only [linkParent, Finset.mem_erase, List.mem_cons, not_or]
      tauto
    · intro id
      rw [List.foldl_cons, reversedge]
      simp only [linkParent, Finmap.mem_insert, List.mem_cons]
      tauto

/-- Parents and children are the two ends of the same edges. -/
theorem Represents.mem_parentsOf {dag : ParallelDAG V ID} (represents : dag.Represents)
    (vertexID parentID : ID) :
    parentID ∈ dag.parentsOf vertexID ↔ vertexID ∈ dag.childrenOf parentID := by
  rw [← List.count_pos_iff, ← List.count_pos_iff, represents.transpose]

/-- Edges are recorded for vertices only. -/
theorem Represents.parentsOf_unknown {dag : ParallelDAG V ID} (represents : dag.Represents)
    {vertexID : ID} (unknown : vertexID ∉ dag.vertices) : dag.parentsOf vertexID = [] := by
  rw [← represents.keys, ← Finmap.lookup_eq_none] at unknown
  simp [parentsOf, unknown]

/-- A vertex has an entry in `reversedge` exactly when some vertex names it. -/
theorem Represents.mem_reversedge {dag : ParallelDAG V ID} (represents : dag.Represents) (id : ID) :
    id ∈ dag.reversedge ↔ ∃ other ∈ dag.vertices, id ∈ dag.parentsOf other := by
  rw [represents.children]
  constructor
  · intro nonempty
    obtain ⟨other, child⟩ := List.exists_mem_of_ne_nil _ nonempty
    have named := (represents.mem_parentsOf other id).mpr child
    refine ⟨other, ?_, named⟩
    by_contra unknown
    rw [represents.parentsOf_unknown unknown] at named
    cases named
  · rintro ⟨other, _, named⟩
    exact List.ne_nil_of_mem ((represents.mem_parentsOf other id).mp named)

/-- What linking a vertex does to each structure. -/
structure Linked (vertexID : ID) (parentIDs : List ID) (dag after : ParallelDAG V ID) : Prop where
  vertices : after.vertices = dag.vertices
  edges : after.edges = dag.edges.insert vertexID parentIDs
  childrenOf : ∀ id, after.childrenOf id =
    dag.childrenOf id ++ List.replicate (parentIDs.count id) vertexID
  reversedge : ∀ id, id ∈ after.reversedge ↔ id ∈ dag.reversedge ∨ id ∈ parentIDs
  frontier : ∀ id, id ∈ after.frontier ↔ id ∉ parentIDs ∧
    (id ∈ dag.frontier ∨ id = vertexID ∧ vertexID ∉ dag.reversedge)

/-- Linking a vertex records it with its parents and nothing else. -/
theorem linkVertex_linked (vertexID : ID) (parentIDs : List ID) (dag : ParallelDAG V ID) :
    Linked vertexID parentIDs dag (dag.linkVertex vertexID parentIDs) := by
  obtain ⟨vertices, edges, frontier, reversedge⟩ := linkParents_frontier vertexID parentIDs dag
  constructor
  · exact vertices
  · simp only [linkVertex, edges]
  · exact childrenOf_linkParents vertexID parentIDs dag
  · exact reversedge
  · intro id
    simp only [linkVertex]
    by_cases named : vertexID ∈ (parentIDs.foldl (linkParent vertexID) dag).reversedge
    · have entered := (reversedge vertexID).mp named
      rw [if_pos named, frontier]
      constructor
      · rintro ⟨before, outside⟩
        exact ⟨outside, Or.inl before⟩
      · rintro ⟨outside, before | ⟨rfl, unnamed⟩⟩
        · exact ⟨before, outside⟩
        · exact absurd entered (not_or.mpr ⟨unnamed, outside⟩)
    · obtain ⟨unnamed, outside⟩ := not_or.mp (mt (reversedge vertexID).mpr named)
      rw [if_neg named, Finset.mem_insert, frontier]
      constructor
      · rintro (rfl | ⟨before, other⟩)
        · exact ⟨outside, Or.inr ⟨rfl, unnamed⟩⟩
        · exact ⟨other, Or.inl before⟩
      · rintro ⟨other, before | ⟨rfl, _⟩⟩
        · exact Or.inr ⟨before, other⟩
        · exact Or.inl rfl

/-- The parents after a vertex is linked. -/
theorem Linked.parentsOf {vertexID : ID} {parentIDs : List ID} {dag after : ParallelDAG V ID}
    (linked : Linked vertexID parentIDs dag after) (id : ID) :
    after.parentsOf id = if id = vertexID then parentIDs else dag.parentsOf id := by
  unfold ParallelDAG.parentsOf
  rw [linked.edges]
  by_cases own : id = vertexID
  · rw [if_pos own, own, Finmap.lookup_insert, Option.getD_some]
  · rw [if_neg own, Finmap.lookup_insert_of_ne _ own]

/-- Linking a new vertex keeps the maps together. -/
theorem Represents.link {dag after : ParallelDAG V ID} (represents : dag.Represents) (vertex : V)
    {vertexID : ID} {parentIDs : List ID} (fresh : vertexID ∉ dag.vertices)
    (linked : Linked vertexID parentIDs
      { dag with vertices := dag.vertices.insert vertexID vertex } after) : after.Represents := by
  have unlinked : dag.parentsOf vertexID = [] := represents.parentsOf_unknown fresh
  have parents : ∀ id, after.parentsOf id = if id = vertexID then parentIDs else dag.parentsOf id :=
    linked.parentsOf
  have children : ∀ id, after.childrenOf id =
      dag.childrenOf id ++ List.replicate (parentIDs.count id) vertexID := linked.childrenOf
  have vertices : ∀ id, id ∈ after.vertices ↔ id = vertexID ∨ id ∈ dag.vertices := by
    intro id
    rw [linked.vertices, Finmap.mem_insert]
  constructor
  case transpose =>
    intro id parentID
    have counted := represents.transpose id parentID
    rw [parents, children, List.count_append, List.count_replicate]
    by_cases own : id = vertexID
    · subst own
      rw [unlinked] at counted
      simp [counted]
    · simp [counted, own, Ne.symm own]
  case keys =>
    intro id
    rw [linked.edges, vertices, Finmap.mem_insert, represents.keys]
  case frontier =>
    intro id
    -- The parents of the new vertex are its own; those of the others are as before.
    have named : (∀ other ∈ after.vertices, id ∉ after.parentsOf other) ↔
        id ∉ parentIDs ∧ ∀ other ∈ dag.vertices, id ∉ dag.parentsOf other := by
      constructor
      · intro unnamed
        have own := unnamed vertexID ((vertices vertexID).mpr (Or.inl rfl))
        rw [parents, if_pos rfl] at own
        refine ⟨own, ?_⟩
        intro other known
        have different : other ≠ vertexID := fun same => fresh (same ▸ known)
        have old := unnamed other ((vertices other).mpr (Or.inr known))
        rwa [parents, if_neg different] at old
      · rintro ⟨own, old⟩ other known
        rw [parents]
        split
        · exact own
        · rename_i different
          exact old other (((vertices other).mp known).resolve_left different)
    have old : id ∈ dag.frontier ↔
        id ∈ dag.vertices ∧ ∀ other ∈ dag.vertices, id ∉ dag.parentsOf other :=
      represents.frontier id
    have entry : vertexID ∉ dag.reversedge ↔
        ∀ other ∈ dag.vertices, vertexID ∉ dag.parentsOf other := by
      rw [represents.mem_reversedge]
      push Not
      rfl
    rw [linked.frontier, named, vertices, old, entry]
    constructor
    · rintro ⟨outside, ⟨known, unnamed⟩ | ⟨rfl, unnamed⟩⟩
      · exact ⟨Or.inr known, outside, unnamed⟩
      · exact ⟨Or.inl rfl, outside, unnamed⟩
    · rintro ⟨rfl | known, outside, unnamed⟩
      · exact ⟨outside, Or.inr ⟨rfl, unnamed⟩⟩
      · exact ⟨outside, Or.inl ⟨known, unnamed⟩⟩
  case children =>
    intro id
    have before : id ∈ dag.reversedge ↔ dag.childrenOf id ≠ [] := represents.children id
    rw [linked.reversedge, children, before, ← List.count_pos_iff]
    simp [List.replicate_eq_nil_iff, Nat.pos_iff_ne_zero, or_iff_not_imp_left]

/-- `AddVertex` with a `Parents` that succeeds. -/
theorem addVertex_represents (idOf : V → ID) (vertex : V) (parentIDs : List ID)
    {dag : ParallelDAG V ID} (represents : dag.Represents) :
    (addVertex idOf vertex (some parentIDs) dag).1.Represents := by
  unfold addVertex
  split
  · exact represents
  · rename_i fresh
    exact represents.link vertex fresh (linkVertex_linked _ _ _)

/-- The graph represents its vertices after every sequence of additions. -/
theorem addVertices_represents (idOf : V → ID) (vertices : List (V × List ID))
    {dag : ParallelDAG V ID} (represents : dag.Represents) :
    (addVertices idOf dag vertices).Represents :=
  Runs.run_invariant _ Represents
    (fun _ entry before => addVertex_represents idOf entry.1 entry.2 before) dag vertices represents

/-- In every state reached by `AddVertex` calls whose `Parents` succeed, the maps belong
together. -/
theorem added_vertices_represented (idOf : V → ID) (vertices : List (V × List ID)) :
    (addVertices idOf newParallelDAG vertices).Represents :=
  addVertices_represents idOf vertices newParallelDAG_represents

/-- The DAG holds exactly the vertices of the list, each with its parents. -/
structure Shows (idOf : V → ID) (dag : ParallelDAG V ID) (entries : List (V × List ID)) : Prop where
  vertices : ∀ id, id ∈ dag.vertices ↔ ∃ entry ∈ entries, idOf entry.1 = id
  stored : ∀ entry ∈ entries, dag.vertices.lookup (idOf entry.1) = some entry.1
  edges : ∀ entry ∈ entries, dag.edges.lookup (idOf entry.1) = some entry.2

omit [DecidableEq ID] in
/-- An element that is repeated adds nothing. -/
theorem mem_concat_of_mem {α : Type} {front : List α} {last : α} (repeated : last ∈ front)
    (element : α) : element ∈ front ++ [last] ↔ element ∈ front := by
  simp only [List.mem_append, List.mem_singleton, or_iff_left_iff_imp]
  rintro rfl
  exact repeated

/-- A vertex that equals the one with its ID, if there is one. -/
theorem Shows.add {idOf : V → ID} {dag : ParallelDAG V ID} {front : List (V × List ID)}
    (before : Shows idOf dag front) (last : V × List ID)
    (consistent : ∀ entry ∈ front, idOf entry.1 = idOf last.1 → entry = last) :
    Shows idOf (addVertex idOf last.1 (some last.2) dag).1 (front ++ [last]) := by
  by_cases known : idOf last.1 ∈ dag.vertices
  · have added : (addVertex idOf last.1 (some last.2) dag).1 = dag := by
      simp only [addVertex, known, if_true]
    obtain ⟨entry, member, same⟩ := (before.vertices _).mp known
    have repeated : last ∈ front := consistent entry member same ▸ member
    have members := mem_concat_of_mem repeated
    rw [added]
    constructor
    · simpa only [members] using before.vertices
    · simpa only [members] using before.stored
    · simpa only [members] using before.edges
  · have linked := linkVertex_linked (idOf last.1) last.2
      { dag with vertices := dag.vertices.insert (idOf last.1) last.1 }
    have added : (addVertex idOf last.1 (some last.2) dag).1 = linkVertex (idOf last.1) last.2
        { dag with vertices := dag.vertices.insert (idOf last.1) last.1 } := by
      simp only [addVertex, known, if_false]
    have apart : ∀ entry ∈ front, idOf entry.1 ≠ idOf last.1 := by
      intro entry member same
      exact known ((before.vertices _).mpr ⟨entry, member, same⟩)
    rw [added]
    constructor
    · intro id
      rw [linked.vertices, Finmap.mem_insert, before.vertices]
      simp only [List.mem_append, List.mem_singleton, or_and_right, exists_or, exists_eq_left]
      rw [or_comm, eq_comm]
    · intro entry member
      rw [linked.vertices]
      rcases List.mem_append.mp member with earlier | final
      · rw [Finmap.lookup_insert_of_ne _ (apart entry earlier)]
        exact before.stored entry earlier
      · rw [List.mem_singleton.mp final, Finmap.lookup_insert]
    · intro entry member
      rw [linked.edges]
      rcases List.mem_append.mp member with earlier | final
      · rw [Finmap.lookup_insert_of_ne _ (apart entry earlier)]
        exact before.edges entry earlier
      · rw [List.mem_singleton.mp final, Finmap.lookup_insert]

/-- Adding vertices that are equal when their IDs are. -/
theorem addVertices_shows (idOf : V → ID) (entries : List (V × List ID))
    (consistent : ∀ entry ∈ entries, ∀ other ∈ entries, idOf entry.1 = idOf other.1 →
      entry = other) :
    Shows idOf (addVertices idOf newParallelDAG entries) entries := by
  induction entries using List.reverseRecOn with
  | nil => constructor <;> simp [newParallelDAG, Finmap.notMem_empty]
  | append_singleton front last inductionHypothesis =>
    have before := inductionHypothesis (fun entry member other alsoMember =>
      consistent entry (List.mem_append_left _ member) other (List.mem_append_left _ alsoMember))
    rw [addVertices, Runs.run_append]
    exact before.add last (fun entry member =>
      consistent entry (List.mem_append_left _ member) last (by simp))

/-- The IDs of `GetFrontier`: the vertices that no vertex names as a parent. -/
theorem Shows.mem_getFrontier {idOf : V → ID} {dag : ParallelDAG V ID}
    {entries : List (V × List ID)} (shows : Shows idOf dag entries) (represents : dag.Represents)
    (order : IterationOrder ID) (id : ID) :
    id ∈ (dag.getFrontier order).map idOf ↔
      (∃ entry ∈ entries, idOf entry.1 = id) ∧ ∀ entry ∈ entries, id ∉ entry.2 := by
  have parents : ∀ entry ∈ entries, dag.parentsOf (idOf entry.1) = entry.2 := by
    intro entry member
    simp [parentsOf, shows.edges entry member]
  have frontier : id ∈ dag.frontier ↔
      (∃ entry ∈ entries, idOf entry.1 = id) ∧ ∀ entry ∈ entries, id ∉ entry.2 := by
    rw [represents.frontier, shows.vertices]
    refine and_congr_right (fun _ => ?_)
    constructor
    · intro unnamed entry member
      rw [← parents entry member]
      exact unnamed _ ((shows.vertices _).mpr ⟨entry, member, rfl⟩)
    · intro unnamed other known
      obtain ⟨entry, member, rfl⟩ := (shows.vertices other).mp known
      rw [parents entry member]
      exact unnamed entry member
  rw [← frontier]
  simp only [getFrontier, List.mem_map, List.mem_filterMap, order.mem_arrange]
  constructor
  · rintro ⟨vertex, ⟨key, inside, found⟩, rfl⟩
    obtain ⟨entry, member, rfl⟩ := (shows.vertices key).mp (Finmap.mem_of_lookup_eq_some found)
    rw [shows.stored entry member] at found
    exact Option.some.inj found ▸ inside
  · intro inside
    obtain ⟨entry, member, rfl⟩ := (frontier.mp inside).1
    exact ⟨entry.1, ⟨_, inside, shows.stored entry member⟩, rfl⟩

end ParallelDAG

/-- The engine after `ProcessVertex` calls with the given answers. -/
abbrev processVertices (replies : Vertex ID → ProcessReplies) (e : ParallelEngine ID)
    (vertices : List (Vertex ID)) : ParallelEngine ID :=
  Runs.run (fun e vertex => (processVertex (replies vertex) vertex e).1) e vertices

/-- The engine holds exactly the vertices of the list, each with its parents. -/
structure ParallelEngine.Shows (e : ParallelEngine ID) (listed : List (Vertex ID)) : Prop where
  vertices : ∀ id, id ∈ e.vertices ↔ ∃ vertex ∈ listed, vertex.id = id
  keys : ∀ id, id ∈ e.edgeMap → id ∈ e.vertices
  edges : ∀ vertex ∈ listed, e.edgeMap.lookup vertex.id = some vertex.parentIDs

/-- The engine shows one vertex more after it is processed. -/
theorem ParallelEngine.Shows.process {e : ParallelEngine ID} {front : List (Vertex ID)}
    (before : e.Shows front) (last : Vertex ID) {replies : ProcessReplies}
    (parents : replies.parents = true)
    (consistent : ∀ vertex ∈ front, vertex.id = last.id → vertex = last) :
    (processVertex replies last e).1.Shows (front ++ [last]) := by
  by_cases known : last.id ∈ e.vertices
  · rw [processVertex_known replies last e known]
    obtain ⟨vertex, member, same⟩ := (before.vertices _).mp known
    have repeated : last ∈ front := consistent vertex member same ▸ member
    have members := ParallelDAG.mem_concat_of_mem repeated
    constructor
    · simpa only [members] using before.vertices
    · exact before.keys
    · simpa only [members] using before.edges
  · have new := processVertex_new replies last e known
    have edgeMap := new.edgeMap
    rw [if_pos parents] at edgeMap
    constructor
    · intro id
      rw [new.vertices, Finmap.mem_insert, before.vertices]
      simp only [List.mem_append, List.mem_singleton, or_and_right, exists_or, exists_eq_left]
      rw [or_comm, eq_comm]
    · intro id linked
      rw [edgeMap, Finmap.mem_insert] at linked
      rw [new.vertices, Finmap.mem_insert]
      exact linked.imp_right (before.keys id)
    · intro vertex member
      rw [edgeMap]
      rcases List.mem_append.mp member with earlier | final
      · have apart : vertex.id ≠ last.id := by
          intro same
          exact known ((before.vertices _).mpr ⟨vertex, earlier, same⟩)
        rw [Finmap.lookup_insert_of_ne _ apart]
        exact before.edges vertex earlier
      · rw [List.mem_singleton.mp final, Finmap.lookup_insert]

/-- The engine shows the vertices that it has processed. -/
theorem processVertices_shows (replies : Vertex ID → ProcessReplies)
    (parents : ∀ vertex, (replies vertex).parents = true) (vertices : List (Vertex ID))
    (consistent : ∀ vertex ∈ vertices, ∀ other ∈ vertices, vertex.id = other.id →
      vertex = other) :
    (processVertices replies newParallelEngine vertices).Shows vertices := by
  induction vertices using List.reverseRecOn with
  | nil => constructor <;> simp [newParallelEngine, Finmap.notMem_empty]
  | append_singleton front last inductionHypothesis =>
    have before := inductionHypothesis (fun vertex member other alsoMember =>
      consistent vertex (List.mem_append_left _ member) other (List.mem_append_left _ alsoMember))
    rw [processVertices, Runs.run_append]
    exact before.process last (parents last) (fun vertex member =>
      consistent vertex (List.mem_append_left _ member) last (by simp))

/-- The frontier of the engine: the vertices that are nobody's parent. -/
theorem ParallelEngine.Shows.mem_getFrontier {e : ParallelEngine ID} {vertices : List (Vertex ID)}
    (shows : e.Shows vertices) (order : IterationOrder ID) (id : ID) :
    id ∈ e.getFrontier order ↔
      (∃ vertex ∈ vertices, vertex.id = id) ∧ ∀ vertex ∈ vertices, id ∉ vertex.parentIDs := by
  have named : id ∈ e.isParent ↔ ∃ vertex ∈ vertices, id ∈ vertex.parentIDs := by
    simp only [ParallelEngine.isParent, Finset.mem_biUnion, Finmap.mem_keys, List.mem_toFinset]
    constructor
    · rintro ⟨key, linked, parent⟩
      obtain ⟨vertex, member, rfl⟩ := (shows.vertices key).mp (shows.keys key linked)
      rw [ParallelEngine.recordedParents, shows.edges vertex member] at parent
      exact ⟨vertex, member, parent⟩
    · rintro ⟨vertex, member, parent⟩
      have found := shows.edges vertex member
      refine ⟨vertex.id, Finmap.mem_of_lookup_eq_some found, ?_⟩
      rwa [ParallelEngine.recordedParents, found]
  simp only [ParallelEngine.getFrontier, List.mem_filter, order.mem_arrange, Finmap.mem_keys,
    decide_eq_true_eq, shows.vertices, named]
  push Not
  rfl

/-- The DAG and the engine report the same frontier, whatever the order in which each of them
receives the vertices. -/
theorem frontiers_agree (vertices first second : List (Vertex ID))
    (consistent : ∀ vertex ∈ vertices, ∀ other ∈ vertices, vertex.id = other.id → vertex = other)
    (firstPerm : first.Perm vertices) (secondPerm : second.Perm vertices)
    (replies : Vertex ID → ProcessReplies) (complete : ∀ vertex, (replies vertex).Complete)
    (dagOrder engineOrder : IterationOrder ID) :
    let dag := ParallelDAG.addVertices Vertex.id newParallelDAG
      (first.map (fun vertex => (vertex, vertex.parentIDs)))
    let engine := processVertices replies newParallelEngine second
    ((dag.getFrontier dagOrder).map Vertex.id).toFinset =
      (engine.getFrontier engineOrder).toFinset := by
  intro dag engine
  have dagShows : ParallelDAG.Shows Vertex.id dag
      (first.map (fun vertex => (vertex, vertex.parentIDs))) := by
    apply ParallelDAG.addVertices_shows
    simp only [List.mem_map]
    rintro _ ⟨vertex, member, rfl⟩ _ ⟨other, alsoMember, rfl⟩ same
    rw [consistent vertex (firstPerm.subset member) other (firstPerm.subset alsoMember) same]
  have engineShows : engine.Shows second := by
    apply processVertices_shows replies (fun vertex => (complete vertex).1)
    intro vertex member other alsoMember
    exact consistent vertex (secondPerm.subset member) other (secondPerm.subset alsoMember)
  ext id
  rw [List.mem_toFinset, List.mem_toFinset, engineShows.mem_getFrontier,
    dagShows.mem_getFrontier
      (ParallelDAG.addVertices_represents _ _ ParallelDAG.newParallelDAG_represents)]
  simp only [List.mem_map, firstPerm.mem_iff, secondPerm.mem_iff]
  constructor
  · rintro ⟨⟨_, ⟨vertex, member, rfl⟩, same⟩, unnamed⟩
    exact ⟨⟨vertex, member, same⟩, fun other alsoMember =>
      unnamed _ ⟨other, alsoMember, rfl⟩⟩
  · rintro ⟨⟨vertex, member, same⟩, unnamed⟩
    refine ⟨⟨_, ⟨vertex, member, rfl⟩, same⟩, ?_⟩
    rintro _ ⟨other, alsoMember, rfl⟩
    exact unnamed other alsoMember

/-- Three vertices, the second with an unknown parent and the third naming both others. -/
def forkVertices : List (Vertex ℕ) := [⟨1, [], [], 0⟩, ⟨2, [9], [], 0⟩, ⟨3, [1, 2], [], 0⟩]

/-- Two children of one vertex are the frontier of the engine and of the graph. -/
theorem fork_frontiers_agree :
    let dag := ParallelDAG.addVertices Vertex.id newParallelDAG
      (forkVertices.reverse.map (fun vertex => (vertex, vertex.parentIDs)))
    let engine := processVertices (fun _ => .succeed) newParallelEngine forkVertices
    (dag.getFrontier .increasing).map Vertex.id = [3] ∧
      ((dag.getFrontier .increasing).map Vertex.id).toFinset =
        (engine.getFrontier .increasing).toFinset :=
  ⟨by decide +kernel, frontiers_agree forkVertices forkVertices.reverse forkVertices
    (by decide +kernel) (List.reverse_perm _) (List.Perm.refl _) (fun _ => .succeed)
    (fun _ => ⟨rfl, rfl, rfl, fun _ => rfl⟩) .increasing .increasing⟩

end AvalancheParallel.Consensus
