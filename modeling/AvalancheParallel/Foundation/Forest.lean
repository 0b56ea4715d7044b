import Mathlib.Algebra.BigOperators.Group.Finset.Basic
import Mathlib.Algebra.GroupWithZero.Nat
import Mathlib.Data.Multiset.Filter
import AvalancheParallel.Foundation.DependencyOrder

/-!
# Forests given by parents, and votes counted for descendants

Each node has at most one parent, and no node is its own ancestor. A vote for a node is
also a vote for its ancestors, so the total of a node is the number of votes for it and
its descendants. A group of siblings gathers the votes of its members.

Totals are computed by visiting each node after its children and adding what it has to
its parent. The last section bounds the depth of a node by the number of its ancestors
in a finite set.
-/

namespace AvalancheParallel.Forest

open AvalancheParallel.FiniteDag AvalancheParallel.DependencyOrder

universe u
variable {K : Type u} (parent : K → Option K)

/-- One step from a node to its parent. -/
def ChildOf (child node : K) : Prop := parent child = some node

/-- The second node is the first one or a descendant of it. -/
def Under (node other : K) : Prop := Relation.ReflTransGen (ChildOf parent) other node

/-- The set holds the parents of its nodes. -/
def Closed (nodes : Finset K) : Prop :=
  ∀ node ∈ nodes, ∀ above, parent node = some above → above ∈ nodes

/-- The set holds the parents of its nodes, but perhaps not one of them. -/
def ClosedBut (nodes : Finset K) (missing : K) : Prop :=
  ∀ node ∈ nodes, ∀ above, parent node = some above → above ∈ nodes ∨ above = missing

variable {parent}

/-- A descendant is the node itself or a descendant of one of its children. -/
theorem under_iff {node other : K} :
    Under parent node other ↔
      other = node ∨ ∃ child, parent child = some node ∧ Under parent child other := by
  constructor
  · intro under
    cases Relation.ReflTransGen.cases_tail under with
    | inl same => exact Or.inl same.symm
    | inr last =>
      obtain ⟨child, path, step⟩ := last
      exact Or.inr ⟨child, step, path⟩
  · rintro (rfl | ⟨child, step, path⟩)
    · exact Relation.ReflTransGen.refl
    · exact Relation.ReflTransGen.tail path step

/-- A child's descendants are not the node itself. -/
theorem Under.ne_of_child (acyclic : Acyclic (ChildOf parent)) {node child other : K}
    (step : parent child = some node) (under : Under parent child other) : other ≠ node := by
  rintro rfl
  exact acyclic other (Relation.TransGen.tail' under step)

/-- A node is below at most one child of another. -/
theorem Under.child_unique (acyclic : Acyclic (ChildOf parent)) {node first second other : K}
    (firstStep : parent first = some node) (secondStep : parent second = some node)
    (belowFirst : Under parent first other) (belowSecond : Under parent second other) :
    first = second := by
  have functional : Relator.RightUnique (ChildOf parent) := by
    intro child above another step also
    exact Option.some.inj (step.symm.trans also)
  -- the ancestors of a node are in a line, and neither child is above the other
  have apart : ∀ child above, parent child = some node → parent above = some node →
      Relation.ReflTransGen (ChildOf parent) child above → child = above := by
    intro child above step also path
    cases Relation.ReflTransGen.cases_head path with
    | inl same => exact same
    | inr next =>
      obtain ⟨middle, stepped, rest⟩ := next
      obtain rfl : node = middle := Option.some.inj (step.symm.trans stepped)
      exact absurd rfl (Under.ne_of_child acyclic also rest)
  cases Relation.ReflTransGen.total_of_right_unique functional belowFirst belowSecond with
  | inl path => exact apart first second firstStep secondStep path
  | inr path => exact (apart second first secondStep firstStep path).symm

/-- A closed set holds the ancestors of its nodes. -/
theorem Closed.under {nodes : Finset K} (closed : Closed parent nodes) {node other : K}
    (under : Under parent node other) (inside : other ∈ nodes) : node ∈ nodes := by
  induction under with
  | refl => exact inside
  | tail _ step inductionHypothesis => exact closed _ inductionHypothesis _ step

/-- With the missing node the set is closed. -/
theorem ClosedBut.closed {nodes : Finset K} {missing : K} (closed : ClosedBut parent nodes missing)
    (present : missing ∈ nodes) : Closed parent nodes := by
  intro node member above step
  cases closed node member above step with
  | inl there => exact there
  | inr same => exact same ▸ present

/-- When the missing node is added, at most its own parent is missing. -/
theorem ClosedBut.insert [DecidableEq K] {nodes : Finset K} {missing : K}
    (closed : ClosedBut parent nodes missing) {next : K}
    (above : ∀ node, parent missing = some node → node = next) :
    ClosedBut parent (insert missing nodes) next := by
  intro node member other step
  cases Finset.mem_insert.mp member with
  | inl same => exact Or.inr (above other (same ▸ step))
  | inr earlier =>
    cases closed node earlier other step with
    | inl there => exact Or.inl (Finset.mem_insert_of_mem there)
    | inr same => exact Or.inl (same ▸ Finset.mem_insert_self _ _)

section Totals

variable (parent)

open Classical in
/-- The number of votes for the node and its descendants. -/
noncomputable def total (votes : Multiset K) (node : K) : ℕ := votes.countP (Under parent node)

open Classical in
/-- The number of votes for the children of the node in a group and their descendants. -/
noncomputable def groupTotal (votes : Multiset K) (group : K → Prop) (node : K) : ℕ :=
  votes.countP (fun vote => ∃ child, parent child = some node ∧ group child ∧
    Under parent child vote)

variable {parent}

/-- The votes of two bags add up at every node. -/
theorem total_add (votes more : Multiset K) (node : K) :
    total parent (votes + more) node = total parent votes node + total parent more node := by
  classical
  exact Multiset.countP_add _ _ _

/-- The votes of two bags add up for every group. -/
theorem groupTotal_add (votes more : Multiset K) (group : K → Prop) (node : K) :
    groupTotal parent (votes + more) group node =
      groupTotal parent votes group node + groupTotal parent more group node := by
  classical
  exact Multiset.countP_add _ _ _

/-- A node has no more votes than there are. -/
theorem total_le (votes : Multiset K) (node : K) : total parent votes node ≤ votes.card := by
  classical
  exact Multiset.countP_le_card _ _

/-- A group has no more votes than there are. -/
theorem groupTotal_le (votes : Multiset K) (group : K → Prop) (node : K) :
    groupTotal parent votes group node ≤ votes.card := by
  classical
  exact Multiset.countP_le_card _ _

/-- A node that is voted for has votes. -/
theorem total_ne_zero {votes : Multiset K} {node : K} (voted : node ∈ votes) :
    total parent votes node ≠ 0 := by
  classical
  exact Nat.ne_of_gt (Multiset.countP_pos.mpr ⟨node, voted, Relation.ReflTransGen.refl⟩)

open Classical in
/-- Alternatives of which no two hold together are counted one by one. -/
theorem countP_exists_eq_sum {ι : Type*} (votes : Multiset K) (choices : Finset ι)
    (holds : ι → K → Prop)
    (exclusive : ∀ vote, ∀ first ∈ choices, ∀ second ∈ choices,
      holds first vote → holds second vote → first = second) :
    votes.countP (fun vote => ∃ choice ∈ choices, holds choice vote) =
      ∑ choice ∈ choices, votes.countP (holds choice) := by
  induction votes using Multiset.induction_on with
  | empty => simp
  | cons vote votes inductionHypothesis =>
    have once : (∑ choice ∈ choices, if holds choice vote then 1 else 0) =
        if ∃ choice ∈ choices, holds choice vote then 1 else 0 := by
      split
      · rename_i found
        obtain ⟨choice, member, chosen⟩ := found
        rw [Finset.sum_eq_single_of_mem choice member, if_pos chosen]
        intro other also different
        exact if_neg (fun held => different (exclusive vote other also choice member held chosen))
      · rename_i absent
        refine Finset.sum_eq_zero ?_
        intro choice member
        exact if_neg (fun held => absent ⟨choice, member, held⟩)
    simp only [Multiset.countP_cons, Finset.sum_add_distrib, inductionHypothesis, once]

variable [DecidableEq K]

/-- The total of a group is the sum of the totals of its members. -/
theorem groupTotal_eq_sum (acyclic : Acyclic (ChildOf parent)) {nodes : Finset K}
    (closed : Closed parent nodes) {votes : Multiset K} (inside : ∀ vote ∈ votes, vote ∈ nodes)
    (group : K → Prop) [DecidablePred group] (node : K) :
    groupTotal parent votes group node =
      ∑ child ∈ nodes with parent child = some node ∧ group child, total parent votes child := by
  classical
  have counted := countP_exists_eq_sum votes
    (nodes.filter (fun child => parent child = some node ∧ group child)) (Under parent) (by
      intro vote first firstMember second secondMember belowFirst belowSecond
      exact Under.child_unique acyclic (Finset.mem_filter.mp firstMember).2.1
        (Finset.mem_filter.mp secondMember).2.1 belowFirst belowSecond)
  unfold total groupTotal
  rw [← counted]
  refine Multiset.countP_congr rfl ?_
  intro vote voted
  simp only [Finset.mem_filter, eq_iff_iff]
  constructor
  · rintro ⟨child, step, member, under⟩
    exact ⟨child, ⟨closed.under under (inside vote voted), step, member⟩, under⟩
  · rintro ⟨child, ⟨_, step, member⟩, under⟩
    exact ⟨child, step, member, under⟩

/-- The total of a node is the number of votes for it and the totals of its children. -/
theorem total_eq_count_add (acyclic : Acyclic (ChildOf parent)) {nodes : Finset K}
    (closed : Closed parent nodes) {votes : Multiset K} (inside : ∀ vote ∈ votes, vote ∈ nodes)
    (node : K) :
    total parent votes node = votes.count node +
      ∑ child ∈ nodes with parent child = some node, total parent votes child := by
  classical
  have children := groupTotal_eq_sum acyclic closed inside (fun _ => True) node
  simp only [and_true] at children
  rw [← children]
  clear inside children
  simp only [total, groupTotal]
  induction votes using Multiset.induction_on with
  | empty => simp
  | cons vote votes inductionHypothesis =>
    rw [Multiset.countP_cons, Multiset.countP_cons, Multiset.count_cons, inductionHypothesis]
    by_cases same : vote = node
    · have own : Under parent node vote := under_iff.mpr (Or.inl same)
      have none : ¬ ∃ child, parent child = some node ∧ True ∧ Under parent child vote := by
        rintro ⟨child, step, _, under⟩
        exact Under.ne_of_child acyclic step under same
      rw [if_pos own, if_neg none, if_pos same.symm]
      omega
    · have through : Under parent node vote ↔
          ∃ child, parent child = some node ∧ True ∧ Under parent child vote := by
        rw [under_iff]
        simp [same]
      rw [if_congr through rfl rfl, if_neg (Ne.symm same)]
      omega

end Totals

section PushUp

variable (parent) [DecidableEq K]

/-- Add what the bag has for the node to its parent. -/
def pushUp (bag : Multiset K) (node : K) : Multiset K :=
  match parent node with
  | none => bag
  | some above => bag + Multiset.replicate (bag.count node) above

/-- The child is in the set. -/
def Awaits (nodes : Finset K) (node child : K) : Prop := child ∈ nodes ∧ parent child = some node

variable {parent}

/-- Pushing the votes of a node up adds them to its parent. -/
theorem count_pushUp (bag : Multiset K) (node other : K) :
    (pushUp parent bag node).count other =
      bag.count other + if parent node = some other then bag.count node else 0 := by
  cases above : parent node with
  | none => simp [pushUp, above]
  | some target =>
    by_cases same : target = other
    · simp [pushUp, above, same]
    · simp [pushUp, above, same, Multiset.count_replicate]

/-- The totals of the visited children of a node, once they have all been visited. -/
theorem sum_visited_children (acyclic : Acyclic (ChildOf parent)) {nodes : Finset K}
    (closed : Closed parent nodes) {votes : Multiset K} (inside : ∀ vote ∈ votes, vote ∈ nodes)
    {visited : List K} (distinct : visited.Nodup) (among : ∀ node ∈ visited, node ∈ nodes)
    {node : K} (ready : ∀ child, Awaits parent nodes node child → child ∈ visited) :
    votes.count node + ((visited.filter (fun child => decide (parent child = some node))).map
      (total parent votes)).sum = total parent votes node := by
  have same : nodes.filter (fun child => parent child = some node) =
      (visited.filter (fun child => decide (parent child = some node))).toFinset := by
    ext child
    simp only [Finset.mem_filter, List.mem_toFinset, List.mem_filter, decide_eq_true_eq]
    exact ⟨fun ⟨member, step⟩ => ⟨ready child ⟨member, step⟩, step⟩,
      fun ⟨earlier, step⟩ => ⟨among child earlier, step⟩⟩
  rw [total_eq_count_add acyclic closed inside, same, List.sum_toFinset _ (distinct.filter _)]

/-- When children are visited before their parents, a bag has, after some visits, the
votes for a node and the totals of its visited children. -/
theorem count_foldl_pushUp (acyclic : Acyclic (ChildOf parent)) {nodes : Finset K}
    (closed : Closed parent nodes) {votes : Multiset K} (inside : ∀ vote ∈ votes, vote ∈ nodes)
    {visited : List K} (distinct : visited.Nodup) (among : ∀ node ∈ visited, node ∈ nodes)
    (ordered : Respects (Awaits parent nodes) visited) (node : K) :
    (visited.foldl (pushUp parent) votes).count node = votes.count node +
      ((visited.filter (fun child => decide (parent child = some node))).map
        (total parent votes)).sum := by
  induction visited using List.reverseRecOn generalizing node with
  | nil => rfl
  | append_singleton visited last inductionHypothesis =>
    have separate := (List.nodup_append'.mp distinct).1
    have earlier : ∀ node ∈ visited, node ∈ nodes :=
      fun node member => among node (List.mem_append_left _ member)
    have before := inductionHypothesis separate earlier ordered.of_snoc
    -- the last node has its total, as all its children were visited
    have complete : (visited.foldl (pushUp parent) votes).count last = total parent votes last := by
      rw [before, sum_visited_children acyclic closed inside separate earlier ordered.ready_last]
    rw [List.foldl_append, List.foldl_cons, List.foldl_nil, count_pushUp, complete, before,
      List.filter_append, List.map_append, List.sum_append, Nat.add_assoc]
    congr 2
    by_cases above : parent last = some node
    · simp [above]
    · simp [above]

/-- Once all nodes are visited, every node has its total. -/
theorem count_foldl_pushUp_all (acyclic : Acyclic (ChildOf parent)) {nodes : Finset K}
    (closed : Closed parent nodes) {votes : Multiset K} (inside : ∀ vote ∈ votes, vote ∈ nodes)
    {visited : List K} (distinct : visited.Nodup) (all : ∀ node, node ∈ visited ↔ node ∈ nodes)
    (ordered : Respects (Awaits parent nodes) visited) (node : K) :
    (visited.foldl (pushUp parent) votes).count node = total parent votes node := by
  have among : ∀ node ∈ visited, node ∈ nodes := fun node => (all node).mp
  rw [count_foldl_pushUp acyclic closed inside distinct among ordered]
  exact sum_visited_children acyclic closed inside distinct among
    (fun child awaited => (all child).mpr awaited.1)

end PushUp

section Depth

variable (parent)

open Classical in
/-- The nodes of the set that the node is, or is below. -/
noncomputable def ancestors (nodes : Finset K) (node : K) : Finset K :=
  nodes.filter (fun above => Under parent above node)

variable {parent}

/-- A node is among its ancestors. -/
theorem mem_ancestors_self {nodes : Finset K} {node : K} (inside : node ∈ nodes) :
    node ∈ ancestors parent nodes node := by
  classical
  exact Finset.mem_filter.mpr ⟨inside, Relation.ReflTransGen.refl⟩

/-- There are no more ancestors than nodes. -/
theorem card_ancestors_le (nodes : Finset K) (node : K) :
    (ancestors parent nodes node).card ≤ nodes.card := by
  classical
  exact Finset.card_le_card (Finset.filter_subset _ _)

/-- A child has one ancestor more. -/
theorem card_ancestors (acyclic : Acyclic (ChildOf parent)) {nodes : Finset K} {node child : K}
    (inside : child ∈ nodes) (step : parent child = some node) :
    (ancestors parent nodes child).card = (ancestors parent nodes node).card + 1 := by
  classical
  have split : ancestors parent nodes child = insert child (ancestors parent nodes node) := by
    ext above
    simp only [ancestors, Finset.mem_filter, Finset.mem_insert]
    constructor
    · rintro ⟨member, path⟩
      cases Relation.ReflTransGen.cases_head path with
      | inl same => exact Or.inl same.symm
      | inr next =>
        obtain ⟨middle, stepped, rest⟩ := next
        obtain rfl : node = middle := Option.some.inj (step.symm.trans stepped)
        exact Or.inr ⟨member, rest⟩
    · rintro (rfl | ⟨member, path⟩)
      · exact ⟨inside, Relation.ReflTransGen.refl⟩
      · exact ⟨member, Relation.ReflTransGen.head step path⟩
  have absent : child ∉ ancestors parent nodes node := by
    intro member
    exact acyclic child (Relation.TransGen.head' step (Finset.mem_filter.mp member).2)
  rw [split, Finset.card_insert_of_notMem absent]

end Depth

end AvalancheParallel.Forest
