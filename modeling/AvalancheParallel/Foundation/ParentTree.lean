import Mathlib.Data.Finset.Max
import Mathlib.Data.List.Chain
import Mathlib.Logic.Function.Iterate

/-!
# Finite trees given by parents

Nodes name their parent, and each node is one higher than its parent. A finite set of
nodes is rooted when it holds the root and the parent of each of its other nodes; the
parent of the root is not constrained. A node is below another when the ancestor at the
other's height is the other, which does not depend on the set.

A chain goes from a node to one of its children at each step. Chains from one node to
another are unique. A walk makes the step that a choice function prescribes; in a finite
tree a walk to children ends.
-/

namespace AvalancheParallel.ParentTree

universe u
variable {K : Type u}

/-- The last node of a chain whose parts are joined. -/
theorem getLastD_append (front back : List K) (start : K) :
    (front ++ back).getLastD start = back.getLastD (front.getLastD start) := by
  induction front generalizing start with
  | nil => rfl
  | cons node rest inductionHypothesis =>
    rw [List.cons_append, List.getLastD_cons, List.getLastD_cons, inductionHypothesis]

/-- A chain is continued where it ends. -/
theorem isChain_cons_append {relation : K → K → Prop} (start : K) (front back : List K) :
    List.IsChain relation (start :: (front ++ back)) ↔
      List.IsChain relation (start :: front) ∧
        List.IsChain relation (front.getLastD start :: back) := by
  induction front generalizing start with
  | nil => simp
  | cons node rest inductionHypothesis =>
    rw [List.cons_append, List.isChain_cons_cons, inductionHypothesis, List.isChain_cons_cons,
      List.getLastD_cons, and_assoc]

section Walks

variable (choice : K → Option K)

/-- Each node of the list is the choice of the one before it. -/
def Walks (start : K) (path : List K) : Prop :=
  List.IsChain (fun node next => choice node = some next) (start :: path)

/-- The list is walked until a node without a choice. -/
def Follows (start : K) (path : List K) : Prop :=
  Walks choice start path ∧ choice (path.getLastD start) = none

variable {choice}

/-- A path may be extended at its start. -/
theorem Follows.cons {start next : K} {path : List K} (chosen : choice start = some next)
    (follows : Follows choice next path) : Follows choice start (next :: path) :=
  ⟨List.isChain_cons_cons.mpr ⟨chosen, follows.1⟩, by rw [List.getLastD_cons]; exact follows.2⟩

/-- The rest of a path is a path. -/
theorem Follows.tail {start next : K} {path : List K}
    (follows : Follows choice start (next :: path)) : Follows choice next path := by
  have stops := follows.2
  rw [List.getLastD_cons] at stops
  exact ⟨(List.isChain_cons_cons.mp follows.1).2, stops⟩

/-- A walk followed on from its end. -/
theorem Walks.follows_append {start : K} {front back : List K} (walks : Walks choice start front)
    (follows : Follows choice (front.getLastD start) back) :
    Follows choice start (front ++ back) :=
  ⟨(isChain_cons_append start front back).mpr ⟨walks, follows.1⟩,
    by rw [getLastD_append]; exact follows.2⟩

/-- The part of a followed list from one of its nodes on. -/
theorem Follows.rest {start : K} {front back : List K}
    (follows : Follows choice start (front ++ back)) :
    Follows choice (front.getLastD start) back := by
  refine ⟨((isChain_cons_append start front back).mp follows.1).2, ?_⟩
  rw [← getLastD_append]
  exact follows.2

/-- A walk does not notice changes of the choices of nodes it does not leave. -/
theorem Walks.congr {other : K → Option K} {start : K} {path : List K}
    (walks : Walks choice start path)
    (same : ∀ node next, node ∈ start :: path → next ∈ path → choice node = some next →
      other node = choice node) : Walks other start path := by
  induction path generalizing start with
  | nil => exact List.isChain_singleton _
  | cons next rest inductionHypothesis =>
    obtain ⟨chosen, later⟩ := List.isChain_cons_cons.mp walks
    refine List.isChain_cons_cons.mpr ⟨?_, inductionHypothesis later ?_⟩
    · rw [same start next List.mem_cons_self List.mem_cons_self chosen, chosen]
    · intro node after member inside stepped
      exact same node after (List.mem_cons_of_mem _ member) (List.mem_cons_of_mem _ inside) stepped

/-- A path follows every choice that agrees along it. -/
theorem Follows.congr {other : K → Option K} {start : K} {path : List K}
    (follows : Follows choice start path)
    (same : ∀ node ∈ start :: path, other node = choice node) :
    Follows other start path := by
  refine ⟨follows.1.congr (fun node _ member _ _ => same node member), ?_⟩
  rw [same _ List.getLastD_mem_cons]
  exact follows.2

end Walks

variable (parent : K → K) (height : K → ℕ)

/-- The second node is a child of the first. -/
def ChildOf (node child : K) : Prop := parent child = node ∧ height child = height node + 1

/-- The first node is the ancestor of the second at its height. -/
def Below (node other : K) : Prop :=
  height node ≤ height other ∧ parent^[height other - height node] other = node

/-- A finite set with a root and the parents of all other nodes. -/
structure Rooted (root : K) (nodes : Finset K) : Prop where
  root_mem : root ∈ nodes
  parent_mem : ∀ node ∈ nodes, node ≠ root → parent node ∈ nodes
  height_eq : ∀ node ∈ nodes, node ≠ root → height node = height (parent node) + 1

variable {parent height}

/-- A node is below itself. -/
theorem Below.refl (node : K) : Below parent height node node := by
  simp [Below]

/-- On one level, only the node itself is below it. -/
theorem below_iff_eq {node other : K} (level : height other = height node) :
    Below parent height node other ↔ other = node := by
  simp [Below, level]

/-- A higher node is below what its parent is below. -/
theorem below_iff_parent {node other : K} (level : height other = height (parent other) + 1)
    (higher : height node < height other) :
    Below parent height node other ↔ Below parent height node (parent other) := by
  have steps : height other - height node = (height (parent other) - height node) + 1 := by omega
  unfold Below
  rw [steps, Function.iterate_succ_apply]
  constructor
  · rintro ⟨_, reached⟩
    exact ⟨by omega, reached⟩
  · rintro ⟨_, reached⟩
    exact ⟨by omega, reached⟩

/-- What is below a node is the node or below its parent. -/
theorem below_iff_eq_or_parent {node other : K} (level : height other = height (parent other) + 1) :
    Below parent height node other ↔ other = node ∨ Below parent height node (parent other) := by
  rcases Nat.lt_trichotomy (height node) (height other) with lower | same | higher
  · rw [below_iff_parent level lower]
    refine (or_iff_right ?_).symm
    rintro rfl
    exact Nat.lt_irrefl _ lower
  · rw [below_iff_eq same.symm]
    refine (or_iff_left ?_).symm
    intro below
    have bound := below.1
    omega
  · refine iff_of_false (fun below => Nat.not_le.mpr higher below.1) ?_
    rintro (rfl | below)
    · exact Nat.lt_irrefl _ higher
    · have bound := below.1
      omega

/-- What is properly below a node is below its parent. -/
theorem ne_and_below_iff {node other : K} (level : height other = height (parent other) + 1) :
    other ≠ node ∧ Below parent height node other ↔ Below parent height node (parent other) := by
  rw [below_iff_eq_or_parent level]
  constructor
  · rintro ⟨different, same | below⟩
    · exact absurd same different
    · exact below
  · intro below
    refine ⟨?_, Or.inr below⟩
    rintro rfl
    have bound := below.1
    omega

/-- Being below is transitive. -/
theorem Below.trans {first second third : K} (lower : Below parent height first second)
    (upper : Below parent height second third) : Below parent height first third := by
  obtain ⟨lowerHeight, lowerReached⟩ := lower
  obtain ⟨upperHeight, upperReached⟩ := upper
  refine ⟨by omega, ?_⟩
  have steps : height third - height first =
      (height second - height first) + (height third - height second) := by omega
  rw [steps, Function.iterate_add_apply, upperReached, lowerReached]

/-- A child is below its parent. -/
theorem ChildOf.below {node child : K} (childOf : ChildOf parent height node child) :
    Below parent height node child := by
  obtain ⟨rfl, level⟩ := childOf
  exact (below_iff_parent level (by omega)).mpr (Below.refl _)

namespace Rooted

variable {root : K} {nodes : Finset K} (rooted : Rooted parent height root nodes)
include rooted

/-- Induction from the root to the children. -/
theorem induction {property : K → Prop} (base : property root)
    (child : ∀ node ∈ nodes, node ≠ root → property (parent node) → property node) :
    ∀ node ∈ nodes, property node := by
  have bounded : ∀ bound, ∀ node ∈ nodes, height node < bound → property node := by
    intro bound
    induction bound with
    | zero => exact fun _ _ impossible => absurd impossible (Nat.not_lt_zero _)
    | succ bound inductionHypothesis =>
      intro node member below
      by_cases atRoot : node = root
      · exact atRoot ▸ base
      · have level := rooted.height_eq node member atRoot
        exact child node member atRoot
          (inductionHypothesis _ (rooted.parent_mem node member atRoot) (by omega))
  exact fun node member => bounded (height node + 1) node member (Nat.lt_succ_self _)

/-- No node is under the root. -/
theorem height_le : ∀ node ∈ nodes, height root ≤ height node :=
  rooted.induction (Nat.le_refl _) (by
    intro node member other lower
    have level := rooted.height_eq node member other
    omega)

/-- Every other node is above the root. -/
theorem height_lt {node : K} (member : node ∈ nodes) (other : node ≠ root) :
    height root < height node := by
  have level := rooted.height_eq node member other
  have lower := rooted.height_le _ (rooted.parent_mem node member other)
  omega

/-- Every other node is a child of its parent. -/
theorem childOf {node : K} (member : node ∈ nodes) (other : node ≠ root) :
    ChildOf parent height (parent node) node := ⟨rfl, rooted.height_eq node member other⟩

/-- A set of nodes with their parents holds the root, if it is not empty. -/
theorem of_closed {part : Finset K} (inside : part ⊆ nodes)
    (closed : ∀ node ∈ part, node ≠ root → parent node ∈ part) (inhabited : part.Nonempty) :
    Rooted parent height root part := by
  have reaches : ∀ node ∈ nodes, node ∈ part → root ∈ part :=
    rooted.induction id (fun node _ other up member => up (closed node member other))
  obtain ⟨node, member⟩ := inhabited
  exact ⟨reaches node (inside member) member, closed,
    fun node member => rooted.height_eq node (inside member)⟩

/-- Some node has no children. -/
theorem exists_leaf : ∃ node ∈ nodes, ∀ other ∈ nodes, other ≠ root → parent other ≠ node := by
  obtain ⟨node, member, highest⟩ := nodes.exists_max_image height ⟨root, rooted.root_mem⟩
  refine ⟨node, member, ?_⟩
  rintro other inside different rfl
  have level := rooted.height_eq other inside different
  have bound := highest other inside
  omega

/-- What a node is below, down to the root, is a node. -/
theorem mem_of_below {lower : K} (level : height root ≤ height lower) :
    ∀ node ∈ nodes, Below parent height lower node → lower ∈ nodes := by
  refine rooted.induction ?_ ?_
  · intro below
    rw [← (below_iff_eq (Nat.le_antisymm level below.1)).mp below]
    exact rooted.root_mem
  · intro node member other up below
    cases (below_iff_eq_or_parent (rooted.height_eq node member other)).mp below with
    | inl same => exact same ▸ member
    | inr further => exact up further

/-- Only a childless node itself is above it. -/
theorem eq_of_below {leaf : K} (isNode : leaf ∈ nodes)
    (childless : ∀ other ∈ nodes, other ≠ root → parent other ≠ leaf) :
    ∀ node ∈ nodes, Below parent height leaf node → node = leaf := by
  refine rooted.induction ?_ ?_
  · intro below
    by_contra other
    have higher := rooted.height_lt isNode (Ne.symm other)
    have bound := below.1
    omega
  · intro node member other up below
    cases (below_iff_eq_or_parent (rooted.height_eq node member other)).mp below with
    | inl same => exact same
    | inr further => exact absurd (up further) (childless node member other)

/-- If there is another node than the root, the root has a child. -/
theorem exists_child {node : K} (member : node ∈ nodes) (other : node ≠ root) :
    ∃ child ∈ nodes, child ≠ root ∧ parent child = root := by
  have found : ∀ node ∈ nodes, node ≠ root → ∃ child ∈ nodes, child ≠ root ∧ parent child = root :=
    rooted.induction (fun absurdity => absurd rfl absurdity) (by
      intro node inside different up _
      by_cases atRoot : parent node = root
      · exact ⟨node, inside, different, atRoot⟩
      · exact up atRoot)
  exact found node member other

end Rooted

section Chains

variable {start : K} {path : List K}

/-- Along a chain the height increases by one at each step. -/
theorem height_getLastD (chain : List.IsChain (ChildOf parent height) (start :: path)) :
    height (path.getLastD start) = height start + path.length := by
  induction path generalizing start with
  | nil => rfl
  | cons node rest inductionHypothesis =>
    obtain ⟨first, later⟩ := List.isChain_cons_cons.mp chain
    have level := first.2
    rw [List.getLastD_cons, inductionHypothesis later, List.length_cons]
    omega

/-- The heights along a chain are between those of its ends. -/
theorem height_mem (chain : List.IsChain (ChildOf parent height) (start :: path)) {node : K}
    (member : node ∈ path) :
    height start < height node ∧ height node ≤ height (path.getLastD start) := by
  obtain ⟨front, back, rfl⟩ := List.append_of_mem member
  obtain ⟨lower, upper⟩ :=
    (isChain_cons_append start (front ++ [node]) back).mp (by simpa using chain)
  have reached := height_getLastD lower
  have ended := height_getLastD upper
  rw [List.getLastD_concat] at reached ended
  have whole : (front ++ node :: back).getLastD start = back.getLastD node := by
    rw [getLastD_append, List.getLastD_cons]
  rw [whole]
  simp only [List.length_append, List.length_singleton] at reached
  omega

/-- The nodes of a chain are below its start. -/
theorem below_mem (chain : List.IsChain (ChildOf parent height) (start :: path)) {node : K}
    (member : node ∈ start :: path) : Below parent height start node := by
  induction path generalizing start with
  | nil =>
    rw [List.mem_singleton.mp member]
    exact Below.refl start
  | cons next rest inductionHypothesis =>
    obtain ⟨first, later⟩ := List.isChain_cons_cons.mp chain
    cases List.mem_cons.mp member with
    | inl same =>
      rw [same]
      exact Below.refl start
    | inr further => exact first.below.trans (inductionHypothesis later further)

/-- There is one chain from a node to another. -/
theorem chain_unique {other : List K}
    (chain : List.IsChain (ChildOf parent height) (start :: path))
    (second : List.IsChain (ChildOf parent height) (start :: other))
    (ends : path.getLastD start = other.getLastD start) : path = other := by
  induction path using List.reverseRecOn generalizing other with
  | nil =>
    have level := height_getLastD second
    rw [← ends, List.getLastD_nil] at level
    exact (List.length_eq_zero_iff.mp (by omega)).symm
  | append_singleton front node inductionHypothesis =>
    have level := height_getLastD chain
    cases other using List.reverseRecOn with
    | nil =>
      rw [ends, List.getLastD_nil, List.length_append, List.length_singleton] at level
      omega
    | append_singleton rest last =>
      rw [List.getLastD_concat, List.getLastD_concat] at ends
      subst ends
      obtain ⟨chainFront, chainLast⟩ := (isChain_cons_append start front [node]).mp chain
      obtain ⟨secondFront, secondLast⟩ := (isChain_cons_append start rest [node]).mp second
      have meet : front.getLastD start = rest.getLastD start := by
        rw [← (List.isChain_cons_cons.mp chainLast).1.1,
          ← (List.isChain_cons_cons.mp secondLast).1.1]
      rw [inductionHypothesis chainFront secondFront meet]

/-- The nodes of a chain are distinct. -/
theorem nodup_chain (chain : List.IsChain (ChildOf parent height) (start :: path)) :
    (start :: path).Nodup := by
  induction path generalizing start with
  | nil => exact List.nodup_singleton start
  | cons node rest inductionHypothesis =>
    obtain ⟨first, later⟩ := List.isChain_cons_cons.mp chain
    refine List.nodup_cons.mpr ⟨?_, inductionHypothesis later⟩
    intro member
    have above := (height_mem chain member).1
    omega

end Chains

/-- In a finite set of nodes whose choices are children, every walk ends. -/
theorem exists_follows {choice : K → Option K} {nodes : Finset K}
    (chosen : ∀ node ∈ nodes, ∀ next, choice node = some next →
      next ∈ nodes ∧ ChildOf parent height node next) {start : K} (member : start ∈ nodes) :
    ∃ path, Follows choice start path ∧
      path.length ≤ (nodes.filter (fun node => height start < height node)).card := by
  generalize bound : (nodes.filter (fun node => height start < height node)).card = count
  induction count using Nat.strong_induction_on generalizing start with
  | _ count inductionHypothesis =>
    cases step : choice start with
    | none => exact ⟨[], ⟨List.isChain_singleton _, step⟩, Nat.zero_le _⟩
    | some next =>
      obtain ⟨inside, _, level⟩ := chosen start member next step
      -- The next node is one of those above the start, and not above itself.
      have fewer : (nodes.filter (fun node => height next < height node)).card < count := by
        rw [← bound]
        apply Finset.card_lt_card
        refine (Finset.ssubset_iff_of_subset ?_).mpr
          ⟨next, Finset.mem_filter.mpr ⟨inside, by omega⟩, by simp⟩
        intro node above
        rw [Finset.mem_filter] at above ⊢
        exact ⟨above.1, by omega⟩
      obtain ⟨path, follows, short⟩ := inductionHypothesis _ fewer inside rfl
      exact ⟨next :: path, follows.cons step, by rw [List.length_cons]; omega⟩

end AvalancheParallel.ParentTree
