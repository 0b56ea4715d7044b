import Mathlib.Data.Finset.Card
import Mathlib.Data.Finset.Filter
import Mathlib.Order.Lattice

/-!
# Partial views of a tree

Each node has a parent, and the parents of the known nodes may be followed. Where the parents
of other nodes are is not known, so the known nodes form several trees, whose roots are not
known themselves. From a node the known parents lead to its oldest known ancestor.

Pruning a node takes out the known nodes from which the known parents lead to it. Pruning
several nodes, one after the other, takes out those that lead to one of them. A worklist that
takes out a node and then works on its known children prunes the nodes on it.
-/

namespace AvalancheParallel.PartialView

universe u
variable {K : Type u} (parent : K → K)

/-- The parents of known nodes lead from the first node to the second. -/
inductive Leads (known : Finset K) : K → K → Prop
  | here (node : K) : Leads known node node
  | up {node top : K} (inside : node ∈ known) (rest : Leads known (parent node) top) :
      Leads known node top

variable {parent}

/-- Leading is transitive. -/
theorem Leads.trans {known : Finset K} {first second third : K}
    (lower : Leads parent known first second) (upper : Leads parent known second third) :
    Leads parent known first third := by
  induction lower with
  | here node => exact upper
  | up inside _ inductionHypothesis => exact .up inside (inductionHypothesis upper)

/-- More known nodes lead further. -/
theorem Leads.mono {known more : Finset K} (subset : known ⊆ more) {node top : K}
    (leads : Leads parent known node top) : Leads parent more node top := by
  induction leads with
  | here node => exact .here node
  | up inside _ inductionHypothesis => exact .up (subset inside) inductionHypothesis

/-- What an unknown node leads to is itself. -/
theorem Leads.eq_of_notMem {known : Finset K} {node top : K} (unknown : node ∉ known)
    (leads : Leads parent known node top) : top = node := by
  cases leads with
  | here node => rfl
  | up inside rest => exact absurd inside unknown

/-- The way up from a node does not fork. -/
theorem Leads.total {known : Finset K} {node first second : K}
    (one : Leads parent known node first) (other : Leads parent known node second) :
    Leads parent known first second ∨ Leads parent known second first := by
  induction one with
  | here node => exact Or.inl other
  | up inside rest inductionHypothesis =>
    cases other with
    | here node => exact Or.inr (.up inside rest)
    | up _ above => exact inductionHypothesis above

variable (parent) in
/-- The second node is the oldest known ancestor of the first. -/
def Oldest (known : Finset K) (node top : K) : Prop := Leads parent known node top ∧ top ∉ known

/-- There is one oldest node at most. -/
theorem Oldest.unique {known : Finset K} {node first second : K}
    (one : Oldest parent known node first) (other : Oldest parent known node second) :
    first = second := by
  cases one.1.total other.1 with
  | inl leads => exact (leads.eq_of_notMem one.2).symm
  | inr leads => exact leads.eq_of_notMem other.2

/-- The known nodes are higher than their parents. -/
def Ascends (parent : K → K) (height : K → ℕ) (known : Finset K) : Prop :=
  ∀ node ∈ known, height (parent node) < height node

/-- What a node leads to is not higher. -/
theorem Leads.height_le {height : K → ℕ} {known : Finset K}
    (ascends : Ascends parent height known) {node top : K} (leads : Leads parent known node top) :
    height top ≤ height node := by
  induction leads with
  | here node => exact Nat.le_refl _
  | up inside _ inductionHypothesis =>
    exact inductionHypothesis.trans (ascends _ inside).le

/-- Each step up leaves one known node behind. -/
theorem card_above_lt {height : K → ℕ} {known : Finset K}
    (ascends : Ascends parent height known) {node : K} (inside : node ∈ known) :
    (known.filter (fun other => height other ≤ height (parent node))).card <
      (known.filter (fun other => height other ≤ height node)).card := by
  have lower := ascends node inside
  apply Finset.card_lt_card
  rw [Finset.ssubset_iff_of_subset]
  · refine ⟨node, Finset.mem_filter.mpr ⟨inside, Nat.le_refl _⟩, ?_⟩
    intro member
    have bound := (Finset.mem_filter.mp member).2
    omega
  · intro other member
    obtain ⟨present, bound⟩ := Finset.mem_filter.mp member
    exact Finset.mem_filter.mpr ⟨present, by omega⟩

section Pruning

open Classical in
/-- The known nodes from which no node of the second set is reached. -/
noncomputable def prune (parent : K → K) (known : Finset K) (tops : K → Prop) : Finset K :=
  known.filter (fun node => ∀ top, tops top → ¬ Leads parent known node top)

/-- What is left after pruning leads to none of the tops. -/
theorem mem_prune {known : Finset K} {tops : K → Prop} {node : K} :
    node ∈ prune parent known tops ↔
      node ∈ known ∧ ∀ top, tops top → ¬ Leads parent known node top := by
  classical
  unfold prune
  rw [Finset.mem_filter]

/-- Pruning only removes nodes. -/
theorem prune_subset (known : Finset K) (tops : K → Prop) : prune parent known tops ⊆ known :=
  fun _ member => (mem_prune.mp member).1

/-- The parent of a node that is kept was not taken out. -/
theorem parent_mem_prune {known : Finset K} {tops : K → Prop} {node : K}
    (kept : node ∈ prune parent known tops) (inside : parent node ∈ known) :
    parent node ∈ prune parent known tops := by
  obtain ⟨present, avoids⟩ := mem_prune.mp kept
  exact mem_prune.mpr ⟨inside, fun top listed leads => avoids top listed (.up present leads)⟩

/-- A way that avoids the pruned nodes is left as it was. -/
theorem Leads.prune {known : Finset K} {tops : K → Prop} {node top : K}
    (leads : Leads parent known node top)
    (avoids : ∀ other, tops other → ¬ Leads parent known node other) :
    Leads parent (prune parent known tops) node top := by
  induction leads with
  | here node => exact .here node
  | up inside _ inductionHypothesis =>
    refine .up (mem_prune.mpr ⟨inside, avoids⟩) (inductionHypothesis ?_)
    exact fun other listed above => avoids other listed (.up inside above)

/-- Nodes may be pruned one after the other. -/
theorem prune_prune (known : Finset K) (first second : K → Prop) :
    prune parent (prune parent known first) second =
      prune parent known (fun top => first top ∨ second top) := by
  ext node
  rw [mem_prune, mem_prune, mem_prune]
  constructor
  · rintro ⟨⟨inside, avoidsFirst⟩, avoidsSecond⟩
    refine ⟨inside, fun top either leads => ?_⟩
    cases either with
    | inl listed => exact avoidsFirst top listed leads
    | inr listed => exact avoidsSecond top listed (leads.prune avoidsFirst)
  · rintro ⟨inside, avoids⟩
    refine ⟨⟨inside, fun top listed => avoids top (Or.inl listed)⟩, fun top listed leads => ?_⟩
    exact avoids top (Or.inr listed) (leads.mono (prune_subset known first))

/-- Without tops nothing is pruned. -/
@[simp] theorem prune_none (known : Finset K) : prune parent known (fun _ => False) = known := by
  ext node
  simp [mem_prune]

variable [DecidableEq K]

/-- Without the first node of the worklist, a way to a node on the worklist goes to one of the
first node's children or to another node on the worklist. -/
theorem Leads.erase {known : Finset K} {first : K} {rest : List K} {node top : K}
    (leads : Leads parent known node top) (listed : top ∈ first :: rest)
    (different : node ≠ first) :
    ∃ next, (next ∈ known.erase first ∧ parent next = first ∨ next ∈ rest) ∧
      Leads parent (known.erase first) node next := by
  induction leads with
  | here node =>
    exact ⟨node, Or.inr ((List.mem_cons.mp listed).resolve_left different), .here node⟩
  | @up node top inside _ inductionHypothesis =>
    have present : node ∈ known.erase first := Finset.mem_erase.mpr ⟨different, inside⟩
    by_cases atFirst : parent node = first
    · exact ⟨node, Or.inl ⟨present, atFirst⟩, .here node⟩
    · obtain ⟨next, origin, above⟩ := inductionHypothesis listed atFirst
      exact ⟨next, origin, .up present above⟩

/-- Taking out the first node of a worklist and working on its children as well. -/
theorem prune_cons (known : Finset K) (first : K) (rest children : List K)
    (listed : ∀ node, node ∈ children ↔ node ∈ known.erase first ∧ parent node = first) :
    prune parent known (· ∈ first :: rest) =
      prune parent (known.erase first) (· ∈ children ++ rest) := by
  ext node
  rw [mem_prune, mem_prune]
  constructor
  · rintro ⟨inside, avoids⟩
    have different : node ≠ first := by
      rintro rfl
      exact avoids node List.mem_cons_self (.here node)
    refine ⟨Finset.mem_erase.mpr ⟨different, inside⟩, fun top member leads => ?_⟩
    have before := leads.mono (Finset.erase_subset first known)
    cases List.mem_append.mp member with
    | inl child =>
      obtain ⟨present, above⟩ := (listed top).mp child
      have last : Leads parent known top first :=
        .up (Finset.mem_of_mem_erase present) (above ▸ .here _)
      exact avoids first List.mem_cons_self (before.trans last)
    | inr later => exact avoids top (List.mem_cons_of_mem first later) before
  · rintro ⟨member, avoids⟩
    obtain ⟨different, inside⟩ := Finset.mem_erase.mp member
    refine ⟨inside, fun top onList leads => ?_⟩
    obtain ⟨next, origin, path⟩ := leads.erase onList different
    apply avoids next (List.mem_append.mpr _) path
    exact origin.imp_left (listed next).mpr

/-- A worklist whose nodes are known, each once, and whose parents were taken out. -/
structure Working (parent : K → K) (known : Finset K) (worklist : List K) : Prop where
  nodup : worklist.Nodup
  inside : ∀ node ∈ worklist, node ∈ known
  detached : ∀ node ∈ worklist, parent node ∉ known

/-- The worklist after its first node. -/
theorem working_step {known : Finset K} {first : K} {rest children : List K}
    (distinct : children.Nodup)
    (listed : ∀ node, node ∈ children ↔ node ∈ known.erase first ∧ parent node = first)
    (others : Working parent known rest) (apart : first ∉ rest)
    (below : ∀ node ∈ rest, parent node ≠ first) :
    Working parent (known.erase first) (children ++ rest) := by
  constructor
  case nodup =>
    refine List.Nodup.append distinct others.nodup ?_
    intro node child later
    exact below node later ((listed node).mp child).2
  case inside =>
    intro node member
    cases List.mem_append.mp member with
    | inl child => exact ((listed node).mp child).1
    | inr later =>
      refine Finset.mem_erase.mpr ⟨?_, others.inside node later⟩
      rintro rfl
      exact apart later
  case detached =>
    intro node member
    cases List.mem_append.mp member with
    | inl child =>
      rw [((listed node).mp child).2]
      exact Finset.notMem_erase first known
    | inr later =>
      exact fun present => others.detached node later (Finset.mem_of_mem_erase present)

end Pruning

end AvalancheParallel.PartialView
