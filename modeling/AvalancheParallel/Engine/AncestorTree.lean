import AvalancheParallel.Foundation.PartialView
import AvalancheParallel.Foundation.Runs
import AvalancheParallel.Ids
import AvalancheParallel.Utils.Collections

/-!
# The ancestor tree

`ancestor.Tree` of `snow/engine/snowman/ancestor/tree.go` keeps a partial view of the tree of
blocks: the parents of some blocks, and for each parent its known children. Through it the
engine finds the oldest known ancestor of a block that could not be issued, and forgets such
blocks when they can no longer matter.

The two maps are a finite set of known blocks, as an identifier stands for one block and so
for one parent. `RemoveDescendants` takes a block off the end of a slice, and puts its known
children there in the order in which the map is visited; the slice is a list whose head is its
end. The result `none` is a loop that exceeds its number of iterations, or a panic.

`Add` reads the children of a parent that has none yet as a nil set and adds the block to it. With
sets that are maps this makes a set; with sets that are interfaces it panics, and the range over the
children in `RemoveDescendants` is none that Go allows.
-/

namespace AvalancheParallel.Engine

open AvalancheParallel.Ids
open AvalancheParallel.RangeLoop
open AvalancheParallel.PartialView
open AvalancheParallel.Runs
open AvalancheParallel.Utils (SetReading)

/-- `ancestor.tree`, with the reading of `set.Set`. -/
structure AncestorTree where
  sets : SetReading
  childToParent : GoMap ID ID
  parentToChildren : GoMap ID (Finset ID)

namespace AncestorTree

/-- `NewTree`. -/
def new (sets : SetReading) : AncestorTree := ⟨sets, ∅, ∅⟩

/-- The known children: what a range over the entry visits. -/
def children (t : AncestorTree) (parentID : ID) : Finset ID :=
  (t.parentToChildren.lookup parentID).getD ∅

/-- `Add`. It panics when the parent has no entry and a nil set is an interface. -/
def add (t : AncestorTree) (blkID parentID : ID) : Option AncestorTree :=
  (t.sets.elements (t.parentToChildren.lookup parentID)).map (fun children =>
    ⟨t.sets, t.childToParent.insert blkID parentID,
      t.parentToChildren.insert parentID (insert blkID children)⟩)

/-- `Has`. -/
def has (t : AncestorTree) (blkID : ID) : Bool := (t.childToParent.lookup blkID).isSome

/-- `Len`. -/
def len (t : AncestorTree) : ℕ := t.childToParent.keys.card

/-- The loop of `GetAncestor`. -/
def getAncestorFrom (t : AncestorTree) : ℕ → ID → Option ID
  | 0, _ => none
  | fuel + 1, blkID =>
    match t.childToParent.lookup blkID with
    | none => some blkID
    | some parentID => getAncestorFrom t fuel parentID

/-- `GetAncestor`. -/
def getAncestor (t : AncestorTree) (blkID : ID) : Option ID := t.getAncestorFrom (t.len + 1) blkID

/-- `Remove`. The parent of a known block has an entry, so that no method of a nil set is called. -/
def remove (t : AncestorTree) (blkID : ID) : AncestorTree :=
  match t.childToParent.lookup blkID with
  | none => t
  | some parent =>
    let children := (t.children parent).erase blkID
    ⟨t.sets, t.childToParent.erase blkID,
      if children.card = 0 then t.parentToChildren.erase parent
      else t.parentToChildren.insert parent children⟩

/-- The loop of `RemoveDescendants`. -/
def removeAll (order : IterationOrder ID) : ℕ → List ID → AncestorTree → Option AncestorTree
  | _, [], t => some t
  | 0, _ :: _, _ => none
  | fuel + 1, childID :: childrenList, t =>
    let t := t.remove childID
    removeAll order fuel ((order.arrange (t.children childID)).reverse ++ childrenList) t

/-- `RemoveDescendants`. -/
def removeDescendants (order : IterationOrder ID) (t : AncestorTree) (blkID : ID) :
    Option AncestorTree :=
  removeAll order (t.len + 1) [blkID] t

end AncestorTree

/-- The two maps hold the parents and the children of the known blocks, and no empty set. -/
structure Mirrors (parent : ID → ID) (known : Finset ID) (t : AncestorTree) : Prop where
  parents : ∀ id parentID, t.childToParent.lookup id = some parentID ↔
    id ∈ known ∧ parentID = parent id
  children : ∀ parentID ids, t.parentToChildren.lookup parentID = some ids ↔
    ids.Nonempty ∧ ids = known.filter (fun id => parent id = parentID)

namespace Mirrors

variable {parent : ID → ID} {known : Finset ID} {t : AncestorTree}

/-- The tree has a parent for exactly the known IDs. -/
theorem keys (mirrors : Mirrors parent known t) : t.childToParent.keys = known := by
  ext id
  rw [Finmap.mem_keys, Finmap.mem_iff]
  constructor
  · rintro ⟨parentID, found⟩
    exact ((mirrors.parents id parentID).mp found).1
  · exact fun inside => ⟨parent id, (mirrors.parents id _).mpr ⟨inside, rfl⟩⟩

/-- `Len` is the number of known IDs. -/
theorem len (mirrors : Mirrors parent known t) : t.len = known.card := by
  unfold AncestorTree.len
  rw [mirrors.keys]

/-- `Has` is true of the known IDs. -/
theorem has_iff (mirrors : Mirrors parent known t) (id : ID) : t.has id = true ↔ id ∈ known := by
  unfold AncestorTree.has
  rw [Option.isSome_iff_exists]
  constructor
  · rintro ⟨parentID, found⟩
    exact ((mirrors.parents id parentID).mp found).1
  · exact fun inside => ⟨parent id, (mirrors.parents id _).mpr ⟨inside, rfl⟩⟩

/-- An unknown ID has no parent in the tree. -/
theorem lookup_of_notMem (mirrors : Mirrors parent known t) {id : ID} (unknown : id ∉ known) :
    t.childToParent.lookup id = none := by
  rw [Option.eq_none_iff_forall_not_mem]
  exact fun parentID found => unknown ((mirrors.parents id parentID).mp found).1

/-- A missing entry is that of a block without known children. -/
theorem children_eq (mirrors : Mirrors parent known t) (parentID : ID) :
    t.children parentID = known.filter (fun id => parent id = parentID) := by
  unfold AncestorTree.children
  cases found : t.parentToChildren.lookup parentID with
  | some ids => exact ((mirrors.children parentID ids).mp found).2
  | none =>
    by_contra nonempty
    have entry := (mirrors.children parentID _).mpr
      ⟨Finset.nonempty_iff_ne_empty.mpr (Ne.symm nonempty), rfl⟩
    rw [found] at entry
    cases entry

/-- Entries under other parents are not affected by one block more or less. -/
theorem children_other (mirrors : Mirrors parent known t) (changed : Finset ID) {id other : ID}
    (different : other ≠ parent id) (same : ∀ node, node ≠ id → (node ∈ changed ↔ node ∈ known))
    (ids : Finset ID) : t.parentToChildren.lookup other = some ids ↔
      ids.Nonempty ∧ ids = changed.filter (fun node => parent node = other) := by
  have kept : changed.filter (fun node => parent node = other) =
      known.filter (fun node => parent node = other) := by
    ext node
    rw [Finset.mem_filter, Finset.mem_filter]
    apply and_congr_left
    rintro rfl
    exact same node (fun equal => different (congrArg parent equal))
  rw [kept]
  exact mirrors.children other ids

/-- A new tree knows nothing. -/
theorem new (sets : SetReading) : Mirrors parent ∅ (AncestorTree.new sets) := by
  constructor
  · intro id parentID
    simp [AncestorTree.new]
  · intro parentID ids
    simp only [AncestorTree.new, Finmap.lookup_empty, Finset.filter_empty]
    constructor
    · intro found
      cases found
    · rintro ⟨nonempty, rfl⟩
      exact absurd nonempty Finset.not_nonempty_empty

/-- With sets that are interfaces, `Add` panics for the first child of a parent. -/
theorem add_eq_none_iff (t : AncestorTree) (blkID parentID : ID) :
    t.add blkID parentID = none ↔
      t.sets = .interface ∧ t.parentToChildren.lookup parentID = none := by
  rw [AncestorTree.add, Option.map_eq_none_iff]
  cases t.parentToChildren.lookup parentID with
  | some children => simp [SetReading.elements]
  | none => cases t.sets <;> simp [SetReading.elements]

/-- `Add` makes a block known. -/
theorem add (mirrors : Mirrors parent known t) (id : ID) {after : AncestorTree}
    (added : t.add id (parent id) = some after) :
    after.sets = t.sets ∧ Mirrors parent (insert id known) after := by
  obtain ⟨children, read, rfl⟩ := Option.map_eq_some_iff.mp added
  have known : children = t.children (parent id) := by
    rw [AncestorTree.children]
    cases found : t.parentToChildren.lookup (parent id) with
    | some ids =>
      rw [found, SetReading.elements] at read
      exact (Option.some.inj read).symm
    | none =>
      rw [found] at read
      cases reading : t.sets with
      | interface =>
        rw [reading] at read
        cases read
      | map =>
        rw [reading] at read
        exact (Option.some.inj read).symm
  subst known
  refine ⟨rfl, ?_⟩
  constructor
  · intro other parentID
    change (t.childToParent.insert id (parent id)).lookup other = _ ↔ _
    by_cases same : other = id
    · subst same
      rw [Finmap.lookup_insert, Option.some.injEq]
      simp [eq_comm]
    · rw [Finmap.lookup_insert_of_ne _ same, mirrors.parents, Finset.mem_insert]
      simp [same]
  · intro parentID ids
    simp only
    by_cases same : parentID = parent id
    · subst same
      rw [Finmap.lookup_insert, Option.some.injEq, mirrors.children_eq, Finset.filter_insert,
        if_pos rfl]
      constructor
      · rintro rfl
        exact ⟨Finset.insert_nonempty _ _, rfl⟩
      · exact fun found => found.2.symm
    · rw [Finmap.lookup_insert_of_ne _ same]
      apply mirrors.children_other _ same
      intro node different
      simp [different]

/-- `Remove` makes a block unknown. -/
theorem remove (mirrors : Mirrors parent known t) (id : ID) :
    Mirrors parent (known.erase id) (t.remove id) := by
  by_cases inside : id ∈ known
  · have found : t.childToParent.lookup id = some (parent id) :=
      (mirrors.parents id _).mpr ⟨inside, rfl⟩
    unfold AncestorTree.remove
    rw [found]
    have left : (t.children (parent id)).erase id =
        (known.erase id).filter (fun node => parent node = parent id) := by
      rw [mirrors.children_eq, Finset.filter_erase]
    constructor
    · intro other parentID
      simp only
      by_cases same : other = id
      · subst same
        rw [Finmap.lookup_erase]
        simp
      · rw [Finmap.lookup_erase_ne same, mirrors.parents, Finset.mem_erase]
        simp [same]
    · intro parentID ids
      simp only
      by_cases same : parentID = parent id
      · subst same
        split
        · rename_i empty
          rw [Finset.card_eq_zero, left] at empty
          rw [Finmap.lookup_erase, empty]
          constructor
          · intro impossible
            cases impossible
          · rintro ⟨nonempty, rfl⟩
            exact absurd nonempty Finset.not_nonempty_empty
        · rename_i some
          rw [Finmap.lookup_insert, Option.some.injEq, ← left]
          constructor
          · rintro rfl
            exact ⟨Finset.card_pos.mp (Nat.pos_of_ne_zero some), rfl⟩
          · exact fun found => found.2.symm
      · have kept := mirrors.children_other (known.erase id) same
          (fun node different => by simp [different]) ids
        split
        · rw [Finmap.lookup_erase_ne same]
          exact kept
        · rw [Finmap.lookup_insert_of_ne _ same]
          exact kept
  · unfold AncestorTree.remove
    rw [mirrors.lookup_of_notMem inside, Finset.erase_eq_of_notMem inside]
    exact mirrors

/-- `GetAncestor` ends at the oldest known ancestor. -/
theorem getAncestor {height : ID → ℕ} (mirrors : Mirrors parent known t)
    (ascends : Ascends parent height known) (id : ID) :
    ∃ top, t.getAncestor id = some top ∧ Oldest parent known id top := by
  have walk : ∀ fuel node, (known.filter (fun other => height other ≤ height node)).card < fuel →
      ∃ top, t.getAncestorFrom fuel node = some top ∧ Oldest parent known node top := by
    intro fuel
    induction fuel with
    | zero => exact fun node few => absurd few (Nat.not_lt_zero _)
    | succ fuel inductionHypothesis =>
      intro node few
      unfold AncestorTree.getAncestorFrom
      by_cases inside : node ∈ known
      · rw [(mirrors.parents node _).mpr ⟨inside, rfl⟩]
        have fewer := card_above_lt ascends inside
        obtain ⟨top, result, leads, unknown⟩ := inductionHypothesis (parent node) (by omega)
        exact ⟨top, result, .up inside leads, unknown⟩
      · rw [mirrors.lookup_of_notMem inside]
        exact ⟨node, rfl, .here node, inside⟩
  apply walk
  rw [mirrors.len]
  exact Nat.lt_succ_of_le (Finset.card_filter_le _ _)

/-- The children that the loop finds after it took out a block. -/
theorem mem_arrange_children (mirrors : Mirrors parent known t) (order : IterationOrder ID)
    (first node : ID) : node ∈ (order.arrange ((t.remove first).children first)).reverse ↔
      node ∈ known.erase first ∧ parent node = first := by
  rw [List.mem_reverse, order.mem_arrange, (mirrors.remove first).children_eq, Finset.mem_filter]

/-- The loop of `RemoveDescendants` prunes the blocks on the worklist. -/
theorem removeAll (order : IterationOrder ID) (fuel : ℕ) {worklist : List ID}
    (mirrors : Mirrors parent known t) (working : Working parent known worklist)
    (enough : known.card ≤ fuel) :
    ∃ after, AncestorTree.removeAll order fuel worklist t = some after ∧
      Mirrors parent (prune parent known (· ∈ worklist)) after := by
  induction fuel generalizing worklist known t with
  | zero =>
    cases worklist with
    | nil => exact ⟨t, by unfold AncestorTree.removeAll; rfl, by simpa using mirrors⟩
    | cons first rest =>
      have counted := Finset.card_pos.mpr ⟨first, working.inside first List.mem_cons_self⟩
      omega
  | succ fuel inductionHypothesis =>
    cases worklist with
    | nil => exact ⟨t, by unfold AncestorTree.removeAll; rfl, by simpa using mirrors⟩
    | cons first rest =>
      have listed := mirrors.mem_arrange_children order first
      obtain ⟨apart, others⟩ := List.nodup_cons.mp working.nodup
      have inside := working.inside first List.mem_cons_self
      have next : Working parent (known.erase first)
          ((order.arrange ((t.remove first).children first)).reverse ++ rest) := by
        apply working_step (List.nodup_reverse.mpr (order.nodup _)) listed _ apart
        · rintro node later rfl
          exact working.detached node (List.mem_cons_of_mem _ later) inside
        · exact ⟨others, fun node later => working.inside node (List.mem_cons_of_mem _ later),
            fun node later => working.detached node (List.mem_cons_of_mem _ later)⟩
      rw [prune_cons known first rest _ listed]
      apply inductionHypothesis (mirrors.remove first) next
      rw [Finset.card_erase_of_mem inside]
      omega

/-- `RemoveDescendants` takes out the block and the known blocks that descend from it. -/
theorem removeDescendants (mirrors : Mirrors parent known t) (order : IterationOrder ID) (id : ID) :
    ∃ after, t.removeDescendants order id = some after ∧
      Mirrors parent (prune parent known (· = id)) after := by
  -- The first block need not be known, and its parent may be; the law of the loop begins after it.
  have listed := mirrors.mem_arrange_children order id
  have next : Working parent (known.erase id)
      ((order.arrange ((t.remove id).children id)).reverse ++ []) := by
    apply working_step (List.nodup_reverse.mpr (order.nodup _)) listed _ List.not_mem_nil
    · exact fun node impossible => absurd impossible List.not_mem_nil
    · exact ⟨List.nodup_nil, by simp, by simp⟩
  obtain ⟨after, result, pruned⟩ := (mirrors.remove id).removeAll order t.len next (by
    rw [mirrors.len]
    exact Finset.card_le_card (Finset.erase_subset id known))
  refine ⟨after, result, ?_⟩
  rw [← prune_cons known id [] _ listed] at pruned
  simpa using pruned

end Mirrors

/-! ## Runs -/

/-- The calls that change the tree. -/
inductive AncestorCall where
  | add (blkID parentID : ID)
  | remove (blkID : ID)
  | removeDescendants (order : IterationOrder ID) (blkID : ID)

/-- One call; the tree is lost where the code would not return. -/
def AncestorTree.call (t : Option AncestorTree) : AncestorCall → Option AncestorTree
  | .add blkID parentID => t.bind (fun t => t.add blkID parentID)
  | .remove blkID => t.map (fun t => t.remove blkID)
  | .removeDescendants order blkID => t.bind (fun t => t.removeDescendants order blkID)

/-- What a call does to the set of known blocks. -/
noncomputable def viewCall (parent : ID → ID) (known : Finset ID) : AncestorCall → Finset ID
  | .add blkID _ => insert blkID known
  | .remove blkID => known.erase blkID
  | .removeDescendants _ blkID => prune parent known (· = blkID)

/-- The block that is added is higher than its one parent. -/
def AncestorCall.Names (parent : ID → ID) (height : ID → ℕ) : AncestorCall → Prop
  | .add blkID parentID => parentID = parent blkID ∧ height parentID < height blkID
  | _ => True

/-- The call is one of `Add`. -/
def AncestorCall.Adds : AncestorCall → Prop
  | .add _ _ => True
  | _ => False

namespace AncestorTree

/-- Removing a block keeps the reading. -/
theorem sets_remove (t : AncestorTree) (id : ID) : (t.remove id).sets = t.sets := by
  rw [remove]
  cases t.childToParent.lookup id with
  | none => rfl
  | some parent => rfl

/-- The loop of `RemoveDescendants` keeps the reading. -/
theorem sets_removeAll (order : IterationOrder ID) (fuel : ℕ) (worklist : List ID)
    (t after : AncestorTree) (result : removeAll order fuel worklist t = some after) :
    after.sets = t.sets := by
  induction fuel generalizing worklist t with
  | zero =>
    cases worklist with
    | nil =>
      rw [removeAll] at result
      rw [Option.some.inj result]
    | cons first rest =>
      rw [removeAll] at result
      cases result
  | succ fuel inductionHypothesis =>
    cases worklist with
    | nil =>
      rw [removeAll] at result
      rw [Option.some.inj result]
    | cons first rest =>
      rw [removeAll] at result
      rw [inductionHypothesis _ _ result, sets_remove]

/-- No call returns after a panic. -/
theorem run_none (calls : List AncestorCall) : run call none calls = none := by
  induction calls with
  | nil => rfl
  | cons first rest inductionHypothesis =>
    rw [run_cons]
    cases first with
    | add blkID parentID => exact inductionHypothesis
    | remove blkID => exact inductionHypothesis
    | removeDescendants order blkID => exact inductionHypothesis

end AncestorTree

/-- The tree shows the known blocks, which are higher than their parents. With sets that are
interfaces there are none. -/
structure Shows (parent : ID → ID) (height : ID → ℕ) (t : AncestorTree) (known : Finset ID) :
    Prop where
  mirrors : Mirrors parent known t
  ascends : Ascends parent height known
  unknown : t.sets = .interface → known = ∅

/-- A call returns a tree that shows the changed set of blocks, or it is one of `Add` that
panics. -/
theorem Shows.call {parent : ID → ID} {height : ID → ℕ} {t : AncestorTree}
    {known : Finset ID} (shows : Shows parent height t known) {call : AncestorCall}
    (names : call.Names parent height) :
    (t.sets = .interface ∧ call.Adds ∧ AncestorTree.call (some t) call = none) ∨
      (t.sets = .interface → ¬ call.Adds) ∧
      ∃ after, AncestorTree.call (some t) call = some after ∧ after.sets = t.sets ∧
        Shows parent height after (viewCall parent known call) := by
  cases call with
  | add blkID parentID =>
    obtain ⟨rfl, higher⟩ := names
    cases added : t.add blkID (parent blkID) with
    | none =>
      exact Or.inl ⟨((Mirrors.add_eq_none_iff _ _ _).mp added).1, trivial, added⟩
    | some after =>
      obtain ⟨same, mirrors⟩ := shows.mirrors.add blkID added
      have usable : t.sets ≠ .interface := by
        intro reading
        have childless : t.parentToChildren.lookup (parent blkID) = none := by
          rw [Option.eq_none_iff_forall_not_mem]
          intro ids found
          obtain ⟨nonempty, rfl⟩ := (shows.mirrors.children _ ids).mp found
          rw [shows.unknown reading] at nonempty
          exact Finset.not_nonempty_empty nonempty
        rw [(Mirrors.add_eq_none_iff _ _ _).mpr ⟨reading, childless⟩] at added
        cases added
      refine Or.inr ⟨fun reading => absurd reading usable, after, added, same, mirrors, ?_, ?_⟩
      · intro node member
        cases Finset.mem_insert.mp member with
        | inl own => exact own ▸ higher
        | inr inside => exact shows.ascends node inside
      · intro reading
        exact absurd (same.symm.trans reading) usable
  | remove blkID =>
    refine Or.inr ⟨fun _ => id, t.remove blkID, rfl, t.sets_remove blkID,
      shows.mirrors.remove blkID, ?_, ?_⟩
    · exact fun node member => shows.ascends node (Finset.mem_of_mem_erase member)
    · intro reading
      rw [viewCall, shows.unknown ((t.sets_remove blkID).symm.trans reading),
        Finset.erase_empty]
  | removeDescendants order blkID =>
    obtain ⟨after, result, pruned⟩ := shows.mirrors.removeDescendants order blkID
    have same := AncestorTree.sets_removeAll _ _ _ _ _ result
    refine Or.inr ⟨fun _ => id, after, result, same, pruned, ?_, ?_⟩
    · exact fun node member => shows.ascends node (prune_subset known _ member)
    · intro reading
      apply Finset.subset_empty.mp
      rw [← shows.unknown (same.symm.trans reading)]
      exact prune_subset known _

/-- Any number of calls. -/
theorem Shows.run {parent : ID → ID} {height : ID → ℕ} {calls : List AncestorCall}
    (names : ∀ call ∈ calls, call.Names parent height) {t : AncestorTree}
    {known : Finset ID} (shows : Shows parent height t known) :
    (t.sets = .interface ∧ (∃ call ∈ calls, call.Adds) ∧
        Runs.run AncestorTree.call (some t) calls = none) ∨
      (t.sets = .interface → ∀ call ∈ calls, ¬ call.Adds) ∧
      ∃ after, Runs.run AncestorTree.call (some t) calls = some after ∧
        Shows parent height after (Runs.run (viewCall parent) known calls) := by
  induction calls generalizing t known with
  | nil => exact Or.inr ⟨fun _ call impossible => absurd impossible List.not_mem_nil, t, rfl, shows⟩
  | cons call rest inductionHypothesis =>
    obtain ⟨own, others⟩ := List.forall_mem_cons.mp names
    rw [run_cons, run_cons]
    rcases shows.call own with ⟨reading, adds, panicked⟩ | ⟨quiet, next, called, same, after⟩
    · rw [panicked, AncestorTree.run_none]
      exact Or.inl ⟨reading, ⟨call, List.mem_cons_self, adds⟩, rfl⟩
    · rw [called]
      rcases inductionHypothesis others after with
        ⟨reading, ⟨later, member, adds⟩, panicked⟩ | ⟨laterQuiet, final, reached, shown⟩
      · exact Or.inl ⟨same.symm.trans reading,
          ⟨later, List.mem_cons_of_mem _ member, adds⟩, panicked⟩
      · refine Or.inr ⟨?_, final, reached, shown⟩
        intro reading
        exact List.forall_mem_cons.mpr ⟨quiet reading, laterQuiet (same.trans reading)⟩

/-- The calls return, unless sets are interfaces and one of the calls is `Add`, which then panics.
After any calls that return the tree is the set of blocks that were added and not removed since, by
themselves or as descendants: it says which they are and how many, it finds the oldest known
ancestor of every block, and it lists exactly the known children of each block. -/
theorem ancestor_tree_shows_view (sets : SetReading) {parent : ID → ID} {height : ID → ℕ}
    {calls : List AncestorCall} (names : ∀ call ∈ calls, call.Names parent height) :
    (run AncestorTree.call (some (AncestorTree.new sets)) calls = none ↔
      sets = .interface ∧ ∃ call ∈ calls, call.Adds) ∧
    ∀ t, run AncestorTree.call (some (AncestorTree.new sets)) calls = some t →
      let known := run (viewCall parent) ∅ calls
      (∀ id, t.has id = true ↔ id ∈ known) ∧ t.len = known.card ∧
      (∀ id top, t.getAncestor id = some top ↔ Oldest parent known id top) ∧
      ∀ id, t.children id = known.filter (fun child => parent child = id) := by
  have started : Shows parent height (AncestorTree.new sets) ∅ :=
    ⟨Mirrors.new sets, fun node impossible => absurd impossible (Finset.notMem_empty node),
      fun _ => rfl⟩
  rcases started.run names with ⟨reading, adds, panicked⟩ | ⟨quiet, after, reached, shown⟩
  · refine ⟨iff_of_true panicked ⟨reading, adds⟩, ?_⟩
    intro t result
    rw [panicked] at result
    cases result
  · constructor
    · refine iff_of_false (by simp [reached]) ?_
      rintro ⟨reading, call, member, adds⟩
      exact quiet reading call member adds
    · intro t result
      rw [reached, Option.some.injEq] at result
      subst result
      refine ⟨shown.mirrors.has_iff, shown.mirrors.len, ?_, shown.mirrors.children_eq⟩
      intro id top
      obtain ⟨found, ancestor, oldest⟩ := shown.mirrors.getAncestor shown.ascends id
      rw [ancestor, Option.some.injEq]
      constructor
      · rintro rfl
        exact oldest
      · exact fun other => oldest.unique other

/-- The parent in a line of blocks that are named by numbers. -/
def lineParent (id : ID) : ID := Vector.replicate 32 (id.get ⟨0, by decide⟩ - 1)

/-- Three blocks in a line are added, and the second is removed with its descendants. -/
def lineCalls : List AncestorCall :=
  [.add (Vector.replicate 32 1) (Vector.replicate 32 0),
    .add (Vector.replicate 32 2) (Vector.replicate 32 1),
    .add (Vector.replicate 32 3) (Vector.replicate 32 2),
    .removeDescendants (byValue 32) (Vector.replicate 32 2)]

/-- With sets that are interfaces the first call panics; with sets that are maps all of them return,
and the tree finds the oldest known ancestors. -/
theorem ancestor_tree_shows_line :
    run AncestorTree.call (some (AncestorTree.new .interface)) lineCalls = none ∧
    ∃ t, run AncestorTree.call (some (AncestorTree.new .map)) lineCalls = some t ∧
      ∀ id top, t.getAncestor id = some top ↔
        Oldest lineParent (run (viewCall lineParent) ∅ lineCalls) id top := by
  have names : ∀ call ∈ lineCalls,
      call.Names lineParent (fun id => (id.get ⟨0, by decide⟩).toNat) := by
    simp only [lineCalls, List.forall_mem_cons]
    exact ⟨⟨by decide, by decide⟩, ⟨by decide, by decide⟩, ⟨by decide, by decide⟩, trivial,
      by simp⟩
  constructor
  · exact (ancestor_tree_shows_view .interface names).1.mpr
      ⟨rfl, _, List.mem_cons_self, trivial⟩
  · obtain ⟨returns, shown⟩ := ancestor_tree_shows_view .map names
    cases result : run AncestorTree.call (some (AncestorTree.new .map)) lineCalls with
    | none => exact absurd (returns.mp result).1 (by decide)
    | some t => exact ⟨t, rfl, (shown t result).2.2.1⟩

end AvalancheParallel.Engine
