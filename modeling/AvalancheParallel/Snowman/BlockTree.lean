import AvalancheParallel.Foundation.ParentTree
import AvalancheParallel.Snowman.Topological

/-!
# The tree of blocks

An ID stands for one block: two blocks with the same ID have the same parent and the
same height. A lineage gives the parent and the height an ID stands for. Under it the
map of blocks is a tree above its root, the last accepted block. Each node lists the
blocks above it as its children, and its snowball instance decides between them.

The laws say what each change of the map does to the tree: writing a node with another
snowball instance, adding a block, and keeping only what is above an accepted child of
the root. The last one is what the worklist of `rejectTransitively` computes.
-/

namespace AvalancheParallel.Snowman

open AvalancheParallel.Ids AvalancheParallel.RangeLoop AvalancheParallel.Snowball
open AvalancheParallel.ParentTree

variable {F : Factory}

/-- The parent and the height of the block an ID stands for. -/
structure Lineage where
  parent : ID → ID
  height : ID → ℕ

/-- The block an ID stands for. -/
def Lineage.block (l : Lineage) (id : ID) : Block := ⟨id, l.parent id, l.height id⟩

/-- The block is the one its ID stands for, and one higher than its parent. -/
structure Lineage.Names (l : Lineage) (blk : Block) : Prop where
  block : blk = l.block blk.id
  height : l.height blk.id = l.height (l.parent blk.id) + 1

/-- The child that the snowball instance of a block prefers. -/
def choice (blocks : GoMap ID (SnowmanBlock F)) (id : ID) : Option ID :=
  (blocks.lookup id).bind (fun n => n.sb.map Tree.preference)

/-- The map is a tree of the blocks above the root. -/
structure Grounded (l : Lineage) (root : ID) (blocks : GoMap ID (SnowmanBlock F)) : Prop where
  rooted : Rooted l.parent l.height root blocks.keys
  rootBlock : ∀ n blk, blocks.lookup root = some n → n.blk = some blk → blk = l.block root
  block : ∀ id n, blocks.lookup id = some n → id ≠ root → n.blk = some (l.block id)
  children : ∀ id n, blocks.lookup id = some n → ∀ child blk,
    n.children.lookup child = some blk ↔
      blk = l.block child ∧ child ∈ blocks ∧ child ≠ root ∧ l.parent child = id
  childless : ∀ id n, blocks.lookup id = some n → n.sb = none → n.children = ∅
  chooses : ∀ id n sb, blocks.lookup id = some n → n.sb = some sb →
    sb.Chooses (fun child => child ∈ n.children)

namespace Grounded

variable {l : Lineage} {root : ID} {blocks : GoMap ID (SnowmanBlock F)}
  (grounded : Grounded l root blocks)
include grounded

/-- The last accepted block is stored. -/
theorem root_mem : root ∈ blocks := Finmap.mem_keys.mp grounded.rooted.root_mem

/-- The parent of every other block is stored. -/
theorem parent_mem {id : ID} (member : id ∈ blocks) (other : id ≠ root) : l.parent id ∈ blocks :=
  Finmap.mem_keys.mp (grounded.rooted.parent_mem id (Finmap.mem_keys.mpr member) other)

/-- Every other block is one higher than its parent. -/
theorem height_eq {id : ID} (member : id ∈ blocks) (other : id ≠ root) :
    l.height id = l.height (l.parent id) + 1 :=
  grounded.rooted.height_eq id (Finmap.mem_keys.mpr member) other

/-- No block is its own parent. -/
theorem parent_ne {id : ID} (member : id ∈ blocks) (other : id ≠ root) : l.parent id ≠ id := by
  intro same
  have level := grounded.height_eq member other
  rw [same] at level
  omega

/-- Every other block is higher than the last accepted one. -/
theorem height_lt {id : ID} (member : id ∈ blocks) (other : id ≠ root) :
    l.height root < l.height id :=
  grounded.rooted.height_lt (Finmap.mem_keys.mpr member) other

/-- No block is lower than the last accepted one. -/
theorem height_le {id : ID} (member : id ∈ blocks) : l.height root ≤ l.height id :=
  grounded.rooted.height_le id (Finmap.mem_keys.mpr member)

/-- Every other block is a child of its parent. -/
theorem childOf {id : ID} (member : id ∈ blocks) (other : id ≠ root) :
    ChildOf l.parent l.height (l.parent id) id := ⟨rfl, grounded.height_eq member other⟩

/-- The children of a block are the stored blocks that name it. -/
theorem mem_children {id : ID} {n : SnowmanBlock F} (found : blocks.lookup id = some n)
    (child : ID) :
    child ∈ n.children ↔ child ∈ blocks ∧ child ≠ root ∧ l.parent child = id := by
  rw [Finmap.mem_iff]
  constructor
  · rintro ⟨blk, listed⟩
    exact ((grounded.children id n found child blk).mp listed).2
  · intro above
    exact ⟨l.block child, (grounded.children id n found child _).mpr ⟨rfl, above⟩⟩

/-- The blocks that are not decided are those other than the root. -/
theorem pending_root {n : SnowmanBlock F} (found : blocks.lookup root = some n) :
    n.pending (l.height root) = none := by
  unfold SnowmanBlock.pending SnowmanBlock.decided
  cases present : n.blk with
  | none => rfl
  | some blk =>
    rw [grounded.rootBlock n blk found present]
    simp [Lineage.block]

/-- Every other block is pending. -/
theorem pending_other {id : ID} {n : SnowmanBlock F} (found : blocks.lookup id = some n)
    (other : id ≠ root) : n.pending (l.height root) = some (l.block id) := by
  have above := grounded.height_lt (Finmap.mem_of_lookup_eq_some found) other
  have undecided : n.decided (l.height root) = false := by
    unfold SnowmanBlock.decided
    rw [grounded.block id n found other]
    exact decide_eq_false (Nat.not_le.mpr above)
  unfold SnowmanBlock.pending
  rw [undecided]
  exact grounded.block id n found other

/-- A node with a child has a snowball instance. -/
theorem exists_sb {id child : ID} {n : SnowmanBlock F} (found : blocks.lookup id = some n)
    (member : child ∈ blocks) (other : child ≠ root) (above : l.parent child = id) :
    ∃ sb, n.sb = some sb := by
  cases stored : n.sb with
  | some sb => exact ⟨sb, rfl⟩
  | none =>
    have listed := (grounded.mem_children found child).mpr ⟨member, other, above⟩
    rw [grounded.childless id n found stored] at listed
    exact absurd listed Finmap.notMem_empty

/-- The preferred child of a node is one of its children. -/
theorem preference {id : ID} {n : SnowmanBlock F} {sb : Tree F}
    (found : blocks.lookup id = some n) (stored : n.sb = some sb) :
    sb.preference ∈ blocks ∧ sb.preference ≠ root ∧ l.parent sb.preference = id :=
  (grounded.mem_children found _).mp (grounded.chooses id n sb found stored).preference

/-- The choice of a block is one of its children. -/
theorem choice_childOf {id next : ID} (chosen : choice blocks id = some next) :
    next ∈ blocks ∧ next ≠ root ∧ ChildOf l.parent l.height id next := by
  obtain ⟨n, found, stored⟩ := Option.bind_eq_some_iff.mp chosen
  obtain ⟨sb, present, rfl⟩ := Option.map_eq_some_iff.mp stored
  obtain ⟨member, other, above⟩ := grounded.preference found present
  exact ⟨member, other, above ▸ grounded.childOf member other⟩

/-- A walk along the preferred children is a chain of blocks in the tree. -/
theorem chain_of_walks {start : ID} {path : List ID} (walks : Walks (choice blocks) start path) :
    List.IsChain (ChildOf l.parent l.height) (start :: path) :=
  List.IsChain.imp (fun _ _ chosen => (grounded.choice_childOf chosen).2.2) walks

/-- A walk stays among the blocks above the last accepted one. -/
theorem mem_of_walks {start : ID} {path : List ID} (walks : Walks (choice blocks) start path)
    {id : ID} (member : id ∈ path) : id ∈ blocks ∧ id ≠ root := by
  induction path generalizing start with
  | nil => cases member
  | cons next rest inductionHypothesis =>
    obtain ⟨chosen, later⟩ := List.isChain_cons_cons.mp walks
    cases List.mem_cons.mp member with
    | inl here =>
      obtain ⟨stored, other, _⟩ := grounded.choice_childOf chosen
      exact here ▸ ⟨stored, other⟩
    | inr further => exact inductionHypothesis later further

/-- A walk from the root stays in the tree. -/
theorem mem_of_walks_root {path : List ID} (walks : Walks (choice blocks) root path) {id : ID}
    (member : id ∈ root :: path) : id ∈ blocks := by
  cases List.mem_cons.mp member with
  | inl atRoot =>
    rw [atRoot]
    exact grounded.root_mem
  | inr listed => exact (grounded.mem_of_walks walks listed).1

end Grounded

/-- The choices after a node is written. -/
theorem choice_insert (blocks : GoMap ID (SnowmanBlock F)) (id other : ID) (n : SnowmanBlock F) :
    choice (blocks.insert id n) other =
      if other = id then n.sb.map Tree.preference else choice blocks other := by
  unfold choice
  split
  · rename_i same
    rw [same, Finmap.lookup_insert, Option.bind_some]
  · rename_i different
    rw [Finmap.lookup_insert_of_ne _ different]

section Changes

variable {l : Lineage} {root : ID} {blocks : GoMap ID (SnowmanBlock F)}

/-- Writing a node of the tree does not change which blocks are stored. -/
theorem keys_insert_of_mem {id : ID} (member : id ∈ blocks) (n : SnowmanBlock F) :
    (blocks.insert id n).keys = blocks.keys := by
  rw [keys_insert, Finset.insert_eq_of_mem (Finmap.mem_keys.mpr member)]

/-- Writing a block that is stored adds none. -/
theorem mem_insert_of_mem {id : ID} (member : id ∈ blocks) (n : SnowmanBlock F) (other : ID) :
    other ∈ blocks.insert id n ↔ other ∈ blocks := by
  rw [← Finmap.mem_keys, keys_insert_of_mem member, Finmap.mem_keys]

/-- A node may be written with another snowball instance over the same children. -/
theorem Grounded.update (grounded : Grounded l root blocks) {id : ID} {n updated : SnowmanBlock F}
    (found : blocks.lookup id = some n) (sameBlock : updated.blk = n.blk)
    (sameChildren : updated.children = n.children)
    (childless : updated.sb = none → n.children = ∅)
    (chooses : ∀ sb, updated.sb = some sb → sb.Chooses (fun child => child ∈ n.children)) :
    Grounded l root (blocks.insert id updated) := by
  have member := Finmap.mem_of_lookup_eq_some found
  have keys := keys_insert_of_mem member updated
  have stored := mem_insert_of_mem member updated
  constructor
  case rooted => exact keys ▸ grounded.rooted
  case rootBlock =>
    intro node blk looked present
    obtain ⟨rfl, rfl⟩ | ⟨_, old⟩ := lookup_insert_cases looked
    · exact grounded.rootBlock n blk found (sameBlock ▸ present)
    · exact grounded.rootBlock node blk old present
  case block =>
    intro other node looked different
    obtain ⟨rfl, rfl⟩ | ⟨_, old⟩ := lookup_insert_cases looked
    · exact sameBlock.trans (grounded.block other n found different)
    · exact grounded.block other node old different
  case children =>
    intro other node looked child blk
    rw [stored]
    obtain ⟨rfl, rfl⟩ | ⟨_, old⟩ := lookup_insert_cases looked
    · rw [sameChildren]
      exact grounded.children other n found child blk
    · exact grounded.children other node old child blk
  case childless =>
    intro other node looked missing
    obtain ⟨rfl, rfl⟩ | ⟨_, old⟩ := lookup_insert_cases looked
    · exact sameChildren.trans (childless missing)
    · exact grounded.childless other node old missing
  case chooses =>
    intro other node sb looked present
    obtain ⟨rfl, rfl⟩ | ⟨_, old⟩ := lookup_insert_cases looked
    · rw [sameChildren]
      exact chooses sb present
    · exact grounded.chooses other node sb old present

/-- The tree of a root alone. -/
theorem Grounded.single (l : Lineage) (root : ID) :
    Grounded l root ((∅ : GoMap ID (SnowmanBlock F)).insert root ⟨none, false, none, ∅⟩) := by
  have only : ∀ {id : ID} {n : SnowmanBlock F},
      ((∅ : GoMap ID (SnowmanBlock F)).insert root ⟨none, false, none, ∅⟩).lookup id = some n →
        id = root ∧ n = ⟨none, false, none, ∅⟩ := by
    intro id n looked
    obtain ⟨same, written⟩ | ⟨_, impossible⟩ := lookup_insert_cases looked
    · exact ⟨same, written.symm⟩
    · rw [Finmap.lookup_empty] at impossible
      cases impossible
  have members : ∀ id, id ∈ (∅ : GoMap ID (SnowmanBlock F)).insert root ⟨none, false, none, ∅⟩ →
      id = root := by
    intro id member
    obtain ⟨n, looked⟩ := Finmap.mem_iff.mp member
    exact (only looked).1
  constructor
  case rooted =>
    constructor
    case root_mem => exact Finmap.mem_keys.mpr (Finmap.mem_insert.mpr (Or.inl rfl))
    case parent_mem =>
      exact fun id member other => absurd (members id (Finmap.mem_keys.mp member)) other
    case height_eq =>
      exact fun id member other => absurd (members id (Finmap.mem_keys.mp member)) other
  case rootBlock =>
    intro n blk looked present
    rw [(only looked).2] at present
    cases present
  case block => exact fun id n looked other => absurd (only looked).1 other
  case children =>
    intro id n looked child blk
    rw [(only looked).2, Finmap.lookup_empty]
    exact iff_of_false (fun impossible => nomatch impossible)
      (fun listed => listed.2.2.1 (members child listed.2.1))
  case childless =>
    intro id n looked _
    rw [(only looked).2]
  case chooses =>
    intro id n sb looked present
    rw [(only looked).2] at present
    cases present

/-- Adding a child inserts it among the children. -/
theorem addChild_children (params : Parameters) (blk : Block) {n : SnowmanBlock F}
    (childless : n.sb = none → n.children = ∅) :
    (n.addChild params blk).children = n.children.insert blk.id blk := by
  unfold SnowmanBlock.addChild
  cases stored : n.sb with
  | none => rw [childless stored]
  | some sb => rfl

/-- Adding a child keeps the block. -/
theorem addChild_blk (params : Parameters) (blk : Block) (n : SnowmanBlock F) :
    (n.addChild params blk).blk = n.blk := by
  unfold SnowmanBlock.addChild
  cases n.sb <;> rfl

/-- The first child is preferred; later ones do not change the preference. -/
theorem addChild_preference (params : Parameters) (blk : Block) (n : SnowmanBlock F) :
    (n.addChild params blk).sb.map Tree.preference =
      some ((n.sb.map Tree.preference).getD blk.id) := by
  unfold SnowmanBlock.addChild
  cases n.sb with
  | none => rfl
  | some sb => exact congrArg some (Tree.preference_add blk.id sb)

/-- The choices of a block with one more child are its children. -/
theorem addChild_chooses (params : Parameters) (blk : Block) {n : SnowmanBlock F}
    (chooses : ∀ sb, n.sb = some sb → sb.Chooses (fun child => child ∈ n.children))
    {sb : Tree F} (stored : (n.addChild params blk).sb = some sb) :
    sb.Chooses (fun child => child ∈ n.children.insert blk.id blk) := by
  have added : blk.id ∈ n.children.insert blk.id blk := Finmap.mem_insert.mpr (Or.inl rfl)
  unfold SnowmanBlock.addChild at stored
  cases present : n.sb with
  | none =>
    rw [present] at stored
    exact Option.some.inj stored ▸ Tree.newTree_chooses params added
  | some old =>
    rw [present] at stored
    have more : old.Chooses (fun child => child ∈ n.children.insert blk.id blk) :=
      (chooses old present).mono (fun _ listed => Finmap.mem_insert.mpr (Or.inr listed))
    exact Option.some.inj stored ▸ more.add added

/-- The map after a block is added to a node. -/
def withChild (params : Parameters) (blk : Block) (parentNode : SnowmanBlock F)
    (blocks : GoMap ID (SnowmanBlock F)) : GoMap ID (SnowmanBlock F) :=
  (blocks.insert blk.parent (parentNode.addChild params blk)).insert blk.id
    ⟨some blk, false, none, ∅⟩

/-- The blocks after one more is issued. -/
theorem mem_withChild (params : Parameters) (blk : Block) {parentNode : SnowmanBlock F}
    (found : blocks.lookup blk.parent = some parentNode) (id : ID) :
    id ∈ withChild params blk parentNode blocks ↔ id = blk.id ∨ id ∈ blocks := by
  unfold withChild
  rw [Finmap.mem_insert, mem_insert_of_mem (Finmap.mem_of_lookup_eq_some found)]

/-- A node found after a block is added. -/
theorem lookup_withChild_cases {params : Parameters} {blk : Block} {parentNode n : SnowmanBlock F}
    {id : ID} (looked : (withChild params blk parentNode blocks).lookup id = some n) :
    id = blk.id ∧ n = ⟨some blk, false, none, ∅⟩ ∨
      id ≠ blk.id ∧ id = blk.parent ∧ n = parentNode.addChild params blk ∨
      id ≠ blk.id ∧ id ≠ blk.parent ∧ blocks.lookup id = some n := by
  obtain ⟨same, written⟩ | ⟨different, old⟩ := lookup_insert_cases looked
  · exact Or.inl ⟨same, written.symm⟩
  · obtain ⟨same, written⟩ | ⟨apart, older⟩ := lookup_insert_cases old
    · exact Or.inr (Or.inl ⟨different, same, written.symm⟩)
    · exact Or.inr (Or.inr ⟨different, apart, older⟩)

/-- The choices after one more block is issued. -/
theorem choice_withChild (params : Parameters) {blk : Block} {parentNode : SnowmanBlock F}
    (found : blocks.lookup blk.parent = some parentNode) (id : ID) :
    choice (withChild params blk parentNode blocks) id =
      if id = blk.id then none
      else if id = blk.parent then some ((choice blocks id).getD blk.id)
      else choice blocks id := by
  unfold withChild
  rw [choice_insert, choice_insert, addChild_preference]
  split
  · rfl
  split
  · rename_i same
    rw [same, choice, found, Option.bind_some]
  · rfl

section Addition

variable (grounded : Grounded l root blocks) (params : Parameters) {blk : Block}
  (names : l.Names blk) (fresh : blk.id ∉ blocks) {parentNode : SnowmanBlock F}
  (found : blocks.lookup blk.parent = some parentNode)

include grounded names fresh found

/-- No stored block is above the new one. -/
theorem Grounded.parent_ne_new {child : ID}
    (member : child ∈ withChild params blk parentNode blocks) (different : child ≠ root) :
    l.parent child ≠ blk.id := by
  intro same
  cases (mem_withChild params blk found child).mp member with
  | inl new =>
    have level := names.height
    rw [← new, same, new] at level
    omega
  | inr old => exact fresh (same ▸ grounded.parent_mem old different)

omit fresh in
/-- An issued block hangs on its parent. -/
theorem Grounded.rooted_withChild :
    Rooted l.parent l.height root (withChild params blk parentNode blocks).keys := by
  have above : blk.parent = l.parent blk.id := congrArg Block.parent names.block
  have parentStored : l.parent blk.id ∈ blocks := above ▸ Finmap.mem_of_lookup_eq_some found
  have stored := mem_withChild params blk found
  constructor
  case root_mem => exact Finmap.mem_keys.mpr ((stored root).mpr (Or.inr grounded.root_mem))
  case parent_mem =>
    intro id member different
    rw [Finmap.mem_keys, stored] at member ⊢
    cases member with
    | inl new => exact Or.inr (new ▸ parentStored)
    | inr old => exact Or.inr (grounded.parent_mem old different)
  case height_eq =>
    intro id member different
    rw [Finmap.mem_keys, stored] at member
    cases member with
    | inl new => exact new ▸ names.height
    | inr old => exact grounded.height_eq old different

/-- The new block is listed at its parent, and nothing at the new block. -/
theorem Grounded.children_withChild {id : ID} {n : SnowmanBlock F}
    (looked : (withChild params blk parentNode blocks).lookup id = some n) (child : ID)
    (listed : Block) :
    n.children.lookup child = some listed ↔ listed = l.block child ∧
      child ∈ withChild params blk parentNode blocks ∧ child ≠ root ∧ l.parent child = id := by
  have above : blk.parent = l.parent blk.id := congrArg Block.parent names.block
  have notRoot : blk.id ≠ root := fun same => fresh (same ▸ grounded.root_mem)
  have stored := mem_withChild params blk found
  obtain ⟨rfl, rfl⟩ | ⟨_, rfl, rfl⟩ | ⟨_, apart, old⟩ := lookup_withChild_cases looked
  · rw [Finmap.lookup_empty]
    constructor
    · exact fun impossible => nomatch impossible
    · rintro ⟨_, member, different, same⟩
      exact absurd same (grounded.parent_ne_new params names fresh found member different)
  · rw [addChild_children params blk (grounded.childless _ parentNode found), stored]
    constructor
    · intro entry
      obtain ⟨rfl, rfl⟩ | ⟨_, older⟩ := lookup_insert_cases entry
      · exact ⟨names.block, Or.inl rfl, notRoot, above.symm⟩
      · obtain ⟨same, member, rest⟩ := (grounded.children _ _ found child listed).mp older
        exact ⟨same, Or.inr member, rest⟩
    · rintro ⟨rfl, member, different, same⟩
      by_cases new : child = blk.id
      · rw [new, Finmap.lookup_insert, ← names.block]
      · rw [Finmap.lookup_insert_of_ne _ new]
        exact (grounded.children _ _ found child _).mpr
          ⟨rfl, member.resolve_left new, different, same⟩
  · rw [grounded.children id n old child listed, stored]
    constructor
    · rintro ⟨same, member, rest⟩
      exact ⟨same, Or.inr member, rest⟩
    · rintro ⟨same, member, different, under⟩
      refine ⟨same, member.resolve_left ?_, different, under⟩
      rintro rfl
      exact apart (under.symm.trans above.symm)

/-- A block with a stored parent may be added. -/
theorem Grounded.withChild : Grounded l root (withChild params blk parentNode blocks) := by
  constructor
  case rooted => exact grounded.rooted_withChild params names found
  case rootBlock =>
    intro n stored looked present
    obtain ⟨same, _⟩ | ⟨_, same, rfl⟩ | ⟨_, _, old⟩ := lookup_withChild_cases looked
    · exact absurd (same ▸ grounded.root_mem) fresh
    · rw [addChild_blk] at present
      exact grounded.rootBlock parentNode stored (same ▸ found) present
    · exact grounded.rootBlock n stored old present
  case block =>
    intro id n looked different
    obtain ⟨rfl, rfl⟩ | ⟨_, rfl, rfl⟩ | ⟨_, _, old⟩ := lookup_withChild_cases looked
    · exact congrArg some names.block
    · rw [addChild_blk]
      exact grounded.block _ parentNode found different
    · exact grounded.block id n old different
  case children =>
    exact fun _ _ looked => grounded.children_withChild params names fresh found looked
  case childless =>
    intro id n looked missing
    obtain ⟨rfl, rfl⟩ | ⟨_, rfl, rfl⟩ | ⟨_, _, old⟩ := lookup_withChild_cases looked
    · rfl
    · have preferred := addChild_preference params blk parentNode
      rw [missing] at preferred
      cases preferred
    · exact grounded.childless id n old missing
  case chooses =>
    intro id n sb looked present
    obtain ⟨rfl, rfl⟩ | ⟨_, rfl, rfl⟩ | ⟨_, _, old⟩ := lookup_withChild_cases looked
    · cases present
    · rw [addChild_children params blk (grounded.childless _ parentNode found)]
      exact addChild_chooses params blk (fun sb => grounded.chooses _ parentNode sb found) present
    · exact grounded.chooses id n sb old present

end Addition

/-- Of the first map the second keeps the blocks above the given one, and that one. -/
def KeptAbove (l : Lineage) (id : ID) (before after : GoMap ID (SnowmanBlock F)) : Prop :=
  ∀ other n, after.lookup other = some n ↔
    before.lookup other = some n ∧ Below l.parent l.height id other

/-- Exactly the blocks above the accepted one are kept. -/
theorem KeptAbove.mem_iff {after : GoMap ID (SnowmanBlock F)} {id : ID}
    (kept : KeptAbove l id blocks after) (other : ID) :
    other ∈ after ↔ other ∈ blocks ∧ Below l.parent l.height id other := by
  simp only [Finmap.mem_iff, kept other, exists_and_right]

/-- The blocks that are kept keep their choices. -/
theorem KeptAbove.choice_eq {after : GoMap ID (SnowmanBlock F)} {id : ID}
    (kept : KeptAbove l id blocks after) {other : ID} (member : other ∈ after) :
    choice after other = choice blocks other := by
  obtain ⟨n, found⟩ := Finmap.mem_iff.mp member
  unfold choice
  rw [found, ((kept other n).mp found).1]

/-- What is kept above a block is a tree with that block as its root. -/
theorem Grounded.keep (grounded : Grounded l root blocks) {id : ID} (stored : id ∈ blocks)
    (different : id ≠ root) {after : GoMap ID (SnowmanBlock F)}
    (kept : KeptAbove l id blocks after) : Grounded l id after := by
  have higher := grounded.height_lt stored different
  have notRoot : ∀ other ∈ after, other ≠ root := by
    rintro other member rfl
    have below := ((kept.mem_iff other).mp member).2.1
    omega
  have above : ∀ other ∈ after, other ≠ id → l.height id < l.height other := by
    intro other member apart
    have below := ((kept.mem_iff other).mp member).2
    refine Nat.lt_of_le_of_ne below.1 (fun level => apart ?_)
    exact (below_iff_eq level.symm).mp below
  constructor
  case rooted =>
    constructor
    case root_mem => exact Finmap.mem_keys.mpr ((kept.mem_iff id).mpr ⟨stored, Below.refl id⟩)
    case parent_mem =>
      intro other member apart
      rw [Finmap.mem_keys] at member ⊢
      obtain ⟨old, below⟩ := (kept.mem_iff other).mp member
      have level := grounded.height_eq old (notRoot other member)
      exact (kept.mem_iff _).mpr ⟨grounded.parent_mem old (notRoot other member),
        (below_iff_parent level (above other member apart)).mp below⟩
    case height_eq =>
      intro other member apart
      rw [Finmap.mem_keys] at member
      exact grounded.height_eq ((kept.mem_iff other).mp member).1 (notRoot other member)
  case rootBlock =>
    intro n blk looked present
    have named := grounded.block id n ((kept id n).mp looked).1 different
    exact Option.some.inj (present.symm.trans named)
  case block =>
    intro other n looked _
    exact grounded.block other n ((kept other n).mp looked).1
      (notRoot other (Finmap.mem_of_lookup_eq_some looked))
  case children =>
    intro other n looked child blk
    obtain ⟨old, below⟩ := (kept other n).mp looked
    rw [grounded.children other n old child blk]
    constructor
    · rintro ⟨same, member, apart, rfl⟩
      have level := grounded.height_eq member apart
      have lower := below.1
      have childBelow := (below_iff_parent level (by omega)).mpr below
      exact ⟨same, (kept.mem_iff child).mpr ⟨member, childBelow⟩, by rintro rfl; omega, rfl⟩
    · rintro ⟨same, member, _, under⟩
      exact ⟨same, ((kept.mem_iff child).mp member).1, notRoot child member, under⟩
  case childless =>
    intro other n looked missing
    exact grounded.childless other n ((kept other n).mp looked).1 missing
  case chooses =>
    intro other n sb looked present
    exact grounded.chooses other n sb ((kept other n).mp looked).1 present

end Changes

/-- The loop of `rejectTransitively` on the way from a tree to what is above an accepted child of
its root: the blocks on the stack are those to be removed whose parent has been removed, or is
the root. -/
structure Sweeping (l : Lineage) (root accepted : ID) (blocks : GoMap ID (SnowmanBlock F))
    (stack : List ID) (current : GoMap ID (SnowmanBlock F)) : Prop where
  lookup : ∀ id n, current.lookup id = some n → blocks.lookup id = some n
  removed : ∀ id ∈ blocks, id ∉ current →
    id ≠ root ∧ ¬ Below l.parent l.height accepted id ∧
      (l.parent id = root ∨ l.parent id ∉ current)
  mem_stack : ∀ id, id ∈ stack ↔ id ∈ current ∧ id ≠ root ∧ ¬ Below l.parent l.height accepted id ∧
    (l.parent id = root ∨ l.parent id ∉ current)
  nodup : stack.Nodup

namespace Sweeping

variable {l : Lineage} {root accepted : ID} {blocks current : GoMap ID (SnowmanBlock F)}

/-- What is still to be swept was stored before. -/
theorem mem_blocks {stack : List ID} (sweeping : Sweeping l root accepted blocks stack current)
    {id : ID} (member : id ∈ current) : id ∈ blocks := by
  obtain ⟨n, found⟩ := Finmap.mem_iff.mp member
  exact Finmap.mem_of_lookup_eq_some (sweeping.lookup id n found)

/-- The children of a block on the stack are stored and not yet on the stack, and they are not
above the accepted block. -/
theorem children {id : ID} {rest : List ID}
    (sweeping : Sweeping l root accepted blocks (id :: rest) current)
    (grounded : Grounded l root blocks) (level : l.height accepted = l.height root + 1)
    {child : ID} (member : child ∈ blocks) (other : child ≠ root) (above : l.parent child = id) :
    child ∈ current ∧ child ∉ id :: rest ∧ child ≠ id ∧
      ¬ Below l.parent l.height accepted child := by
  subst above
  obtain ⟨stored, notRoot, notBelow, _⟩ := (sweeping.mem_stack _).mp List.mem_cons_self
  have childLevel := grounded.height_eq member other
  have parentLevel := grounded.height_lt (sweeping.mem_blocks stored) notRoot
  refine ⟨?_, ?_, by intro same; rw [← same] at childLevel; omega, ?_⟩
  · by_contra gone
    cases (sweeping.removed child member gone).2.2 with
    | inl atRoot => exact notRoot atRoot
    | inr missing => exact missing stored
  · intro waiting
    cases ((sweeping.mem_stack child).mp waiting).2.2.2 with
    | inl atRoot => exact notRoot atRoot
    | inr missing => exact missing stored
  · intro below
    exact notBelow ((below_iff_parent childLevel (by omega)).mp below)

/-- One iteration: the block is removed and its children are put on the stack. -/
theorem step {id : ID} {rest added : List ID}
    (sweeping : Sweeping l root accepted blocks (id :: rest) current)
    (grounded : Grounded l root blocks) (level : l.height accepted = l.height root + 1)
    (children : ∀ child, child ∈ added ↔ child ∈ blocks ∧ child ≠ root ∧ l.parent child = id)
    (distinct : added.Nodup) :
    Sweeping l root accepted blocks (added ++ rest) (current.erase id) := by
  obtain ⟨stored, notRoot, notBelow, parentGone⟩ := (sweeping.mem_stack id).mp List.mem_cons_self
  have notWaiting := (List.nodup_cons.mp sweeping.nodup).1
  have later : ∀ child ∈ added, child ∈ current ∧ child ∉ id :: rest ∧ child ≠ id ∧
      ¬ Below l.parent l.height accepted child := by
    intro child member
    obtain ⟨old, other, above⟩ := (children child).mp member
    exact sweeping.children grounded level old other above
  constructor
  case lookup =>
    intro other n found
    exact sweeping.lookup other n (lookup_erase_some found).2
  case removed =>
    intro other member gone
    rw [Finmap.mem_erase, not_and_or, not_not] at gone
    have step : l.parent other = root ∨ l.parent other ∉ current →
        l.parent other = root ∨ l.parent other ∉ current.erase id :=
      Or.imp_right (fun missing inside => missing (Finmap.mem_erase.mp inside).2)
    cases gone with
    | inl same =>
      subst same
      exact ⟨notRoot, notBelow, step parentGone⟩
    | inr missing =>
      obtain ⟨apart, outside, up⟩ := sweeping.removed other member missing
      exact ⟨apart, outside, step up⟩
  case mem_stack =>
    intro other
    rw [List.mem_append, Finmap.mem_erase, Finmap.mem_erase, not_and_or, not_not]
    constructor
    · rintro (new | waiting)
      · obtain ⟨inside, _, apart, outside⟩ := later other new
        obtain ⟨_, different, above⟩ := (children other).mp new
        exact ⟨⟨apart, inside⟩, different, outside, Or.inr (Or.inl above)⟩
      · obtain ⟨inside, different, outside, up⟩ :=
          (sweeping.mem_stack other).mp (List.mem_cons_of_mem _ waiting)
        exact ⟨⟨fun same => notWaiting (same ▸ waiting), inside⟩, different, outside,
          up.imp_right Or.inr⟩
    · rintro ⟨⟨apart, inside⟩, different, outside, up⟩
      have waiting : l.parent other = root ∨ l.parent other ∉ current → other ∈ rest := by
        intro old
        have member := (sweeping.mem_stack other).mpr ⟨inside, different, outside, old⟩
        exact (List.mem_cons.mp member).resolve_left apart
      rcases up with atRoot | above | missing
      · exact Or.inr (waiting (Or.inl atRoot))
      · exact Or.inl ((children other).mpr ⟨sweeping.mem_blocks inside, different, above⟩)
      · exact Or.inr (waiting (Or.inr missing))
  case nodup =>
    refine List.Nodup.append distinct (List.nodup_cons.mp sweeping.nodup).2 ?_
    intro other new waiting
    exact (later other new).2.1 (List.mem_cons_of_mem _ waiting)

/-- When the stack is empty, the blocks above the accepted one and the root are left. -/
theorem finished (sweeping : Sweeping l root accepted blocks [] current)
    (grounded : Grounded l root blocks) (level : l.height accepted = l.height root + 1) :
    KeptAbove l accepted blocks (current.erase root) := by
  have below : ∀ id ∈ blocks.keys, id ∈ current → id ≠ root →
      Below l.parent l.height accepted id := by
    refine grounded.rooted.induction ?_ ?_
    · exact fun _ absurdity => absurd rfl absurdity
    · intro id member different up inside _
      by_contra outside
      have neither : ¬ (l.parent id = root ∨ l.parent id ∉ current) := fun gone =>
        List.not_mem_nil ((sweeping.mem_stack id).mpr ⟨inside, different, outside, gone⟩)
      obtain ⟨notRoot, kept⟩ := not_or.mp neither
      have parentBelow := up (not_not.mp kept) notRoot
      have childLevel := grounded.rooted.height_eq id member different
      have parentLevel := parentBelow.1
      exact outside ((below_iff_parent childLevel (by omega)).mpr parentBelow)
  intro id n
  constructor
  · intro found
    obtain ⟨different, inside⟩ := lookup_erase_some found
    have old := sweeping.lookup id n inside
    exact ⟨old, below id (Finmap.mem_keys.mpr (Finmap.mem_of_lookup_eq_some old))
      (Finmap.mem_of_lookup_eq_some inside) different⟩
  · rintro ⟨old, above⟩
    have different : id ≠ root := by
      rintro rfl
      have lower := above.1
      omega
    have inside : id ∈ current := by
      by_contra gone
      exact (sweeping.removed id (Finmap.mem_of_lookup_eq_some old) gone).2.1 above
    obtain ⟨m, found⟩ := Finmap.mem_iff.mp inside
    rw [Finmap.lookup_erase_ne different, found, ← sweeping.lookup id m found, old]

end Sweeping

end AvalancheParallel.Snowman
