import AvalancheParallel.Snowman.Decisions

/-!
# The history of the calls

What the lists of issued, accepted and rejected blocks have to do with the tree. The
accepted blocks are a chain from the first block to the root of the tree. A rejected block
is not in the tree, and its parent was rejected or is lower than the root; as its parent is
not in the tree either, it can not be added again. The blocks of the tree above the root
are those that were issued and not decided.
-/

namespace AvalancheParallel.Snowman

open AvalancheParallel.Ids AvalancheParallel.RangeLoop AvalancheParallel.Snowball
open AvalancheParallel.ParentTree

variable {F : Factory} {l : Lineage} {genesis : ID}

/-- The IDs of a list of blocks. -/
def ids (blks : List Block) : List ID := blks.map Block.id

/-- The IDs of two parts of a list. -/
@[simp] theorem ids_append (first second : List Block) :
    ids (first ++ second) = ids first ++ ids second := List.map_append

/-- A block has the ID it is made from. -/
@[simp] theorem ids_block (l : Lineage) (list : List ID) : ids (list.map l.block) = list := by
  unfold ids
  rw [List.map_map]
  exact List.map_id list

/-- The tree and the lists agree. -/
structure Recorded (l : Lineage) (genesis : ID) (ts : Topological F) : Prop where
  grounded : Grounded l ts.lastAcceptedID ts.blocks
  height : ts.lastAcceptedHeight = l.height ts.lastAcceptedID
  named : ∀ blk ∈ ts.accepted, blk = l.block blk.id
  chain : List.IsChain (ChildOf l.parent l.height) (genesis :: ids ts.accepted)
  last : (ids ts.accepted).getLastD genesis = ts.lastAcceptedID
  rejected : ∀ id ∈ ids ts.rejected, id ∉ ts.blocks ∧
    (l.parent id ∈ ids ts.rejected ∨ l.height (l.parent id) < ts.lastAcceptedHeight)
  processing : ∀ id, id ∈ ts.blocks ∧ id ≠ ts.lastAcceptedID ↔
    id ∈ ids ts.issued ∧ id ∉ ids ts.accepted ∧ id ∉ ids ts.rejected
  nodup : (ids ts.accepted ++ ids ts.rejected).Nodup

/-- The state after a block was added to a stored parent. -/
def Topological.extended (blk : Block) (parentNode : SnowmanBlock F) (ts : Topological F) :
    Topological F :=
  let ts := { ts with
    blocks := withChild ts.params blk parentNode ts.blocks
    issued := ts.issued ++ [blk] }
  if ts.preference = blk.parent then
    { ts with
      preference := blk.id
      preferredIDs := insert blk.id ts.preferredIDs
      preferredHeights := ts.preferredHeights.insert blk.height blk.id }
  else ts

/-- `Add` fails and changes nothing, or it adds a block that was not in the tree. -/
theorem Topological.add_law {ts : Topological F} (grounded : Grounded l ts.lastAcceptedID ts.blocks)
    {blk : Block} (names : l.Names blk) :
    (∃ error, ts.add blk = (ts, some error)) ∨
      blk.id ∉ ts.blocks ∧ ∃ parentNode, ts.blocks.lookup blk.parent = some parentNode ∧
        ts.add blk = (ts.extended blk parentNode, none) := by
  unfold Topological.add
  split
  · exact Or.inl ⟨_, rfl⟩
  · rename_i free
    cases found : ts.blocks.lookup blk.parent with
    | none => exact Or.inl ⟨_, rfl⟩
    | some parentNode =>
      refine Or.inr ⟨?_, parentNode, rfl, ?_⟩
      · intro stored
        have above : blk.parent = l.parent blk.id := congrArg Block.parent names.block
        have lower := grounded.height_le (Finmap.mem_of_lookup_eq_some found)
        have level := names.height
        rw [← above] at level
        -- The root is lower than the block.
        have other : blk.id ≠ ts.lastAcceptedID := by
          intro same
          rw [same] at level
          omega
        simp [Topological.processing, other, stored] at free
      · unfold Topological.extended
        dsimp only [withChild]
        split
        · rfl
        · rfl

section Extended

variable (blk : Block) (parentNode : SnowmanBlock F) (ts : Topological F)

/-- Issuing a block keeps the parameters. -/
@[simp] theorem Topological.extended_params : (ts.extended blk parentNode).params = ts.params := by
  unfold Topological.extended
  dsimp only
  split <;> rfl

/-- Issuing a block keeps the last accepted block. -/
@[simp] theorem Topological.extended_lastAcceptedID :
    (ts.extended blk parentNode).lastAcceptedID = ts.lastAcceptedID := by
  unfold Topological.extended
  dsimp only
  split <;> rfl

/-- Issuing a block keeps the last accepted height. -/
@[simp] theorem Topological.extended_lastAcceptedHeight :
    (ts.extended blk parentNode).lastAcceptedHeight = ts.lastAcceptedHeight := by
  unfold Topological.extended
  dsimp only
  split <;> rfl

/-- Issuing a block stores it below its parent. -/
@[simp] theorem Topological.extended_blocks :
    (ts.extended blk parentNode).blocks = withChild ts.params blk parentNode ts.blocks := by
  unfold Topological.extended
  dsimp only
  split <;> rfl

/-- An issued block is recorded. -/
@[simp] theorem Topological.extended_issued :
    (ts.extended blk parentNode).issued = ts.issued ++ [blk] := by
  unfold Topological.extended
  dsimp only
  split <;> rfl

/-- Issuing a block accepts none. -/
@[simp] theorem Topological.extended_accepted :
    (ts.extended blk parentNode).accepted = ts.accepted := by
  unfold Topological.extended
  dsimp only
  split <;> rfl

/-- Issuing a block rejects none. -/
@[simp] theorem Topological.extended_rejected :
    (ts.extended blk parentNode).rejected = ts.rejected := by
  unfold Topological.extended
  dsimp only
  split <;> rfl

end Extended

namespace Recorded

variable {ts : Topological F} (recorded : Recorded l genesis ts)
include recorded

/-- Accepted blocks are not higher than the root. -/
theorem height_accepted {id : ID} (member : id ∈ ids ts.accepted) :
    l.height id ≤ ts.lastAcceptedHeight := by
  have bound := (height_mem recorded.chain member).2
  rw [recorded.last, ← recorded.height] at bound
  exact bound

/-- Another tree of the same blocks agrees with the same lists. -/
theorem congr {after : Topological F} (sameLast : after.lastAcceptedID = ts.lastAcceptedID)
    (sameHeight : after.lastAcceptedHeight = ts.lastAcceptedHeight)
    (sameIssued : after.issued = ts.issued) (sameAccepted : after.accepted = ts.accepted)
    (sameRejected : after.rejected = ts.rejected)
    (grounded : Grounded l ts.lastAcceptedID after.blocks)
    (members : ∀ id, id ∈ after.blocks ↔ id ∈ ts.blocks) : Recorded l genesis after := by
  constructor
  case grounded => exact sameLast ▸ grounded
  case height => rw [sameHeight, sameLast, recorded.height]
  case named => exact sameAccepted ▸ recorded.named
  case chain => exact sameAccepted ▸ recorded.chain
  case last => rw [sameAccepted, sameLast, recorded.last]
  case rejected =>
    rw [sameRejected, sameHeight]
    intro id member
    rw [members]
    exact recorded.rejected id member
  case processing =>
    intro id
    rw [members, sameLast, sameIssued, sameAccepted, sameRejected]
    exact recorded.processing id
  case nodup => rw [sameAccepted, sameRejected]; exact recorded.nodup

/-- A block of the tree above the root is not decided. -/
theorem undecided {id : ID} (member : id ∈ ts.blocks) (other : id ≠ ts.lastAcceptedID) :
    id ∉ ids ts.accepted ∧ id ∉ ids ts.rejected :=
  ((recorded.processing id).mp ⟨member, other⟩).2

section Accepting

variable {accepted : ID} (stored : accepted ∈ ts.blocks)
  (childOf : ChildOf l.parent l.height ts.lastAcceptedID accepted) {rejected : List ID}
  {after : GoMap ID (SnowmanBlock F)}
  (decides : Topological.Decides l ts.lastAcceptedID accepted rejected ts.blocks after)

include decides

omit recorded in
/-- The root is not kept, as it is lower than the accepted block. -/
theorem ne_root_of_kept (childOf : ChildOf l.parent l.height ts.lastAcceptedID accepted) {id : ID}
    (member : id ∈ after) : id ≠ ts.lastAcceptedID := by
  rintro rfl
  have lower := ((decides.kept.mem_iff _).mp member).2.1
  have level := childOf.2
  omega

include stored childOf in
/-- None of the blocks that are decided now was decided before. -/
theorem undecided_before : ∀ id ∈ accepted :: rejected,
    id ∉ ids ts.accepted ∧ id ∉ ids ts.rejected := by
  intro id member
  cases List.mem_cons.mp member with
  | inl same =>
    have level := childOf.2
    refine recorded.undecided (same ▸ stored) ?_
    rintro rfl
    rw [← same] at level
    omega
  | inr new =>
    obtain ⟨inside, other, _⟩ := (decides.mem_rejected id).mp new
    exact recorded.undecided inside other

include childOf in
/-- The parent of a block that is rejected is the old root, or it is rejected as well. -/
theorem parent_of_rejected {id : ID} (new : id ∈ rejected) :
    id ∉ after ∧ (l.parent id ∈ rejected ∨ l.height (l.parent id) < l.height accepted) := by
  have level := childOf.2
  obtain ⟨inside, other, outside⟩ := (decides.mem_rejected id).mp new
  refine ⟨fun member => outside ((decides.kept.mem_iff id).mp member).2, ?_⟩
  by_cases atRoot : l.parent id = ts.lastAcceptedID
  · right
    rw [atRoot]
    omega
  · left
    have parentStored := recorded.grounded.parent_mem inside other
    have idLevel := recorded.grounded.height_eq inside other
    have parentLevel := recorded.grounded.height_lt parentStored atRoot
    exact (decides.mem_rejected _).mpr ⟨parentStored, atRoot,
      fun below => outside ((below_iff_parent idLevel (by omega)).mpr below)⟩

include childOf in
/-- The blocks kept above the accepted one are those that stay undecided. -/
theorem mem_kept_iff (id : ID) : id ∈ after ∧ id ≠ accepted ↔
    id ∈ ids ts.issued ∧ id ∉ ids ts.accepted ++ [accepted] ∧
      id ∉ ids ts.rejected ++ rejected := by
  rw [List.mem_append, List.mem_singleton, List.mem_append, not_or, not_or]
  constructor
  · rintro ⟨member, apart⟩
    obtain ⟨inside, below⟩ := (decides.kept.mem_iff id).mp member
    obtain ⟨issued, notAccepted, notRejected⟩ :=
      (recorded.processing id).mp ⟨inside, ne_root_of_kept decides childOf member⟩
    exact ⟨issued, ⟨notAccepted, apart⟩, notRejected,
      fun new => ((decides.mem_rejected id).mp new).2.2 below⟩
  · rintro ⟨issued, ⟨notAccepted, apart⟩, notRejected, spared⟩
    obtain ⟨inside, other⟩ := (recorded.processing id).mpr ⟨issued, notAccepted, notRejected⟩
    refine ⟨(decides.kept.mem_iff id).mpr ⟨inside, ?_⟩, apart⟩
    by_contra outside
    exact spared ((decides.mem_rejected id).mpr ⟨inside, other, outside⟩)

include stored childOf in
/-- Every block is decided once. -/
theorem nodup_decided :
    ((ids ts.accepted ++ [accepted]) ++ (ids ts.rejected ++ rejected)).Nodup := by
  have order : ((ids ts.accepted ++ [accepted]) ++ (ids ts.rejected ++ rejected)).Perm
      ((ids ts.accepted ++ ids ts.rejected) ++ (accepted :: rejected)) := by
    simp only [List.append_assoc, List.singleton_append]
    exact List.perm_middle.symm.append_left _
  rw [order.nodup_iff]
  refine List.nodup_append'.mpr ⟨recorded.nodup, ?_, ?_⟩
  · refine List.nodup_cons.mpr ⟨?_, decides.nodup⟩
    exact fun new => ((decides.mem_rejected _).mp new).2.2 (Below.refl _)
  · intro id earlier new
    obtain ⟨notAccepted, notRejected⟩ := recorded.undecided_before stored childOf decides id new
    exact (List.mem_append.mp earlier).elim notAccepted notRejected

include stored childOf in
/-- Accepting a child of the root. -/
theorem accepting : Recorded l genesis (ts.accepting l accepted rejected after) := by
  have acceptedIDs : ids (ts.accepting l accepted rejected after).accepted =
      ids ts.accepted ++ [accepted] := ids_append _ _
  have rejectedIDs : ids (ts.accepting l accepted rejected after).rejected =
      ids ts.rejected ++ rejected := by
    change ids (ts.rejected ++ rejected.map l.block) = _
    rw [ids_append, ids_block]
  have level := childOf.2
  constructor
  case grounded =>
    refine recorded.grounded.keep stored ?_ decides.kept
    rintro rfl
    omega
  case height => rfl
  case named =>
    intro blk member
    cases List.mem_append.mp member with
    | inl earlier => exact recorded.named blk earlier
    | inr new =>
      rw [List.mem_singleton.mp new]
      rfl
  case chain =>
    rw [acceptedIDs, isChain_cons_append, recorded.last]
    exact ⟨recorded.chain,
      List.isChain_cons_cons.mpr ⟨childOf, List.isChain_singleton accepted⟩⟩
  case last =>
    rw [acceptedIDs]
    exact List.getLastD_concat
  case rejected =>
    rw [rejectedIDs]
    intro id member
    change id ∉ after ∧ (l.parent id ∈ _ ∨ l.height (l.parent id) < l.height accepted)
    cases List.mem_append.mp member with
    | inl earlier =>
      obtain ⟨gone, up⟩ := recorded.rejected id earlier
      refine ⟨fun inside => gone ((decides.kept.mem_iff id).mp inside).1,
        up.imp (List.mem_append_left _) ?_⟩
      intro lower
      rw [recorded.height] at lower
      omega
    | inr new =>
      obtain ⟨gone, up⟩ := recorded.parent_of_rejected childOf decides new
      exact ⟨gone, up.imp_left (List.mem_append_right _)⟩
  case processing =>
    rw [acceptedIDs, rejectedIDs]
    exact recorded.mem_kept_iff childOf decides
  case nodup =>
    rw [acceptedIDs, rejectedIDs]
    exact recorded.nodup_decided stored childOf decides

end Accepting

/-- Adding a block whose parent is stored. A block that was decided has no stored parent. -/
theorem extended {blk : Block} (names : l.Names blk) (fresh : blk.id ∉ ts.blocks)
    {parentNode : SnowmanBlock F} (found : ts.blocks.lookup blk.parent = some parentNode) :
    Recorded l genesis (ts.extended blk parentNode) := by
  have above : blk.parent = l.parent blk.id := congrArg Block.parent names.block
  have parentStored : l.parent blk.id ∈ ts.blocks := above ▸ Finmap.mem_of_lookup_eq_some found
  have level := names.height
  have lower := recorded.grounded.height_le parentStored
  have notRoot : blk.id ≠ ts.lastAcceptedID := fun same => fresh (same ▸ recorded.grounded.root_mem)
  have notAccepted : blk.id ∉ ids ts.accepted := by
    intro member
    have bound := recorded.height_accepted member
    rw [recorded.height] at bound
    omega
  have notRejected : blk.id ∉ ids ts.rejected := by
    intro member
    cases (recorded.rejected blk.id member).2 with
    | inl parentRejected => exact (recorded.rejected _ parentRejected).1 parentStored
    | inr below =>
      rw [recorded.height] at below
      omega
  have members := mem_withChild ts.params blk found
  constructor
  case grounded => simpa using recorded.grounded.withChild ts.params names fresh found
  case height => simpa using recorded.height
  case named => simpa using recorded.named
  case chain => simpa using recorded.chain
  case last =>
    rw [Topological.extended_accepted, Topological.extended_lastAcceptedID, recorded.last]
  case rejected =>
    simp only [Topological.extended_rejected, Topological.extended_blocks,
      Topological.extended_lastAcceptedHeight, members]
    intro id member
    obtain ⟨gone, up⟩ := recorded.rejected id member
    exact ⟨fun stored => stored.elim (fun same => notRejected (same ▸ member)) gone, up⟩
  case processing =>
    simp only [Topological.extended_rejected, Topological.extended_blocks,
      Topological.extended_lastAcceptedID, Topological.extended_issued,
      Topological.extended_accepted, members, ids_append, List.mem_append]
    intro id
    have old := recorded.processing id
    have new : id ∈ ids [blk] ↔ id = blk.id := List.mem_singleton
    rw [new]
    by_cases same : id = blk.id
    · subst same
      exact iff_of_true ⟨Or.inl rfl, notRoot⟩ ⟨Or.inr rfl, notAccepted, notRejected⟩
    · simp only [same, false_or, or_false]
      exact old
  case nodup => simpa using recorded.nodup

end Recorded

end AvalancheParallel.Snowman
