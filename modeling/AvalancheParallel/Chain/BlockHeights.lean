import Mathlib.Order.Bounds.Basic
import AvalancheParallel.Chain.LatestBlocks
import AvalancheParallel.Chain.Replay

/-!
# Heights

`CreateBlock` starts from one above the current height and overwrites that with one
above every parent that is at least as high as the chain, so that the last of these
parents decides. The new block is one above its highest parent exactly when that last
parent is the highest.

`SubmitBlock` keeps a running maximum of the heights and, apart from it, the set of
latest blocks. A block that is lower than the chain may take the highest of the latest
blocks out of the set without being as high; the two agree in every state of a run
exactly when this never happens.
-/

namespace AvalancheParallel.Chain

open AvalancheParallel.RangeLoop AvalancheParallel.Ids

/-- The heights of the parents, in the order in which they are listed. -/
def parentHeights (bc : Blockchain) (parentIDs : List ID) : List ℕ :=
  parentIDs.filterMap (fun parentID =>
    (bc.blocks.lookup parentID).map (fun parent => parent.height.toNat))

/-- The block is one above the highest of its parents. -/
def AboveParents (bc : Blockchain) (block : Block) : Prop :=
  ∃ highest, (parentHeights bc block.parentIDs).max? = some highest ∧
    block.height.toNat = highest + 1

/-- Of the parents at least as high as the chain the last one is the highest parent, and there
is a height above it. -/
def HighestLast (bc : Blockchain) (parentIDs : List ID) : Prop :=
  ∃ front height back, parentHeights bc parentIDs = front ++ height :: back ∧
    bc.currentHeight.toNat ≤ height ∧ height + 1 < 2 ^ 64 ∧
    (∀ other ∈ back, other < bc.currentHeight.toNat) ∧ ∀ other ∈ front, other ≤ height

/-- The loop of the height rule over the heights of the parents. -/
def heightAbove (current : ℕ) (heights : List ℕ) : ℕ :=
  heights.foldl (fun height parent => if current ≤ parent then parent else height) current

/-- The loop ends with the last height that is at least the current one. -/
theorem heightAbove_append (current height : ℕ) (front back : List ℕ) (high : current ≤ height)
    (low : ∀ other ∈ back, other < current) :
    heightAbove current (front ++ height :: back) = height := by
  have rest : ∀ start, back.foldl
      (fun height parent => if current ≤ parent then parent else height) start = start := by
    induction back with
    | nil => exact fun _ => rfl
    | cons other others inductionHypothesis =>
      intro start
      have below : ¬ current ≤ other := Nat.not_le_of_lt (low other List.mem_cons_self)
      rw [List.foldl_cons, if_neg below]
      exact inductionHypothesis (fun later member => low later (List.mem_cons_of_mem other member))
        start
  unfold heightAbove
  rw [List.foldl_append, List.foldl_cons, if_pos high, rest]

/-- Without such a height the loop ends where it began. -/
theorem heightAbove_cases (current : ℕ) (heights : List ℕ) :
    (∃ front height back, heights = front ++ height :: back ∧ current ≤ height ∧
      ∀ other ∈ back, other < current) ∨
    (∀ other ∈ heights, other < current) ∧ heightAbove current heights = current := by
  induction heights using List.reverseRecOn with
  | nil => exact Or.inr ⟨fun _ member => absurd member List.not_mem_nil, rfl⟩
  | append_singleton front last inductionHypothesis =>
    by_cases high : current ≤ last
    · exact Or.inl ⟨front, last, [], rfl, high, fun _ member => absurd member List.not_mem_nil⟩
    · have low : last < current := Nat.lt_of_not_le high
      rcases inductionHypothesis with ⟨earlier, height, back, rfl, above, lower⟩ | ⟨lower, same⟩
      · refine Or.inl ⟨earlier, height, back ++ [last], by simp, above, ?_⟩
        intro other member
        rcases List.mem_append.mp member with before | here
        · exact lower other before
        · exact List.mem_singleton.mp here ▸ low
      · refine Or.inr ⟨?_, ?_⟩
        · intro other member
          rcases List.mem_append.mp member with before | here
          · exact lower other before
          · exact List.mem_singleton.mp here ▸ low
        · unfold heightAbove at same ⊢
          rw [List.foldl_append, same, List.foldl_cons, if_neg high, List.foldl_nil]

/-- The loop of the height rule: parents that are not stored are skipped, and the others raise the
height when they reach the current one. -/
theorem foldl_height (bc : Blockchain) (step : UInt64 → ID → UInt64)
    (skips : ∀ height parentID, bc.blocks.lookup parentID = none → step height parentID = height)
    (raises : ∀ height parentID parent, bc.blocks.lookup parentID = some parent →
      step height parentID =
        if bc.currentHeight ≤ parent.height then parent.height + 1 else height)
    (parentIDs : List ID) (start : ℕ) :
    parentIDs.foldl step (UInt64.ofNat start + 1) =
      UInt64.ofNat ((parentHeights bc parentIDs).foldl (fun height parent =>
        if bc.currentHeight.toNat ≤ parent then parent else height) start) + 1 := by
  induction parentIDs generalizing start with
  | nil => rfl
  | cons parentID rest inductionHypothesis =>
    unfold parentHeights at inductionHypothesis ⊢
    rw [List.foldl_cons, List.filterMap_cons]
    cases found : bc.blocks.lookup parentID with
    | none =>
      rw [skips _ parentID found]
      exact inductionHypothesis start
    | some parent =>
      rw [raises _ parentID parent found]
      simp only [Option.map_some, List.foldl_cons, UInt64.le_iff_toNat_le]
      split
      · have next := inductionHypothesis parent.height.toNat
        rw [UInt64.ofNat_toNat] at next
        exact next
      · exact inductionHypothesis start

/-- The height rule, as a function of the heights of the parents. -/
theorem nextHeight_eq (bc : Blockchain) (parentIDs : List ID) :
    nextHeight bc parentIDs =
      UInt64.ofNat (heightAbove bc.currentHeight.toNat (parentHeights bc parentIDs)) + 1 := by
  have start : bc.currentHeight + 1 = UInt64.ofNat bc.currentHeight.toNat + 1 := by
    rw [UInt64.ofNat_toNat]
  unfold nextHeight heightAbove
  rw [start]
  apply foldl_height
  · intro height parentID missing
    rw [missing]
  · intro height parentID parent found
    rw [found]

/-- A request with parents leads to a block one above the highest of them exactly when the last
parent that counts is the highest. -/
theorem builtBlock_above_iff (sha256 : List UInt8 → ID) (order : IterationOrder ID)
    (parentIDs : List ID) (maxTxs now : ℤ) (bc : Blockchain) :
    AboveParents bc (builtBlock sha256 order parentIDs maxTxs now bc) ↔
      HighestLast bc parentIDs := by
  have height : (builtBlock sha256 order parentIDs maxTxs now bc).height.toNat =
      (heightAbove bc.currentHeight.toNat (parentHeights bc parentIDs) % 2 ^ 64 + 1) % 2 ^ 64 := by
    change (nextHeight bc parentIDs).toNat = _
    rw [nextHeight_eq, UInt64.toNat_add, UInt64.toNat_ofNat']
    rfl
  unfold AboveParents
  rw [height]
  change (∃ highest, (parentHeights bc parentIDs).max? = some highest ∧ _) ↔ _
  constructor
  · rintro ⟨highest, isMax, exactly⟩
    obtain ⟨listed, bound⟩ := List.max?_eq_some_iff.mp isMax
    rcases heightAbove_cases bc.currentHeight.toNat (parentHeights bc parentIDs) with
      ⟨front, last, back, split, high, low⟩ | ⟨low, same⟩
    · rw [split, heightAbove_append _ _ _ _ high low] at exactly
      have atMost : last ≤ highest := bound last (by rw [split]; simp)
      have same : last = highest := by omega
      refine ⟨front, last, back, split, high, by omega, low, ?_⟩
      intro other member
      rw [same]
      exact bound other (by rw [split]; exact List.mem_append_left _ member)
    · have below := low highest listed
      have small := bc.currentHeight.toNat_lt
      rw [same] at exactly
      omega
  · rintro ⟨front, last, back, split, high, room, low, highest⟩
    refine ⟨last, ?_, ?_⟩
    · rw [split]
      refine List.max?_eq_some_iff.mpr ⟨by simp, ?_⟩
      intro other member
      rcases List.mem_append.mp member with before | after
      · exact highest other before
      · rcases List.mem_cons.mp after with rfl | later
        · exact Nat.le_refl other
        · exact Nat.le_trans (Nat.le_of_lt (low other later)) high
    · rw [split, heightAbove_append _ _ _ _ high low]
      omega

/-- After every run, a block created on parents is one above the highest of them exactly when
the last parent at least as high as the chain is the highest one. -/
theorem created_height_iff (sha256 : List UInt8 → ID) (now : ℤ) (actions : List Action)
    (order : IterationOrder ID) (parentIDs : List ID) (maxTxs time : ℤ) (block : Block)
    (created : (createBlock sha256 order parentIDs maxTxs time (runChain sha256 now actions)).2 =
      .created block) :
    AboveParents (runChain sha256 now actions) block ↔
      HighestLast (runChain sha256 now actions) parentIDs := by
  rcases createBlock_cases sha256 order parentIDs maxTxs time (runChain sha256 now actions) with
    ⟨_, _, nothing⟩ | ⟨_, built⟩
  · exact absurd created (nothing block)
  · rw [built] at created
    obtain rfl := CreateResult.created.inj created
    exact builtBlock_above_iff sha256 order parentIDs maxTxs time (runChain sha256 now actions)

/-- On the genesis block of a new chain, the first block has height 1. -/
theorem first_block_above_parents :
    AboveParents (runChain positionalHash 0 []) lowerBlock ∧
      HighestLast (runChain positionalHash 0 []) [genesisID] := by
  have last : HighestLast (runChain positionalHash 0 []) [genesisID] :=
    ⟨[], 0, [], by decide +kernel, by decide, by decide, by simp, by simp⟩
  refine ⟨(created_height_iff positionalHash 0 [] (byValue 32) [genesisID] 1 0 lowerBlock ?_).mpr
    last, last⟩
  decide +kernel

/-- On a side block of a higher chain, a new block is higher than one above its parent. -/
theorem side_block_not_above_parents :
    let bc := runChain positionalHash 0 [createOne genesisID, .submitBlock lowerBlock]
    let block := newBlock positionalHash 2 0 [genesisID] [] 2
    (createBlock positionalHash (byValue 32) [genesisID] 1 0 bc).2 = .created block ∧
      parentHeights bc [genesisID] = [0] ∧ ¬ AboveParents bc block := by
  intro bc block
  have heights : parentHeights bc [genesisID] = [0] := by decide +kernel
  refine ⟨by decide +kernel, heights, ?_⟩
  rintro ⟨highest, isMax, exactly⟩
  change (parentHeights bc [genesisID]).max? = some highest at isMax
  rw [heights] at isMax
  obtain rfl : 0 = highest := Option.some.inj isMax
  exact absurd exactly (by decide)

/-- The height of the chain is the largest height of the latest blocks. -/
def HeightOfTips (bc : Blockchain) : Prop :=
  ∀ order, IsGreatest { height | ∃ block ∈ getLatestBlocks order bc, block.height = height }
    bc.currentHeight

/-- A block that is submitted below the height of the chain leaves one of the latest blocks of
that height in place. -/
def LeavesTip (bc : Blockchain) : Action → Prop
  | .submitBlock block => block.height < bc.currentHeight →
      ∃ id tip, bc.latestBlocks.lookup id = some tip ∧ tip.height = bc.currentHeight ∧
        id ∉ block.parentIDs ∧ id ≠ block.id
  | _ => True

/-- The set in terms of the map. -/
theorem heightOfTips_iff (bc : Blockchain) : HeightOfTips bc ↔
    (∃ id tip, bc.latestBlocks.lookup id = some tip ∧ tip.height = bc.currentHeight) ∧
      ∀ id tip, bc.latestBlocks.lookup id = some tip → tip.height ≤ bc.currentHeight := by
  have members : ∀ order block, block ∈ getLatestBlocks order bc ↔
      ∃ id, bc.latestBlocks.lookup id = some block :=
    fun order block => order.mem_values bc.latestBlocks block
  constructor
  · intro greatest
    obtain ⟨⟨tip, listed, high⟩, bound⟩ := greatest (byValue 32)
    obtain ⟨id, found⟩ := (members _ tip).mp listed
    refine ⟨⟨id, tip, found, high⟩, ?_⟩
    intro other block stored
    exact bound ⟨block, (members _ block).mpr ⟨other, stored⟩, rfl⟩
  · rintro ⟨⟨id, tip, found, high⟩, bound⟩ order
    refine ⟨⟨tip, (members order tip).mpr ⟨id, found⟩, high⟩, ?_⟩
    rintro height ⟨block, listed, rfl⟩
    obtain ⟨other, stored⟩ := (members order block).mp listed
    exact bound other block stored

/-- A submission keeps the height of the latest blocks exactly when it leaves one of that height
or is as high itself. -/
theorem submitBlock_heightOfTips (block : Block) (bc : Blockchain) (tips : HeightOfTips bc) :
    HeightOfTips (submitBlock block bc) ↔ LeavesTip bc (.submitBlock block) := by
  rw [heightOfTips_iff] at tips ⊢
  simp only [submitBlock_latest]
  obtain ⟨_, bound⟩ := tips
  have height : (submitBlock block bc).currentHeight =
      if bc.currentHeight < block.height then block.height else bc.currentHeight := rfl
  rw [height]
  constructor
  · rintro ⟨⟨id, tip, found, high⟩, _⟩ lower
    rw [if_neg (UInt64.not_lt.mpr (UInt64.le_of_lt lower))] at high
    split at found
    · obtain rfl := Option.some.inj found
      exact absurd high (UInt64.ne_of_lt lower)
    · rename_i otherID
      split at found
      · cases found
      · rename_i kept
        exact ⟨id, tip, found, high, kept, otherID⟩
  · intro leaves
    have raised : ∀ id tip, bc.latestBlocks.lookup id = some tip → tip.height ≤
        if bc.currentHeight < block.height then block.height else bc.currentHeight := by
      intro id tip found
      have low := bound id tip found
      split
      · rename_i higher
        exact UInt64.le_trans low (UInt64.le_of_lt higher)
      · exact low
    refine ⟨?_, ?_⟩
    · by_cases lower : block.height < bc.currentHeight
      · obtain ⟨id, tip, found, high, kept, otherID⟩ := leaves lower
        refine ⟨id, tip, ?_, ?_⟩
        · rw [if_neg otherID, if_neg kept, found]
        · rw [if_neg (UInt64.not_lt.mpr (UInt64.le_of_lt lower)), high]
      · refine ⟨block.id, block, if_pos rfl, ?_⟩
        split
        · rfl
        · rename_i notHigher
          exact UInt64.le_antisymm (UInt64.not_lt.mp notHigher) (UInt64.not_lt.mp lower)
    · intro id tip found
      split at found
      · obtain rfl := Option.some.inj found
        split
        · exact UInt64.le_refl _
        · rename_i notHigher
          exact UInt64.not_lt.mp notHigher
      · split at found
        · cases found
        · exact raised id tip found

/-- A step leaves the current height that of the tips exactly when a submission leaves a tip of it.
-/
theorem step_heightOfTips (sha256 : List UInt8 → ID) (bc : Blockchain) (action : Action)
    (tips : HeightOfTips bc) :
    HeightOfTips (step sha256 bc action) ↔ LeavesTip bc action := by
  have quiet : submitted [action] = [] → LeavesTip bc action →
      (HeightOfTips (step sha256 bc action) ↔ LeavesTip bc action) := by
    intro silent leaves
    refine iff_of_true ?_ leaves
    rw [heightOfTips_iff] at tips ⊢
    obtain ⟨sameBlocks, sameHeight⟩ := step_tips sha256 bc action silent
    rw [sameBlocks, sameHeight]
    exact tips
  cases action with
  | addTransaction tx => exact quiet rfl trivial
  | createBlock order parentIDs maxTxs now => exact quiet rfl trivial
  | submitBlock block => exact submitBlock_heightOfTips block bc tips
  | snapshot order pass => exact quiet rfl trivial
  | verify pass index => exact quiet rfl trivial
  | accept pass index => exact quiet rfl trivial
  | collect pass => exact quiet rfl trivial

/-- The new chain has the height of its only tip. -/
theorem newBlockchain_heightOfTips (sha256 : List UInt8 → ID) (now : ℤ) :
    HeightOfTips (newBlockchain sha256 now) := by
  rw [heightOfTips_iff]
  refine ⟨⟨_, _, Finmap.lookup_singleton_eq, rfl⟩, ?_⟩
  intro id tip found
  have member := Finmap.mem_of_lookup_eq_some found
  rw [show (newBlockchain sha256 now).latestBlocks = Finmap.singleton _ _ from rfl,
    Finmap.mem_singleton] at member
  subst member
  obtain rfl := Option.some.inj (Finmap.lookup_singleton_eq.symm.trans found)
  exact UInt64.le_refl _

/-- In every state of a run the height is that of the highest latest blocks, exactly when every
block submitted below it leaves one of them in place. -/
theorem height_of_tips_iff (sha256 : List UInt8 → ID) (now : ℤ) (actions : List Action) :
    Runs.Always (step sha256) HeightOfTips (newBlockchain sha256 now) actions ↔
      Runs.Along (step sha256) LeavesTip (newBlockchain sha256 now) actions :=
  Runs.always_iff_along (step sha256) (fun _ => True) (fun _ _ _ => trivial)
    (fun bc action _ => step_heightOfTips sha256 bc action) actions trivial
    (newBlockchain_heightOfTips sha256 now)

/-- A block on the upper block and the genesis block, in this order: the genesis block is as high
as the chain when it is created, and decides its height. -/
def sunkenBlock : Block := newBlock positionalHash 3 0 [upperBlock.id, genesisID] [] 1

/-- Three blocks are created; the upper one is submitted, and then the one above it. -/
def sunkenRun : List Action :=
  [createOne genesisID, createOne lowerBlock.id,
    .createBlock (byValue 32) [upperBlock.id, genesisID] 1 0,
    .submitBlock upperBlock, .submitBlock sunkenBlock]

/-- The sunken block replaces the upper one among the latest blocks. -/
theorem sunken_block_below_height :
    Runs.Along (recordStep positionalHash) SubmitsCreated (newHistory positionalHash 0)
        sunkenRun ∧
      (runChain positionalHash 0 sunkenRun).currentHeight = 2 ∧
      getLatestBlocks (byValue 32) (runChain positionalHash 0 sunkenRun) = [sunkenBlock] ∧
      ¬ HeightOfTips (runChain positionalHash 0 sunkenRun) := by
  have height : (runChain positionalHash 0 sunkenRun).currentHeight = 2 := by decide +kernel
  have latest : getLatestBlocks (byValue 32) (runChain positionalHash 0 sunkenRun) =
      [sunkenBlock] := by decide +kernel
  refine ⟨⟨trivial, trivial, trivial, ?_, ?_, trivial⟩, height, latest, ?_⟩
  · decide +kernel
  · decide +kernel
  · intro tips
    obtain ⟨⟨tip, listed, high⟩, _⟩ := tips (byValue 32)
    rw [latest] at listed
    rw [height, List.mem_singleton.mp listed] at high
    exact absurd high (by decide)

end AvalancheParallel.Chain
