import AvalancheParallel.Chain.ChainLaws

/-!
# The edge of the DAG

`SubmitBlock` deletes the parents of its block from `latestBlocks` and inserts the
block. What is in the map after a run therefore depends on the order of the
submissions: a block is there if nothing submitted after it has its ID or names
it. The edge of the DAG asks that no submitted block names it, whenever it was
submitted. The two sets are compared here for arbitrary submissions.
-/

namespace AvalancheParallel.Chain

open AvalancheParallel.RangeLoop AvalancheParallel.Ids

/-- `GetLatestBlocks`. -/
def getLatestBlocks (order : IterationOrder ID) (bc : Blockchain) : List Block :=
  order.values bc.latestBlocks

/-- The blocks submitted in a run, in order. -/
def submitted (actions : List Action) : List Block :=
  actions.filterMap (fun action =>
    match action with
    | .submitBlock block => some block
    | _ => none)

/-- Some block of the list names the ID as a parent. -/
def Named (blocks : List Block) (id : ID) : Prop := ∃ other ∈ blocks, id ∈ other.parentIDs

/-- The map consists of exactly the blocks of the list that no block of it names. -/
def IsEdge (latest : GoMap ID Block) (blocks : List Block) : Prop :=
  ∀ id block, latest.lookup id = some block ↔
    block.id = id ∧ block ∈ blocks ∧ ¬ Named blocks id

/-- The list contains the block, and afterwards no block with its ID. -/
def LastAt (blocks earlier : List Block) (block : Block) (later : List Block) : Prop :=
  blocks = earlier ++ block :: later ∧ ∀ other ∈ later, other.id ≠ block.id

/-- A block that is named at all is named after the last submission of its ID, and an ID
that is never named belongs to one block. -/
def EdgeOrdered (blocks : List Block) : Prop :=
  ∀ earlier block later, LastAt blocks earlier block later →
    (Named blocks block.id → Named later block.id) ∧
    (¬ Named blocks block.id → ∀ other ∈ earlier, other.id = block.id → other = block)

/-- Since the block was submitted, no block has taken its ID or named it. -/
def Standing (blocks : List Block) (block : Block) : Prop :=
  ∃ earlier later, LastAt blocks earlier block later ∧ ¬ Named later block.id

/-- One more submission: the new block stands, and of the others those it neither
replaces nor names. -/
theorem standing_concat (blocks : List Block) (last block : Block) :
    Standing (blocks ++ [last]) block ↔
      block = last ∨ (block.id ≠ last.id ∧ block.id ∉ last.parentIDs ∧ Standing blocks block) := by
  constructor
  · rintro ⟨earlier, later, ⟨split, fresh⟩, unnamed⟩
    rcases List.eq_nil_or_concat later with rfl | ⟨front, final, rfl⟩
    · exact Or.inl (List.append_inj' split rfl |>.2 |> List.singleton_inj.mp).symm
    · have shorter : blocks ++ [last] = (earlier ++ block :: front) ++ [final] := by
        simpa using split
      obtain ⟨rfl, same⟩ := List.append_inj' shorter rfl
      have equal : last = final := List.singleton_inj.mp same
      subst equal
      refine Or.inr ⟨(fresh last (by simp)).symm, ?_, earlier, front, ⟨rfl, ?_⟩, ?_⟩
      · intro named
        exact unnamed ⟨last, by simp, named⟩
      · intro other member
        exact fresh other (by simp [member])
      · rintro ⟨other, member, named⟩
        exact unnamed ⟨other, by simp [member], named⟩
  · rintro (rfl | ⟨ownID, unnamedLast, earlier, later, ⟨rfl, fresh⟩, unnamed⟩)
    · exact ⟨blocks, [], ⟨rfl, by simp⟩, by simp [Named]⟩
    · refine ⟨earlier, later ++ [last], ⟨by simp, ?_⟩, ?_⟩
      · intro other member
        rcases List.mem_append.mp member with inside | final
        · exact fresh other inside
        · rw [List.mem_singleton.mp final]
          exact ownID.symm
      · rintro ⟨other, member, named⟩
        rcases List.mem_append.mp member with inside | final
        · exact unnamed ⟨other, inside, named⟩
        · rw [List.mem_singleton.mp final] at named
          exact unnamedLast named

/-- The map holds exactly the standing blocks. -/
def HoldsStanding (latest : GoMap ID Block) (blocks : List Block) : Prop :=
  ∀ id block, latest.lookup id = some block ↔ block.id = id ∧ Standing blocks block

/-- A submission replaces the parents among the tips by the block. -/
theorem submitBlock_holdsStanding (block : Block) (bc : Blockchain) (blocks : List Block)
    (holds : HoldsStanding bc.latestBlocks blocks) :
    HoldsStanding (submitBlock block bc).latestBlocks (blocks ++ [block]) := by
  intro id other
  rw [submitBlock_latest, standing_concat]
  by_cases own : id = block.id
  · subst own
    rw [if_pos rfl, Option.some_inj]
    constructor
    · rintro rfl
      exact ⟨rfl, Or.inl rfl⟩
    · rintro ⟨key, rfl | ⟨different, _⟩⟩
      · rfl
      · exact absurd key different
  · rw [if_neg own]
    have notLast : other.id = id → other ≠ block := by
      rintro key rfl
      exact own key.symm
    by_cases named : id ∈ block.parentIDs
    · rw [if_pos named]
      constructor
      · intro found
        cases found
      · rintro ⟨key, same | ⟨_, unnamed, _⟩⟩
        · exact absurd same (notLast key)
        · exact absurd (key ▸ named) unnamed
    · rw [if_neg named, holds id other]
      constructor
      · rintro ⟨rfl, standing⟩
        exact ⟨rfl, Or.inr ⟨own, named, standing⟩⟩
      · rintro ⟨key, same | ⟨_, _, standing⟩⟩
        · exact absurd same (notLast key)
        · exact ⟨key, standing⟩

/-- Only `SubmitBlock` changes the latest blocks and the height. -/
theorem step_tips (sha256 : List UInt8 → ID) (bc : Blockchain) (action : Action)
    (quiet : submitted [action] = []) :
    (step sha256 bc action).latestBlocks = bc.latestBlocks ∧
      (step sha256 bc action).currentHeight = bc.currentHeight := by
  cases action with
  | addTransaction tx =>
    rcases addTransaction_cases tx bc with ⟨_, idle⟩ | ⟨_, _, _, after⟩
    · simp only [step, idle, and_self]
    · simp only [step, after, and_self]
  | createBlock order parentIDs maxTxs now =>
    rcases createBlock_cases sha256 order parentIDs maxTxs now bc with ⟨_, same, _⟩ | ⟨_, after⟩
    · simp only [step, same, and_self]
    · simp only [step, after, storeBlock, and_self]
  | submitBlock block => cases quiet
  | snapshot order pass =>
    have same := snapshotPending_same order pass bc
    exact ⟨same.latestBlocks, same.currentHeight⟩
  | verify pass index =>
    have same := verifyWorker_same pass index bc
    exact ⟨same.latestBlocks, same.currentHeight⟩
  | accept pass index =>
    have same := acceptWorker_same pass index bc
    exact ⟨same.latestBlocks, same.currentHeight⟩
  | collect pass =>
    have same := collectResults_same pass bc
    exact ⟨same.latestBlocks, same.currentHeight⟩

/-- The genesis block and the blocks submitted in a run. -/
def submissions (sha256 : List UInt8 → ID) (now : ℤ) (actions : List Action) : List Block :=
  (newBlockchain sha256 now).genesisBlock :: submitted actions

/-- After every run the map holds exactly the standing blocks. -/
theorem run_holdsStanding (sha256 : List UInt8 → ID) (now : ℤ) (actions : List Action) :
    HoldsStanding (runChain sha256 now actions).latestBlocks (submissions sha256 now actions) := by
  induction actions using List.reverseRecOn with
  | nil =>
    intro id block
    have alone : Standing [(newBlockchain sha256 now).genesisBlock] block ↔
        block = (newBlockchain sha256 now).genesisBlock := by
      have single := standing_concat [] (newBlockchain sha256 now).genesisBlock block
      rw [List.nil_append] at single
      rw [single]
      constructor
      · rintro (same | ⟨_, _, earlier, later, ⟨split, _⟩, _⟩)
        · exact same
        · simp at split
      · exact Or.inl
    unfold submissions submitted
    rw [List.filterMap_nil, alone]
    constructor
    · intro found
      obtain ⟨key, rfl⟩ := newBlockchain_blocks found
      exact ⟨key.symm, rfl⟩
    · rintro ⟨rfl, rfl⟩
      exact Finmap.lookup_singleton_eq
  | append_singleton before action inductionHypothesis =>
    have split : submissions sha256 now (before ++ [action]) =
        submissions sha256 now before ++ submitted [action] := by
      simp [submissions, submitted, List.filterMap_append]
    rw [runChain, Runs.run_append, split]
    by_cases quiet : submitted [action] = []
    · rw [quiet, List.append_nil, Runs.run_cons, Runs.run_nil,
        (step_tips sha256 (runChain sha256 now before) action quiet).1]
      exact inductionHypothesis
    · cases action with
      | submitBlock block =>
        exact submitBlock_holdsStanding block (runChain sha256 now before)
          (submissions sha256 now before) inductionHypothesis
      | addTransaction tx => exact absurd rfl quiet
      | createBlock order parentIDs maxTxs now => exact absurd rfl quiet
      | snapshot order pass => exact absurd rfl quiet
      | verify pass index => exact absurd rfl quiet
      | accept pass index => exact absurd rfl quiet
      | collect pass => exact absurd rfl quiet

/-- Every block of a list shares its ID with a block that is the last one with this ID. -/
theorem exists_lastAt (blocks : List Block) (block : Block) (member : block ∈ blocks) :
    ∃ earlier last later, LastAt blocks earlier last later ∧ last.id = block.id := by
  induction blocks using List.reverseRecOn with
  | nil => cases member
  | append_singleton front final inductionHypothesis =>
    by_cases same : final.id = block.id
    · exact ⟨front, final, [], ⟨rfl, by simp⟩, same⟩
    · have inside : block ∈ front := by
        rcases List.mem_append.mp member with inside | last
        · exact inside
        · exact absurd (congrArg Block.id (List.mem_singleton.mp last)).symm same
      obtain ⟨earlier, last, later, ⟨rfl, fresh⟩, key⟩ := inductionHypothesis inside
      refine ⟨earlier, last, later ++ [final], ⟨by simp, ?_⟩, key⟩
      intro other listed
      rcases List.mem_append.mp listed with before | here
      · exact fresh other before
      · rw [List.mem_singleton.mp here, key]
        exact same

/-- The standing blocks are the edge exactly when the submissions are ordered. -/
theorem isEdge_iff_ordered {latest : GoMap ID Block} {blocks : List Block}
    (holds : HoldsStanding latest blocks) : IsEdge latest blocks ↔ EdgeOrdered blocks := by
  constructor
  · intro edge earlier block later lastAt
    have found : ¬ Named later block.id → latest.lookup block.id = some block :=
      fun unnamed => (holds block.id block).mpr ⟨rfl, earlier, later, lastAt, unnamed⟩
    constructor
    · intro named
      by_contra unnamedLater
      exact ((edge block.id block).mp (found unnamedLater)).2.2 named
    · intro unnamed other before key
      have unnamedLater : ¬ Named later block.id := by
        rintro ⟨naming, member, names⟩
        exact unnamed ⟨naming, by rw [lastAt.1]; simp [member], names⟩
      have listed : other ∈ blocks := by
        rw [lastAt.1]
        exact List.mem_append_left _ before
      have alsoFound := (edge block.id other).mpr ⟨key, listed, unnamed⟩
      rw [found unnamedLater] at alsoFound
      exact (Option.some.inj alsoFound).symm
  · intro ordered id block
    rw [holds id block]
    constructor
    · rintro ⟨rfl, earlier, later, lastAt, unnamedLater⟩
      refine ⟨rfl, ?_, ?_⟩
      · rw [lastAt.1]
        simp
      · intro named
        exact unnamedLater ((ordered earlier block later lastAt).1 named)
    · rintro ⟨rfl, listed, unnamed⟩
      refine ⟨rfl, ?_⟩
      obtain ⟨earlier, last, later, lastAt, key⟩ := exists_lastAt blocks block listed
      have unnamedLater : ¬ Named later last.id := by
        rintro ⟨naming, member, names⟩
        exact unnamed ⟨naming, by rw [lastAt.1]; simp [member], key ▸ names⟩
      have same : block = last := by
        rw [lastAt.1] at listed
        rcases List.mem_append.mp listed with before | after
        · exact (ordered earlier last later lastAt).2 (key ▸ unnamed) block before key.symm
        · rcases List.mem_cons.mp after with here | beyond
          · exact here
          · exact absurd key.symm (lastAt.2 block beyond)
      subst same
      exact ⟨earlier, later, lastAt, unnamedLater⟩

/-- After a run, `latestBlocks` is the edge of the DAG of the submitted blocks and genesis
exactly when each of them that is named is named after its last submission and blocks with
a common ID that is never named are the same. -/
theorem latest_blocks_edge_iff (sha256 : List UInt8 → ID) (now : ℤ) (actions : List Action) :
    IsEdge (runChain sha256 now actions).latestBlocks (submissions sha256 now actions) ↔
      EdgeOrdered (submissions sha256 now actions) :=
  isEdge_iff_ordered (run_holdsStanding sha256 now actions)

/-- When the map is the edge, `GetLatestBlocks` returns exactly the blocks of the edge. -/
theorem mem_getLatestBlocks {bc : Blockchain} {blocks : List Block}
    (edge : IsEdge bc.latestBlocks blocks) (order : IterationOrder ID) (block : Block) :
    block ∈ getLatestBlocks order bc ↔ block ∈ blocks ∧ ¬ Named blocks block.id := by
  unfold getLatestBlocks
  rw [order.mem_values]
  constructor
  · rintro ⟨id, found⟩
    obtain ⟨rfl, listed, unnamed⟩ := (edge id block).mp found
    exact ⟨listed, unnamed⟩
  · rintro ⟨listed, unnamed⟩
    exact ⟨block.id, (edge block.id block).mpr ⟨rfl, listed, unnamed⟩⟩

/-- Submitted after its child, the lower block is among the latest blocks although the
child names it. -/
theorem late_parent_not_edge :
    let actions := [.submitBlock upperBlock, .submitBlock lowerBlock]
    let bc := runChain positionalHash 0 actions
    getLatestBlocks (byValue 32) bc = [lowerBlock, upperBlock] ∧
      lowerBlock.id ∈ upperBlock.parentIDs ∧
      ¬ IsEdge bc.latestBlocks (submissions positionalHash 0 actions) := by
  intro actions bc
  refine ⟨by decide +kernel, by decide +kernel, ?_⟩
  intro edge
  have listed : bc.latestBlocks.lookup lowerBlock.id = some lowerBlock := by decide +kernel
  have unnamed := ((edge lowerBlock.id lowerBlock).mp listed).2.2
  exact unnamed ⟨upperBlock, by decide +kernel, by decide +kernel⟩

end AvalancheParallel.Chain
