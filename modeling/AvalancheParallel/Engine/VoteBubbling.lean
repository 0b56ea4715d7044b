import AvalancheParallel.Engine.SnowmanEngine
import AvalancheParallel.Snowman.PollDecisions
import AvalancheParallel.Snowman.VoteCounting

/-!
# Votes for blocks that could not be issued

The ancestor tree of the engine holds blocks that could not be issued. Each of them hangs, by
parents that are in it, below a block of the tree of `Topological`: one that is processing, or
the last accepted one. When blocks are decided, the blocks below those that leave the tree of
`Topological` are forgotten with them. A vote for a block in the ancestor tree is therefore a
vote for its most recent processing ancestor, or it says nothing about the processing blocks.

An ID stands for one block, which is younger than its parent. Only blocks that were verified
are one higher than their parent.
-/

namespace AvalancheParallel.SnowmanEngine

open AvalancheParallel.Ids
open AvalancheParallel.RangeLoop
open AvalancheParallel.PartialView
open AvalancheParallel.Runs
open AvalancheParallel.Engine (AncestorTree Mirrors)
open AvalancheParallel.Utils (SetReading)
open AvalancheParallel.Poll (EarlyTermPoll PollSet PollImplementation NodeID Taken)
open AvalancheParallel.Snowball
open AvalancheParallel.Snowman (Block Topological Lineage Recorded Prefers Grounded Advances
  processing_iff)

variable {F : Factory}

/-! ## Polls -/

/-- So many validators have voted or may still vote. -/
def Bounded (k : ℤ) (p : EarlyTermPoll) : Prop := (p.votes.card : ℤ) + p.polled.card ≤ k

/-- The same for every outstanding poll. -/
def BoundedPolls (k : ℤ) (s : PollSet EarlyTermPoll) : Prop :=
  ∀ entry ∈ s.polls.entries, Bounded k entry.2.poll

/-- A poll never has more votes than validators were asked. -/
theorem Bounded.evolves {k : ℤ} {params : Parameters} {first p : EarlyTermPoll}
    (bounded : Bounded k first) (evolves : (earlyTermPolls params).Evolves first p) :
    Bounded k p := by
  induction evolves with
  | refl => exact bounded
  | @vote p vdr voted _ inductionHypothesis =>
    have parts := Poll.EarlyTermPoll.card_remove p.polled vdr
    unfold Bounded at inductionHypothesis ⊢
    simp only [earlyTermPolls, EarlyTermPoll.vote, Multiset.card_add, Multiset.card_replicate]
    push_cast
    omega
  | @drop p vdr _ inductionHypothesis =>
    have parts := Poll.EarlyTermPoll.card_remove p.polled vdr
    unfold Bounded at inductionHypothesis ⊢
    simp only [earlyTermPolls, EarlyTermPoll.drop]
    omega
  | @finished p choice _ inductionHypothesis =>
    simp only [earlyTermPolls]
    rw [Poll.EarlyTermPoll.isFinished_fst]
    exact inductionHypothesis

/-- A new poll asks a sample of validators. -/
theorem BoundedPolls.add {k : ℤ} {s : PollSet EarlyTermPoll} (bounded : BoundedPolls k s)
    (params : Parameters) (choice : Poll.BlockTraversal × Poll.PollOrders) (requestID : UInt32)
    {vdrs : Multiset NodeID} (sampled : (vdrs.card : ℤ) ≤ k) :
    BoundedPolls k (s.add (earlyTermPolls params) choice requestID vdrs).1 := by
  unfold PollSet.add
  split
  · exact bounded
  · rename_i absent
    intro entry member
    simp only [LinkedMap.put_entries_of_absent absent, List.mem_append,
      List.mem_singleton] at member
    rcases member with earlier | rfl
    · exact bounded entry earlier
    · change ((0 : Multiset ID).card : ℤ) + vdrs.card ≤ k
      simpa using sampled

/-- The polls that remain, and the results. -/
theorem BoundedPolls.taken {k : ℤ} {params : Parameters} {s after : PollSet EarlyTermPoll}
    {results : List (ℕ × Multiset ID)} (bounded : BoundedPolls k s)
    (taken : Taken (earlyTermPolls params) s.polls.entries after.polls.entries results) :
    BoundedPolls k after ∧ ∀ result ∈ results, ((result.2.card : ℕ) : ℤ) ≤ k := by
  refine ⟨?_, ?_⟩
  · intro entry member
    obtain ⟨earlier, inside, _, evolves⟩ := taken.outstanding entry member
    exact (bounded earlier inside).evolves evolves
  · intro result member
    obtain ⟨earlier, inside, _, p, evolves, _, same⟩ := taken.results result member
    have within := (bounded earlier inside).evolves evolves
    unfold Bounded at within
    rw [same]
    change (p.votes.card : ℤ) ≤ k
    omega

/-- The polls that finish have no more votes than the sample. -/
theorem BoundedPolls.respond {k : ℤ} {e : Engine F} (bounded : BoundedPolls k e.polls)
    (answers : Answers) (nodeID : ShortID) (requestID : UInt32) (vote : Option ID) :
    BoundedPolls k (e.respond answers nodeID requestID vote).1 ∧
      ∀ result ∈ (e.respond answers nodeID requestID vote).2, ((result.2.card : ℕ) : ℤ) ≤ k := by
  cases vote with
  | none =>
    exact bounded.taken (PollSet.respond_taken answers.choice answers.choices requestID e.polls
      (fun p => .drop nodeID (.refl p))).2
  | some voted =>
    exact bounded.taken (PollSet.respond_taken answers.choice answers.choices requestID e.polls
      (fun p => .vote nodeID voted (.refl p))).2

/-! ## Blocks that hang below the tree -/

/-- The block is the one its ID stands for, and younger than its parent. -/
structure Authentic (l : Lineage) (age : ID → ℕ) (blk : Block) : Prop where
  block : blk = l.block blk.id
  younger : age (l.parent blk.id) < age blk.id

/-- An authentic block names its parent. -/
theorem Authentic.parent {l : Lineage} {age : ID → ℕ} {blk : Block}
    (authentic : Authentic l age blk) : blk.parent = l.parent blk.id :=
  congrArg Block.parent authentic.block

/-- The blocks are kept under their IDs. -/
def Stored (l : Lineage) (age : ID → ℕ) (blocks : GoMap ID Block) : Prop :=
  ∀ id blk, blocks.lookup id = some blk → blk.id = id ∧ Authentic l age blk

/-- The known blocks hang, by known parents, below blocks of the tree of `Topological`. -/
structure Attached (l : Lineage) (age : ID → ℕ) (ts : Topological F) (known : Finset ID) :
    Prop where
  ascends : Ascends l.parent age known
  apart : ∀ id ∈ known, id ∉ ts.blocks
  attached : ∀ id ∈ known, l.parent id ∈ known ∨ l.parent id ∈ ts.blocks
  aged : ∀ id ∈ ts.blocks, id ≠ ts.lastAcceptedID → age (l.parent id) < age id

section Attached

variable {l : Lineage} {age : ID → ℕ} {genesis : ID} {ts : Topological F} {known : Finset ID}

/-- The last accepted block is the oldest of the tree. -/
theorem Attached.age_le (attached : Attached l age ts known)
    (grounded : Grounded l ts.lastAcceptedID ts.blocks) {id : ID} (stored : id ∈ ts.blocks) :
    age ts.lastAcceptedID ≤ age id := by
  have all : ∀ node ∈ ts.blocks.keys, age ts.lastAcceptedID ≤ age node :=
    grounded.rooted.induction (Nat.le_refl _) (fun node member other older =>
      older.trans (attached.aged node (Finmap.mem_keys.mp member) other).le)
  exact all id (Finmap.mem_keys.mpr stored)

/-- The known blocks are younger. -/
theorem Attached.age_lt (attached : Attached l age ts known)
    (grounded : Grounded l ts.lastAcceptedID ts.blocks) {id : ID} (inside : id ∈ known) :
    age ts.lastAcceptedID < age id := by
  have bounded : ∀ bound, ∀ id ∈ known, age id < bound → age ts.lastAcceptedID < age id := by
    intro bound
    induction bound with
    | zero => exact fun _ _ impossible => absurd impossible (Nat.not_lt_zero _)
    | succ bound inductionHypothesis =>
      intro id inside below
      have younger := attached.ascends id inside
      cases attached.attached id inside with
      | inl parentKnown =>
        exact (inductionHypothesis _ parentKnown (by omega)).trans younger
      | inr stored => exact Nat.lt_of_le_of_lt (attached.age_le grounded stored) younger
  exact bounded (age id + 1) id inside (Nat.lt_succ_self _)

/-- The known parents of a known block lead to the tree. -/
theorem Attached.top_stored (attached : Attached l age ts known) {id top : ID}
    (leads : Leads l.parent known id top) (unknown : top ∉ known) (inside : id ∈ known) :
    top ∈ ts.blocks := by
  induction leads with
  | here node => exact absurd inside unknown
  | @up node top _ rest inductionHypothesis =>
    cases attached.attached node inside with
    | inl parentKnown => exact inductionHypothesis unknown parentKnown
    | inr stored =>
      rw [rest.eq_of_notMem (fun parentKnown => attached.apart _ parentKnown stored)]
      exact stored

/-- A block below a known or processing one is not in the tree, unless it is processing. -/
theorem Attached.not_stored (attached : Attached l age ts known)
    (grounded : Grounded l ts.lastAcceptedID ts.blocks) {id : ID}
    (younger : age (l.parent id) < age id) (idle : ¬ ts.processing id = true)
    (up : l.parent id ∈ known ∨ ts.processing (l.parent id) = true) : id ∉ ts.blocks := by
  intro stored
  rw [processing_iff, not_and_not_right] at idle
  obtain rfl := idle stored
  cases up with
  | inl inside =>
    have older := attached.age_lt grounded inside
    omega
  | inr processing =>
    have older := attached.age_le grounded ((processing_iff _).mp processing).1
    omega

/-- A block below a known or a processing one may be added to the tree. -/
theorem Attached.insert (attached : Attached l age ts known) {id : ID}
    (younger : age (l.parent id) < age id) (outside : id ∉ ts.blocks)
    (up : l.parent id ∈ known ∨ l.parent id ∈ ts.blocks) :
    Attached l age ts (insert id known) := by
  constructor
  case ascends =>
    intro node member
    cases Finset.mem_insert.mp member with
    | inl same => exact same ▸ younger
    | inr inside => exact attached.ascends node inside
  case apart =>
    intro node member
    cases Finset.mem_insert.mp member with
    | inl same => exact same ▸ outside
    | inr inside => exact attached.apart node inside
  case attached =>
    intro node member
    cases Finset.mem_insert.mp member with
    | inl same =>
      rw [same]
      exact up.imp_left (Finset.mem_insert_of_mem)
    | inr inside => exact (attached.attached node inside).imp_left Finset.mem_insert_of_mem
  case aged => exact attached.aged

/-- A block moves from the known ones to the tree. -/
theorem Attached.issue (attached : Attached l age ts known) {blk : Block}
    (younger : age (l.parent blk.id) < age blk.id) {parentNode : Snowman.SnowmanBlock F}
    (found : ts.blocks.lookup blk.parent = some parentNode) :
    Attached l age (ts.extended blk parentNode) (known.erase blk.id) := by
  have members := Snowman.mem_withChild ts.params blk found
  constructor
  case ascends => exact fun node member => attached.ascends node (Finset.mem_of_mem_erase member)
  case apart =>
    intro node member
    obtain ⟨different, inside⟩ := Finset.mem_erase.mp member
    rw [Topological.extended_blocks, members]
    exact fun either => either.elim different (attached.apart node inside)
  case attached =>
    intro node member
    rw [Topological.extended_blocks, members, Finset.mem_erase]
    cases attached.attached node (Finset.mem_of_mem_erase member) with
    | inl parentKnown =>
      by_cases same : l.parent node = blk.id
      · exact Or.inr (Or.inl same)
      · exact Or.inl ⟨same, parentKnown⟩
    | inr stored => exact Or.inr (Or.inr stored)
  case aged =>
    intro id stored other
    rw [Topological.extended_blocks, members] at stored
    rw [Topological.extended_lastAcceptedID] at other
    rcases stored with rfl | earlier
    · exact younger
    · exact attached.aged id earlier other

/-- A poll, with which the blocks below those that left the tree are forgotten. -/
theorem Attached.poll (attached : Attached l age ts known) {after : Topological F}
    (advances : Advances ts after) (recorded : Recorded l genesis ts)
    (recordedAfter : Recorded l genesis after) :
    Attached l age after (prune l.parent known
      (· ∈ (after.accepted.drop ts.accepted.length).map Block.parent ++
        (after.rejected.drop ts.rejected.length).map Block.id)) := by
  constructor
  case ascends => exact fun node member => attached.ascends node (prune_subset _ _ member)
  case apart =>
    exact fun node member stored =>
      attached.apart node (prune_subset _ _ member) (advances.blocks node stored)
  case attached =>
    intro node member
    cases attached.attached node (prune_subset _ _ member) with
    | inl parentKnown => exact Or.inl (parent_mem_prune member parentKnown)
    | inr stored =>
      right
      by_contra gone
      obtain ⟨inside, avoids⟩ := mem_prune.mp member
      apply avoids (l.parent node) _ (.up inside (.here _))
      exact List.mem_append.mpr (advances.left recorded recordedAfter stored gone).symm
  case aged =>
    intro id stored other
    apply attached.aged id (advances.blocks id stored)
    rintro rfl
    -- The old root would have a parent in the new tree, which is lower than all of it.
    have parentStored := recordedAfter.grounded.parent_mem stored other
    have parentLevel := recordedAfter.grounded.height_eq stored other
    have lower := recorded.grounded.height_le (advances.blocks _ parentStored)
    omega

end Attached

/-! ## What every step keeps -/

/-- The blocks in the ancestor tree. -/
def Engine.known (e : Engine F) : Finset ID := e.unverifiedIDToAncestor.childToParent.keys

/-- Consensus is sound, the ancestor tree hangs below its tree, and blocks are kept under their
IDs. -/
structure Governed (l : Lineage) (age : ID → ℕ) (genesis : ID) (params : Parameters)
    (e : Engine F) : Prop where
  recorded : Recorded l genesis e.consensus
  prefers : ∃ path, Prefers l e.consensus path
  parameters : e.consensus.params = params
  polls : BoundedPolls params.k e.polls
  mirrors : Mirrors l.parent e.known e.unverifiedIDToAncestor
  attached : Attached l age e.consensus e.known
  cached : Stored l age e.unverifiedBlockCache
  pending : Stored l age e.pending
  jobs : ∀ blk, .issuer blk ∈ e.jobs → Authentic l age blk

/-- The virtual machine hands out blocks under their IDs and verifies only blocks that are one
higher than their parent, and no more than `K` validators are sampled. -/
structure Answers.Honest (l : Lineage) (age : ID → ℕ) (params : Parameters) (answers : Answers) :
    Prop where
  getBlock : ∀ id blk, answers.getBlock id = some blk → blk.id = id ∧ Authentic l age blk
  verify : ∀ blk, answers.verify blk = true → l.height blk.id = l.height (l.parent blk.id) + 1
  options : ∀ blk first second, answers.options blk = .options first second →
    Authentic l age first ∧ Authentic l age second
  buildBlock : ∀ blk, answers.buildBlock = some blk → Authentic l age blk
  sample : ∀ number vdrs, answers.sample number = some vdrs → (vdrs.card : ℤ) ≤ params.k

/-- The blocks of a task are authentic. -/
def Task.Genuine (l : Lineage) (age : ID → ℕ) : Task → Prop
  | .issueFrom _ blkID blk => blk.id = blkID ∧ Authentic l age blk
  | .issueWithAncestors blkID blk => blk.id = blkID ∧ Authentic l age blk
  | .deliver blk => Authentic l age blk
  | .addedOption blk => Authentic l age blk
  | .droppedOption blk => Authentic l age blk
  | _ => True

section Stored

variable {l : Lineage} {age : ID → ℕ} {blocks : GoMap ID Block}

/-- An authentic block may be stored. -/
theorem Stored.insert (stored : Stored l age blocks) {blk : Block}
    (authentic : Authentic l age blk) : Stored l age (blocks.insert blk.id blk) := by
  intro id other found
  obtain ⟨rfl, rfl⟩ | ⟨_, earlier⟩ := lookup_insert_cases found
  · exact ⟨rfl, authentic⟩
  · exact stored id other earlier

/-- A stored block may be dropped. -/
theorem Stored.erase (stored : Stored l age blocks) (id : ID) : Stored l age (blocks.erase id) :=
  fun other blk found => stored other blk (lookup_erase_some found).2

/-- The cache may drop blocks. -/
theorem Stored.evict (stored : Stored l age blocks) (evicted : List ID) :
    Stored l age (evicted.foldl (fun cache id => cache.erase id) blocks) := by
  induction evicted generalizing blocks with
  | nil => exact stored
  | cons id rest inductionHypothesis => exact inductionHypothesis (stored.erase id)

end Stored

section Governed

variable {l : Lineage} {age : ID → ℕ} {genesis : ID} {params : Parameters} {e : Engine F}
  {answers : Answers}

/-- A query keeps the invariant. -/
theorem Governed.sendQuery (governed : Governed l age genesis params e)
    (honest : answers.Honest l age params) :
    Governed l age genesis params (e.sendQuery answers) := by
  unfold Engine.sendQuery
  split
  · exact governed
  · rename_i vdrs sampled
    exact { governed with
      polls := governed.polls.add _ _ _ (honest.sample _ vdrs sampled) }

/-- Repolling keeps the invariant. -/
theorem Governed.repoll (governed : Governed l age genesis params e)
    (honest : answers.Honest l age params) :
    Governed l age genesis params (e.repoll answers) := by
  unfold Engine.repoll
  generalize (e.consensus.params.concurrentRepolls - e.polls.polls.entries.length).toNat = count
  induction count generalizing e with
  | zero => exact governed
  | succ count inductionHypothesis =>
    rw [Function.iterate_succ_apply]
    exact inductionHypothesis (governed.sendQuery honest)

/-- Querying for a preferred block keeps the invariant. -/
theorem Governed.queryIfPreferred (governed : Governed l age genesis params e)
    (honest : answers.Honest l age params) (blk : Block) :
    Governed l age genesis params (e.queryIfPreferred answers blk) := by
  unfold Engine.queryIfPreferred
  split
  · exact governed.sendQuery honest
  · exact governed

/-- A pending block may be dropped. -/
theorem Governed.erasePending (governed : Governed l age genesis params e) (id : ID) :
    Governed l age genesis params { e with pending := e.pending.erase id } :=
  { governed with pending := governed.pending.erase id }

/-- A block that could not be issued is attached below the blocks it descends from. -/
theorem Governed.markAsUnverified (governed : Governed l age genesis params e)
    {blk : Block} (authentic : Authentic l age blk) {after : Engine F}
    (result : e.markAsUnverified answers blk = some after) :
    Governed l age genesis params after := by
  unfold Engine.markAsUnverified at result
  split at result
  · cases result
    exact governed
  · rename_i idle
    split at result
    · rename_i up
      split at result
      · cases result
      · rename_i tree adding
        cases result
        rw [authentic.parent, governed.mirrors.has_iff] at up
        have outside := governed.attached.not_stored governed.recorded.grounded authentic.younger
          idle up
        rw [authentic.parent] at adding
        obtain ⟨_, added⟩ := governed.mirrors.add blk.id adding
        have known : tree.childToParent.keys = insert blk.id e.known := added.keys
        refine { governed with mirrors := ?_, attached := ?_, cached := ?_ }
        · change Mirrors l.parent tree.childToParent.keys tree
          rw [known]
          exact added
        · change Attached l age e.consensus tree.childToParent.keys
          rw [known]
          exact governed.attached.insert authentic.younger outside
            (up.imp_right (fun processing => ((processing_iff _).mp processing).1))
        · exact (governed.cached.insert authentic).evict answers.evicted
    · cases result
      exact governed

/-- Verifying a block and adding it, to consensus or to the ancestor tree, keeps the invariant. -/
theorem Governed.addUnverifiedBlockToConsensus (governed : Governed l age genesis params e)
    (honest : answers.Honest l age params) {blk : Block} (authentic : Authentic l age blk)
    {after : Engine F} {added : Bool}
    (result : e.addUnverifiedBlockToConsensus answers blk = some (after, added)) :
    Governed l age genesis params after := by
  unfold Engine.addUnverifiedBlockToConsensus at result
  split at result
  · split at result
    · cases result
    · rename_i marking
      cases result
      exact governed.markAsUnverified authentic marking
  · rename_i verified
    have level := honest.verify blk (by simpa using verified)
    have names : l.Names blk := ⟨authentic.block, level⟩
    obtain ⟨error, failed⟩ | ⟨fresh, parentNode, found, extended⟩ :=
      Topological.add_law governed.recorded.grounded names
    · rw [failed] at result
      cases result
    · rw [extended] at result
      cases result
      obtain ⟨path, prefers⟩ := governed.prefers
      obtain ⟨longer, prefersLonger⟩ := prefers.extended governed.recorded names fresh found
      have removed := governed.mirrors.remove blk.id
      have known : (e.unverifiedIDToAncestor.remove blk.id).childToParent.keys =
          e.known.erase blk.id := removed.keys
      refine { governed with
        recorded := governed.recorded.extended names fresh found
        prefers := ⟨longer, prefersLonger⟩
        parameters := (Topological.extended_params ..).trans governed.parameters
        mirrors := ?_
        attached := ?_
        cached := governed.cached.erase blk.id }
      · change Mirrors l.parent (e.unverifiedIDToAncestor.remove blk.id).childToParent.keys _
        rw [known]
        exact removed
      · change Attached l age (e.consensus.extended blk parentNode)
          (e.unverifiedIDToAncestor.remove blk.id).childToParent.keys
        rw [known]
        exact governed.attached.issue authentic.younger found

/-- Adding the options of a block keeps the invariant. -/
theorem Governed.addOptions (governed : Governed l age genesis params e)
    (honest : answers.Honest l age params) {options added dropped allAdded allDropped : List Block}
    (authentic : ∀ blk ∈ options ++ (added ++ dropped), Authentic l age blk) {after : Engine F}
    (result : Engine.addOptions answers options e added dropped =
      some (after, allAdded, allDropped)) :
    Governed l age genesis params after ∧
      ∀ blk ∈ allAdded ++ allDropped, Authentic l age blk := by
  induction options generalizing e added dropped with
  | nil =>
    cases result
    exact ⟨governed, authentic⟩
  | cons blk rest inductionHypothesis =>
    unfold Engine.addOptions at result
    have own := authentic blk (by simp)
    split at result
    · cases result
    · rename_i next adding
      apply inductionHypothesis (governed.addUnverifiedBlockToConsensus honest own adding) _ result
      intro other member
      apply authentic other
      simp only [List.mem_append, List.mem_cons, List.not_mem_nil, or_false] at member ⊢
      tauto
    · rename_i next dropping
      apply inductionHypothesis
        (governed.addUnverifiedBlockToConsensus honest own dropping) _ result
      intro other member
      apply authentic other
      simp only [List.mem_append, List.mem_cons, List.not_mem_nil, or_false] at member ⊢
      tauto

/-- Delivering a block keeps the invariant, and leaves genuine tasks. -/
theorem Governed.deliver (governed : Governed l age genesis params e)
    (honest : answers.Honest l age params) {blk : Block} (authentic : Authentic l age blk)
    {after : Engine F} {tasks : List Task}
    (result : e.deliver answers blk = some (after, tasks)) :
    Governed l age genesis params after ∧ ∀ task ∈ tasks, task.Genuine l age := by
  have erased := governed.erasePending blk.id
  unfold Engine.deliver at result
  simp only at result
  split at result
  · cases result
    exact ⟨erased, by simp [Task.Genuine]⟩
  · split at result
    · cases result
    · rename_i next adding
      cases result
      exact ⟨erased.addUnverifiedBlockToConsensus honest authentic adding, by simp [Task.Genuine]⟩
    · rename_i next adding
      have kept := erased.addUnverifiedBlockToConsensus honest authentic adding
      split at result
      · cases result
      · rename_i options found
        have genuine : ∀ option ∈ options ++ ([] ++ []), Authentic l age option := by
          unfold Engine.options at found
          split at found
          · cases found
            simp
          · cases found
          · rename_i first second answered
            cases found
            have both := honest.options blk first second answered
            simpa using both
        split at result
        · cases result
        · rename_i final added dropped adding
          obtain ⟨governedFinal, authenticOptions⟩ := kept.addOptions honest genuine adding
          split at result
          · cases result
          · cases result
            refine ⟨governedFinal.queryIfPreferred honest blk, ?_⟩
            intro task member
            simp only [List.mem_cons, List.mem_append, List.mem_map, List.not_mem_nil,
              or_false] at member
            rcases member with rfl | (⟨option, inside, rfl⟩ | ⟨option, inside, rfl⟩) | rfl
            · trivial
            · exact authenticOptions option (List.mem_append_left _ inside)
            · exact authenticOptions option (List.mem_append_right _ inside)
            · trivial

/-- The calls of `Accept` and `Reject` prune the ancestor tree. -/
theorem forget_mirrors (order : IterationOrder ID) (ids : List ID) {t : AncestorTree}
    {known : Finset ID} (mirrors : Mirrors l.parent known t) :
    ∃ after, Engine.forget order ids t = some after ∧
      Mirrors l.parent (prune l.parent known (· ∈ ids)) after := by
  induction ids generalizing t known with
  | nil => exact ⟨t, rfl, by simpa using mirrors⟩
  | cons id rest inductionHypothesis =>
    obtain ⟨next, removed, pruned⟩ := mirrors.removeDescendants order id
    obtain ⟨after, result, all⟩ := inductionHypothesis pruned
    refine ⟨after, ?_, ?_⟩
    · unfold Engine.forget
      rw [removed]
      exact result
    · rw [prune_prune] at all
      simpa [List.mem_cons] using all

/-- A poll is recorded, and blocks are forgotten with those that are decided. -/
theorem Governed.recordPoll (governed : Governed l age genesis params e)
    (valid : params.verify = none) (answers : Answers) {bag : Multiset ID}
    (few : (bag.card : ℤ) ≤ params.k) :
    ∃ after, e.recordPoll answers bag = some after ∧ Governed l age genesis params after := by
  obtain ⟨path, prefers⟩ := governed.prefers
  have sameParams := governed.parameters
  obtain ⟨ts, rest, recording, recorded, prefersAfter, kept⟩ := Snowman.recordPoll_law
    answers.pollOrders governed.recorded prefers (by rwa [sameParams]) (by rwa [sameParams])
  have advances := Topological.recordPoll_advances recording
  obtain ⟨t, forgetting, pruned⟩ := forget_mirrors answers.order
    ((ts.accepted.drop e.consensus.accepted.length).map Block.parent ++
      (ts.rejected.drop e.consensus.rejected.length).map Block.id) governed.mirrors
  refine ⟨{ e with consensus := ts, unverifiedIDToAncestor := t }, ?_, ?_⟩
  · unfold Engine.recordPoll
    rw [recording]
    simp only
    rw [forgetting]
  · have known := pruned.keys
    refine { governed with
      recorded := recorded
      prefers := ⟨rest, prefersAfter⟩
      parameters := kept.trans sameParams
      mirrors := ?_
      attached := ?_ }
    · change Mirrors l.parent t.childToParent.keys t
      rw [known]
      exact pruned
    · change Attached l age ts t.childToParent.keys
      rw [known]
      exact governed.attached.poll advances governed.recorded recorded

/-- The results of finished polls are recorded, and the invariant is kept. -/
theorem Governed.recordPolls (governed : Governed l age genesis params e)
    (valid : params.verify = none) (answers : Answers) {bags : List (Multiset ID)}
    (few : ∀ bag ∈ bags, ((bag.card : ℕ) : ℤ) ≤ params.k) :
    ∃ after, bags.foldlM (Engine.recordPoll answers) e = some after ∧
      Governed l age genesis params after := by
  induction bags generalizing e with
  | nil => exact ⟨e, rfl, governed⟩
  | cons bag rest inductionHypothesis =>
    obtain ⟨next, first, governedNext⟩ :=
      governed.recordPoll valid answers (few bag List.mem_cons_self)
    obtain ⟨after, later, governedAfter⟩ :=
      inductionHypothesis governedNext
        (fun other member => few other (List.mem_cons_of_mem _ member))
    refine ⟨after, ?_, governedAfter⟩
    rw [List.foldlM_cons, first]
    exact later

/-- Executing a voter keeps the invariant. -/
theorem Governed.executeVoter (governed : Governed l age genesis params e)
    (valid : params.verify = none) (honest : answers.Honest l age params) {nodeID : ShortID}
    {requestID : UInt32} {responseOptions : List ID} {after : Engine F}
    (result : e.executeVoter answers nodeID requestID responseOptions = some after) :
    Governed l age genesis params after := by
  unfold Engine.executeVoter at result
  split at result
  · cases result
  · rename_i vote _
    obtain ⟨bounded, few⟩ := governed.polls.respond answers nodeID requestID vote
    have answered : Governed l age genesis params
        { e with polls := (e.respond answers nodeID requestID vote).1 } :=
      { governed with polls := bounded }
    simp only at result
    split at result
    · cases result
      exact answered
    · have fewVotes : ∀ bag ∈ (e.respond answers nodeID requestID vote).2.map Prod.snd,
          ((bag.card : ℕ) : ℤ) ≤ params.k := by
        intro bag member
        obtain ⟨numbered, inside, rfl⟩ := List.mem_map.mp member
        exact few numbered inside
      obtain ⟨next, recording, governedNext⟩ := answered.recordPolls valid answers fewVotes
      rw [recording] at result
      simp only at result
      split at result
      · cases result
      · split at result
        · cases result
          exact governedNext
        · cases result
          exact governedNext.repoll honest

/-- Executing a job keeps the invariant, and leaves genuine tasks. -/
theorem Governed.execute (governed : Governed l age genesis params e)
    (valid : params.verify = none) (honest : answers.Honest l age params) {job : EngineJob}
    (genuine : ∀ blk, job = .issuer blk → Authentic l age blk) {abandoned : List ID}
    {after : Engine F} {tasks : List Task}
    (result : e.execute answers abandoned job = some (after, tasks)) :
    Governed l age genesis params after ∧ ∀ task ∈ tasks, task.Genuine l age := by
  cases job with
  | issuer blk =>
    unfold Engine.execute at result
    simp only at result
    split at result
    · exact governed.deliver honest (genuine blk rfl) result
    · split at result
      · cases result
      · rename_i marking
        cases result
        exact ⟨(governed.erasePending blk.id).markAsUnverified (genuine blk rfl) marking,
          by simp [Task.Genuine]⟩
  | voter nodeID requestID responseOptions =>
    unfold Engine.execute at result
    simp only at result
    split at result
    · cases result
    · rename_i next voted
      cases result
      exact ⟨governed.executeVoter valid honest voted, by simp⟩

/-- Scheduling a job keeps the invariant, and leaves genuine tasks. -/
theorem Governed.schedule (governed : Governed l age genesis params e)
    (valid : params.verify = none) (honest : answers.Honest l age params) {job : EngineJob}
    (genuine : ∀ blk, job = .issuer blk → Authentic l age blk) {dependencies : List ID}
    {after : Engine F} {tasks : List Task}
    (result : e.schedule answers job dependencies = some (after, tasks)) :
    Governed l age genesis params after ∧ ∀ task ∈ tasks, task.Genuine l age := by
  unfold Engine.schedule at result
  split at result
  · exact governed.execute valid honest genuine result
  · cases result
    refine ⟨{ governed with jobs := ?_ }, by simp⟩
    intro blk member
    simp only [List.mem_append, List.mem_singleton] at member
    cases member with
    | inl earlier => exact governed.jobs blk earlier
    | inr same => exact genuine blk same.symm

/-- Issuing a block keeps the invariant, and leaves genuine tasks. -/
theorem Governed.issue (governed : Governed l age genesis params e)
    (valid : params.verify = none) (honest : answers.Honest l age params) {blk : Block}
    (authentic : Authentic l age blk) {after : Engine F} {tasks : List Task}
    (result : e.issue answers blk = some (after, tasks)) :
    Governed l age genesis params after ∧ ∀ task ∈ tasks, task.Genuine l age := by
  have queued : Governed l age genesis params
      (Engine.dropRequest { e with pending := e.pending.insert blk.id blk } blk.id) :=
    { governed with pending := governed.pending.insert authentic }
  apply queued.schedule valid honest _ result
  rintro _ ⟨rfl⟩
  exact authentic

/-- A block that is found has the ID that was asked for and is authentic. -/
theorem Governed.getBlock (governed : Governed l age genesis params e)
    (honest : answers.Honest l age params) {id : ID} {blk : Block}
    (found : e.getBlock answers id = some blk) : blk.id = id ∧ Authentic l age blk := by
  unfold Engine.getBlock at found
  split at found
  · rename_i pending
    cases found
    exact governed.pending id blk pending
  · split at found
    · rename_i cached
      cases found
      exact governed.cached id blk cached
    · exact honest.getBlock id blk found

/-- The scheduler is no part of it. -/
theorem Governed.withBlocked (governed : Governed l age genesis params e)
    (blocked : Engine.Scheduler ID) : Governed l age genesis params { e with blocked := blocked } :=
  { governed with }

/-- Coming to a job keeps the invariant, and leaves genuine tasks. -/
theorem Governed.visitJob (governed : Governed l age genesis params e)
    (valid : params.verify = none) (honest : answers.Honest l age params) {dependency : ID}
    {fulfilled : Bool} {j : ℕ} {after : Engine F} {tasks : List Task}
    (result : e.visitJob answers dependency fulfilled j = some (after, tasks)) :
    Governed l age genesis params after ∧ ∀ task ∈ tasks, task.Genuine l age := by
  unfold Engine.visitJob at result
  simp only at result
  split at result
  · cases result
    exact ⟨governed.withBlocked _, by simp⟩
  · split at result
    · cases result
    · rename_i job found
      refine (governed.withBlocked _).execute valid honest ?_ result
      rintro blk rfl
      exact governed.jobs blk (List.mem_of_getElem? found)

/-- Issuing a block and going on to another task keeps the invariant. -/
theorem Governed.issueThen (governed : Governed l age genesis params e)
    (valid : params.verify = none) (honest : answers.Honest l age params) (last : Task)
    {blk : Block} (authentic : Authentic l age blk) (own : last.Genuine l age) {after : Engine F}
    {tasks : List Task} (result : e.issue answers blk = some (after, tasks)) :
    Governed l age genesis params after ∧ ∀ next ∈ tasks ++ [last], next.Genuine l age := by
  obtain ⟨kept, all⟩ := governed.issue valid honest authentic result
  refine ⟨kept, fun next member => ?_⟩
  cases List.mem_append.mp member with
  | inl earlier => exact all next earlier
  | inr same => exact List.mem_singleton.mp same ▸ own

/-- A resolution that is left out under a condition is a genuine task. -/
theorem resolveUnless_genuine (l : Lineage) (age : ID → ℕ) (p : Prop) [Decidable p] (id : ID)
    (flag : Bool) : ∀ next ∈ (if p then [] else [Task.resolve id flag]), next.Genuine l age := by
  split
  · simp
  · simp [Task.Genuine]

/-- A request changes nothing that the invariant is about. -/
theorem Governed.sendRequest (governed : Governed l age genesis params e) (nodeID : ShortID)
    (blkID : ID) : Governed l age genesis params (e.sendRequest nodeID blkID) := by
  unfold Engine.sendRequest
  split
  · exact governed
  · exact { governed with }

/-- `executeDeferredWork` builds an authentic block and comes back, or does nothing. -/
theorem Governed.executeDeferredWork (governed : Governed l age genesis params e)
    (honest : answers.Honest l age params) {after : Engine F} {tasks : List Task}
    (result : e.step answers .executeDeferredWork = some (after, tasks)) :
    Governed l age genesis params after ∧ ∀ next ∈ tasks, next.Genuine l age := by
  simp only [Engine.step] at result
  split at result
  · split at result
    · cases result
      exact ⟨{ governed with }, by simp⟩
    · rename_i blk built
      cases result
      refine ⟨{ governed with }, ?_⟩
      simp only [List.mem_cons, List.not_mem_nil, or_false, forall_eq_or_imp, forall_eq]
      exact ⟨⟨rfl, honest.buildBlock blk built⟩, trivial⟩
  · cases result
    exact ⟨governed, by simp⟩

/-- Every task keeps it, and leaves genuine tasks. -/
theorem Governed.step (governed : Governed l age genesis params e)
    (valid : params.verify = none) (honest : answers.Honest l age params) {task : Task}
    (genuine : task.Genuine l age) {after : Engine F} {tasks : List Task}
    (result : e.step answers task = some (after, tasks)) :
    Governed l age genesis params after ∧ ∀ next ∈ tasks, next.Genuine l age := by
  cases task with
  | resolve dependency fulfilled =>
    cases result
    exact ⟨governed.withBlocked _, by simp [Task.Genuine]⟩
  | visit dependency fulfilled jobs =>
    cases jobs with
    | nil =>
      cases result
      exact ⟨governed, by simp⟩
    | cons j rest =>
      simp only [Engine.step] at result
      split at result
      · cases result
      · rename_i middle first visiting
        cases result
        obtain ⟨kept, all⟩ := governed.visitJob valid honest visiting
        refine ⟨kept, fun next member => ?_⟩
        cases List.mem_append.mp member with
        | inl earlier => exact all next earlier
        | inr same =>
          rw [List.mem_singleton.mp same]
          trivial
  | issueFromByID nodeID blkID =>
    simp only [Engine.step] at result
    split at result
    · cases result
      exact ⟨governed.sendRequest nodeID blkID, by simp⟩
    · rename_i blk found
      cases result
      refine ⟨governed, fun next member => ?_⟩
      rw [List.mem_singleton.mp member]
      exact governed.getBlock honest found
  | issueFrom nodeID blkID blk =>
    simp only [Engine.step] at result
    split at result
    · split at result
      · cases result
      · rename_i middle first issuing
        cases result
        exact governed.issueThen valid honest (.issueFromByID nodeID blk.parent) genuine.2 trivial
          issuing
    · cases result
      exact ⟨{ governed with }, resolveUnless_genuine l age _ _ _⟩
  | issueWithAncestors blkID blk =>
    simp only [Engine.step] at result
    split at result
    · split at result
      · cases result
      · rename_i middle first issuing
        cases result
        exact governed.issueThen valid honest (.issueParent blk.parent) genuine.2 trivial issuing
    · cases result
      exact ⟨governed, resolveUnless_genuine l age _ _ _⟩
  | issueParent blkID =>
    simp only [Engine.step] at result
    split at result
    · cases result
      exact ⟨governed, resolveUnless_genuine l age _ _ _⟩
    · rename_i blk found
      cases result
      refine ⟨governed, fun next member => ?_⟩
      rw [List.mem_singleton.mp member]
      exact governed.getBlock honest found
  | deliver blk => exact governed.deliver honest genuine result
  | addedOption blk =>
    cases result
    exact ⟨(governed.queryIfPreferred honest blk).erasePending blk.id, by simp [Task.Genuine]⟩
  | droppedOption blk =>
    cases result
    exact ⟨governed.erasePending blk.id, by simp [Task.Genuine]⟩
  | dropRequest blkID =>
    cases result
    exact ⟨{ governed with }, by simp⟩
  | repollUnlessIdle =>
    cases result
    refine ⟨?_, by simp⟩
    split
    · exact governed
    · exact governed.repoll honest
  | scheduleVoter nodeID requestID responseOptions =>
    exact governed.schedule valid honest (by rintro blk ⟨⟩) result
  | executeDeferredWork => exact governed.executeDeferredWork honest result

/-- The blocks of a message are authentic. -/
def Message.Genuine (l : Lineage) (age : ID → ℕ) : Message → Prop
  | .put _ _ (some blk) => Authentic l age blk
  | .pushQuery _ (some blk) => Authentic l age blk
  | _ => True

/-- A failed request keeps the invariant, and leaves genuine tasks. -/
theorem Governed.getFailed (governed : Governed l age genesis params e) (nodeID : ShortID)
    (requestID : UInt32) : Governed l age genesis params (e.getFailed nodeID requestID).1 ∧
      ∀ task ∈ (e.getFailed nodeID requestID).2, task.Genuine l age := by
  unfold Engine.getFailed
  split
  · exact ⟨governed, by simp⟩
  · exact ⟨{ governed with }, by simp [Task.Genuine]⟩

/-- Votes that are received keep the invariant, and leave genuine tasks. -/
theorem Governed.chits (governed : Governed l age genesis params e) (nodeID : ShortID)
    (requestID : UInt32) (preferredID preferredIDAtHeight : ID) :
    Governed l age genesis params (e.chits nodeID requestID preferredID preferredIDAtHeight).1 ∧
      ∀ task ∈ (e.chits nodeID requestID preferredID preferredIDAtHeight).2,
        task.Genuine l age := by
  unfold Engine.chits
  split
  · exact ⟨governed, by simp [Task.Genuine]⟩
  · exact ⟨governed, by simp [Task.Genuine]⟩

/-- Every genuine message keeps the invariant, and leaves genuine tasks. -/
theorem Governed.handle (governed : Governed l age genesis params e) {message : Message}
    (genuine : message.Genuine l age) :
    Governed l age genesis params (e.handle message).1 ∧
      ∀ task ∈ (e.handle message).2, task.Genuine l age := by
  have received : ∀ (nodeID : ShortID) (blk : Block), Authentic l age blk →
      ∀ task ∈ [Task.issueFrom nodeID blk.id blk, .executeDeferredWork], task.Genuine l age := by
    intro nodeID blk authentic
    simp only [List.mem_cons, List.not_mem_nil, or_false, forall_eq_or_imp, forall_eq]
    exact ⟨⟨rfl, authentic⟩, trivial⟩
  cases message with
  | put nodeID requestID blk =>
    cases blk with
    | none => exact governed.getFailed nodeID requestID
    | some blk =>
      simp only [Engine.handle]
      split
      · split
        · exact governed.getFailed nodeID requestID
        · exact ⟨governed, received nodeID blk genuine⟩
      · exact ⟨governed, received nodeID blk genuine⟩
  | getFailed nodeID requestID => exact governed.getFailed nodeID requestID
  | pullQuery nodeID blkID => exact ⟨governed, by simp [Engine.handle, Task.Genuine]⟩
  | pushQuery nodeID blk =>
    cases blk with
    | none => exact ⟨governed, by simp [Engine.handle]⟩
    | some blk => exact ⟨governed, received nodeID blk genuine⟩
  | chits nodeID requestID preferredID preferredIDAtHeight =>
    exact governed.chits nodeID requestID preferredID preferredIDAtHeight
  | queryFailed nodeID requestID lastAccepted =>
    cases lastAccepted with
    | none => exact ⟨governed, by simp [Engine.handle, Task.Genuine]⟩
    | some lastAcceptedID => exact governed.chits nodeID requestID lastAcceptedID lastAcceptedID
  | pendingTxs => exact ⟨{ governed with }, by simp [Engine.handle, Task.Genuine]⟩
  | gossip sampled =>
    simp only [Engine.handle]
    split
    · exact ⟨governed, by simp [Task.Genuine]⟩
    · refine ⟨?_, by simp⟩
      split
      · exact { governed with }
      · exact governed

end Governed

/-- The surroundings of the engine are honest. -/
def Action.Honest (l : Lineage) (age : ID → ℕ) (params : Parameters) : Action → Prop
  | .receive message => message.Genuine l age
  | .advance answers => answers.Honest l age params

/-- A running engine is governed, and its tasks are genuine. -/
def Machine.Governed (l : Lineage) (age : ID → ℕ) (genesis : ID) (params : Parameters)
    (m : Machine F) : Prop :=
  ∀ e tasks, m = some (e, tasks) →
    SnowmanEngine.Governed l age genesis params e ∧ ∀ task ∈ tasks, task.Genuine l age

section Runs

variable {l : Lineage} {age : ID → ℕ} {genesis : ID} {params : Parameters}

/-- Every step of the engine keeps the invariant. -/
theorem machine_step_governed (valid : params.verify = none) (m : Machine F) (action : Action)
    (honest : action.Honest l age params) (governed : m.Governed l age genesis params) :
    Machine.Governed l age genesis params (m.step action) := by
  cases m with
  | none =>
    intro e tasks impossible
    cases impossible
  | some state =>
    obtain ⟨e, stack⟩ := state
    obtain ⟨kept, genuine⟩ := governed e stack rfl
    cases stack with
    | nil =>
      cases action with
      | receive message =>
        intro after tasks result
        have handled : e.handle message = (after, tasks) := Option.some.inj result
        have both := kept.handle honest
        rw [handled] at both
        exact both
      | advance answers => exact governed
    | cons task rest =>
      cases action with
      | receive message => exact governed
      | advance answers =>
        intro after tasks result
        simp only [Machine.step] at result
        split at result
        · cases result
        · rename_i next first stepped
          cases result
          obtain ⟨keptNext, genuineFirst⟩ := kept.step valid honest
            (genuine task List.mem_cons_self) stepped
          refine ⟨keptNext, fun later member => ?_⟩
          cases List.mem_append.mp member with
          | inl new => exact genuineFirst later new
          | inr old => exact genuine later (List.mem_cons_of_mem _ old)

/-- The invariant holds when the engine starts. -/
theorem start_governed {ts : Topological F}
    (started : Topological.initializeAt params genesis (l.height genesis) = .ok ts)
    (sets : SetReading) (startReqID : UInt32) {options : List Block}
    (authentic : ∀ blk ∈ options, Authentic l age blk) :
    params.verify = none ∧
      Machine.Governed l age genesis params (start sets startReqID ts options) := by
  obtain ⟨valid, _, path, same, recorded, prefers, sameParams⟩ :=
    Snowman.initializeAt_sound (F := F) started
  cases same
  refine ⟨valid, ?_⟩
  intro e tasks result
  cases result
  have only : ∀ id ∈ ts.blocks, id = ts.lastAcceptedID := by
    intro id stored
    unfold Topological.initializeAt at started
    rw [valid] at started
    cases started
    exact (Finmap.mem_insert.mp stored).resolve_right (Finmap.notMem_empty)
  refine ⟨⟨recorded, ⟨path, prefers⟩, sameParams, ?_, ?_, ⟨?_, ?_, ?_, ?_⟩, ?_, ?_, ?_⟩, ?_⟩
  · exact fun entry impossible => absurd impossible List.not_mem_nil
  · exact Mirrors.new sets
  · exact fun node impossible => absurd impossible (Finset.notMem_empty node)
  · exact fun node impossible => absurd impossible (Finset.notMem_empty node)
  · exact fun node impossible => absurd impossible (Finset.notMem_empty node)
  · exact fun id stored other => absurd (only id stored) other
  · exact fun id blk found => by simp at found
  · exact fun id blk found => by simp at found
  · exact fun blk impossible => absurd impossible List.not_mem_nil
  · intro task member
    simp only [List.mem_append, List.mem_map, List.mem_singleton] at member
    rcases member with ⟨blk, inside, rfl⟩ | rfl
    · exact authentic blk inside
    · trivial

/-- The invariant holds after every run. -/
theorem governed_run {ts : Topological F}
    (started : Topological.initializeAt params genesis (l.height genesis) = .ok ts)
    (sets : SetReading) (startReqID : UInt32) {options : List Block}
    (authentic : ∀ blk ∈ options, Authentic l age blk) {actions : List Action}
    (honest : ∀ action ∈ actions, action.Honest l age params) :
    Machine.Governed l age genesis params
      (run Machine.step (start sets startReqID ts options) actions) := by
  obtain ⟨valid, initial⟩ := start_governed started sets startReqID authentic
  exact Along.invariant Machine.step (Machine.Governed l age genesis params)
    (fun m action allowed governed => machine_step_governed valid m action allowed governed)
    (Along.of_forall _ _ honest) initial

end Runs

/-! ## The nearest processing ancestor -/

/-- The parents lead from the first block to the second without passing a processing block. -/
def LeadsIdly (l : Lineage) (ts : Topological F) (vote ancestor : ID) : Prop :=
  ∃ n, l.parent^[n] vote = ancestor ∧ ∀ m < n, ¬ ts.processing (l.parent^[m] vote) = true

/-- The second block is the most recent processing ancestor of the first, or the first itself. -/
def NearestProcessing (l : Lineage) (ts : Topological F) (vote ancestor : ID) : Prop :=
  ts.processing ancestor = true ∧ LeadsIdly l ts vote ancestor

section Nearest

variable {l : Lineage} {age : ID → ℕ} {genesis : ID} {params : Parameters} {e : Engine F}

/-- A vote leads to itself. -/
theorem LeadsIdly.refl (ts : Topological F) (vote : ID) : LeadsIdly l ts vote vote :=
  ⟨0, rfl, fun _ impossible => absurd impossible (Nat.not_lt_zero _)⟩

/-- What the parent leads to, a vote that is not processing leads to. -/
theorem LeadsIdly.up {ts : Topological F} {vote ancestor : ID}
    (idle : ¬ ts.processing vote = true) (leads : LeadsIdly l ts (l.parent vote) ancestor) :
    LeadsIdly l ts vote ancestor := by
  obtain ⟨n, reached, between⟩ := leads
  refine ⟨n + 1, by rw [Function.iterate_succ_apply]; exact reached, ?_⟩
  intro m below
  cases m with
  | zero => exact idle
  | succ m =>
    rw [Function.iterate_succ_apply]
    exact between m (by omega)

/-- Known blocks are not processing. -/
theorem leadsIdly_of_leads {ts : Topological F} {known : Finset ID}
    (idle : ∀ id ∈ known, ¬ ts.processing id = true) {vote top ancestor : ID}
    (leads : Leads l.parent known vote top) (above : LeadsIdly l ts top ancestor) :
    LeadsIdly l ts vote ancestor := by
  induction leads with
  | here node => exact above
  | up inside _ inductionHypothesis =>
    exact LeadsIdly.up (idle _ inside) (inductionHypothesis above)

/-- No block of the ancestor tree is processing. -/
theorem Governed.known_idle (governed : Governed l age genesis params e) :
    ∀ id ∈ e.known, ¬ e.consensus.processing id = true :=
  fun id inside processing =>
    governed.attached.apart id inside ((processing_iff id).mp processing).1

/-- The walk through the cache ends, at a most recent processing ancestor or at none. -/
theorem Governed.bubble (governed : Governed l age genesis params e) (vote : ID) :
    ∃ answer, e.bubble (e.unverifiedBlockCache.keys.card + 1) vote = some answer ∧
      ∀ ancestor, answer = some ancestor → NearestProcessing l e.consensus vote ancestor := by
  have ascends : Ascends l.parent age e.unverifiedBlockCache.keys := by
    intro id member
    obtain ⟨blk, found⟩ := Finmap.mem_iff.mp (Finmap.mem_keys.mp member)
    obtain ⟨rfl, authentic⟩ := governed.cached id blk found
    exact authentic.younger
  have walk : ∀ fuel vote,
      (e.unverifiedBlockCache.keys.filter (fun other => age other ≤ age vote)).card < fuel →
      ∃ answer, e.bubble fuel vote = some answer ∧
        ∀ ancestor, answer = some ancestor → NearestProcessing l e.consensus vote ancestor := by
    intro fuel
    induction fuel with
    | zero => exact fun vote few => absurd few (Nat.not_lt_zero _)
    | succ fuel inductionHypothesis =>
      intro vote few
      unfold Engine.bubble
      split
      · rename_i processing
        refine ⟨some vote, rfl, ?_⟩
        rintro ancestor ⟨rfl⟩
        exact ⟨processing, LeadsIdly.refl _ _⟩
      · rename_i idle
        split
        · exact ⟨none, rfl, fun ancestor impossible => nomatch impossible⟩
        · rename_i blk found
          obtain ⟨rfl, authentic⟩ := governed.cached vote blk found
          split
          · exact ⟨none, rfl, fun ancestor impossible => nomatch impossible⟩
          · rw [authentic.parent]
            have fewer := card_above_lt ascends
              (Finmap.mem_keys.mpr (Finmap.mem_of_lookup_eq_some found))
            obtain ⟨answer, result, nearest⟩ := inductionHypothesis (l.parent blk.id) (by omega)
            refine ⟨answer, result, fun ancestor answered => ?_⟩
            obtain ⟨processing, leads⟩ := nearest ancestor answered
            exact ⟨processing, leads.up idle⟩
  exact walk _ vote (Nat.lt_succ_of_le (Finset.card_filter_le _ _))

/-- The walk answers at once for a processing block, and with none for the last accepted one. -/
theorem Governed.bubble_stored (governed : Governed l age genesis params e) {top : ID}
    (stored : top ∈ e.consensus.blocks) (fuel : ℕ) :
    e.bubble (fuel + 1) top =
      some (if top = e.consensus.lastAcceptedID then none else some top) := by
  unfold Engine.bubble
  by_cases last : top = e.consensus.lastAcceptedID
  · rw [if_pos last, if_neg]
    · split
      · rfl
      · rename_i blk found
        obtain ⟨rfl, authentic⟩ := governed.cached top blk found
        have level : blk.height = l.height blk.id := congrArg Block.height authentic.block
        have decided : e.isDecided blk = true := by
          unfold Engine.isDecided
          rw [if_pos]
          rw [level, governed.recorded.height, last]
        rw [if_pos decided]
    · rw [processing_iff]
      exact fun processing => processing.2 last
  · rw [if_pos ((processing_iff top).mpr ⟨stored, last⟩), if_neg last]

/-- For every vote the search ends, and what it finds is the most recent processing ancestor. For
a block that is processing or in the ancestor tree, it finds none only if the parents lead to the
last accepted block without passing a processing one. -/
theorem Governed.getProcessingAncestor (governed : Governed l age genesis params e) (vote : ID) :
    ∃ answer, e.getProcessingAncestor vote = some answer ∧
      (∀ ancestor, answer = some ancestor → NearestProcessing l e.consensus vote ancestor) ∧
      (vote ∈ e.known ∨ e.consensus.processing vote = true → answer = none →
        LeadsIdly l e.consensus vote e.consensus.lastAcceptedID) := by
  obtain ⟨top, ancestor, leads, unknown⟩ :=
    governed.mirrors.getAncestor governed.attached.ascends vote
  obtain ⟨answer, result, nearest⟩ := governed.bubble top
  have idle := governed.known_idle
  refine ⟨answer, ?_, ?_, ?_⟩
  · unfold Engine.getProcessingAncestor
    rw [ancestor]
    exact result
  · intro found answered
    obtain ⟨processing, above⟩ := nearest found answered
    exact ⟨processing, leadsIdly_of_leads idle leads above⟩
  · intro shown none
    have stored : top ∈ e.consensus.blocks := by
      rcases shown with inside | processing
      · exact governed.attached.top_stored leads unknown inside
      · have outside : vote ∉ e.known := fun inside => idle vote inside processing
        rw [leads.eq_of_notMem outside]
        exact ((processing_iff vote).mp processing).1
    rw [governed.bubble_stored stored, none, Option.some.injEq] at result
    have last : top = e.consensus.lastAcceptedID := by
      by_contra other
      rw [if_neg other] at result
      cases result
    rw [last] at leads
    exact leadsIdly_of_leads idle leads (LeadsIdly.refl _ _)

end Nearest

/-- In every state of every run, with either reading of the ancestor tree's sets, for every vote:
the search for a processing ancestor ends, and what it finds is the most recent processing
ancestor of the block voted for. If that block is processing or in the ancestor tree, nothing is
found only if it descends from the last accepted block without a processing block in between. -/
theorem votes_find_nearest_processing_ancestor {l : Lineage} {age : ID → ℕ} {genesis : ID}
    {params : Parameters} {ts : Topological F}
    (started : Topological.initializeAt params genesis (l.height genesis) = .ok ts)
    (sets : SetReading) (startReqID : UInt32) {options : List Block}
    (authentic : ∀ blk ∈ options, Authentic l age blk) {actions : List Action}
    (honest : ∀ action ∈ actions, action.Honest l age params) {e : Engine F} {tasks : List Task}
    (reached : run Machine.step (start sets startReqID ts options) actions = some (e, tasks))
    (vote : ID) :
    ∃ answer, e.getProcessingAncestor vote = some answer ∧
      (∀ ancestor, answer = some ancestor → NearestProcessing l e.consensus vote ancestor) ∧
      (e.unverifiedIDToAncestor.has vote = true ∨ e.consensus.processing vote = true →
        answer = none → LeadsIdly l e.consensus vote e.consensus.lastAcceptedID) := by
  obtain ⟨governed, _⟩ := governed_run started sets startReqID authentic honest e tasks reached
  obtain ⟨answer, result, nearest, exactly⟩ := governed.getProcessingAncestor vote
  refine ⟨answer, result, nearest, ?_⟩
  rw [governed.mirrors.has_iff]
  exact exactly

/-- A line of blocks, each named by its height. -/
def line : Lineage where
  parent id := Vector.replicate 32 (id.toList.headD 0 - 1)
  height id := (id.toList.headD 0).toNat

/-- The block of a height. -/
def lineBlock (height : UInt8) : Block := line.block (Vector.replicate 32 height)

/-- No parents are known. -/
def noParents : Poll.BlockTraversal where
  getParent _ := none
  acyclic id cycle := by
    obtain ⟨next, step, _⟩ := Relation.TransGen.head'_iff.mp cycle
    cases step

/-- The first block of the line is there and valid, and no validators are sampled. -/
def firstValid : Answers where
  getBlock id := if id = Vector.replicate 32 1 then some (lineBlock 1) else none
  verify blk := decide (blk = lineBlock 1)
  options _ := .notOracle
  buildBlock := none
  setPreference := true
  sample _ := none
  evicted := []
  order := byValue 32
  choice := (noParents, ⟨byValue 32, byValue 32, byValue 32, byValue 32⟩)
  choices _ := (noParents, ⟨byValue 32, byValue 32, byValue 32, byValue 32⟩)
  pollOrders := ⟨byValue 32, byValue 32, byValue 32⟩

/-- A block is pushed to the engine, which works on it. -/
def pushed (height : UInt8) : List Action :=
  .receive (.pushQuery (Vector.replicate 20 0) (some (lineBlock height))) ::
    List.replicate 8 (.advance firstValid)

/-- The second block of the line is pushed after the first. -/
def twoPushed : List Action := .advance firstValid :: (pushed 1 ++ pushed 2)

/-- The machine that verifies the first block only answers honestly. -/
theorem firstValid_honest : firstValid.Honest line line.height Snowman.decisive where
  getBlock id blk found := by
    unfold firstValid at found
    simp only at found
    split at found
    · rename_i same
      cases found
      exact ⟨same.symm, rfl, by decide⟩
    · cases found
  verify blk verified := by
    rw [of_decide_eq_true verified]
    decide
  options blk first second impossible := by cases impossible
  buildBlock blk impossible := by cases impossible
  sample number vdrs impossible := by cases impossible

/-- The blocks that are pushed are those of the line. -/
theorem twoPushed_honest :
    ∀ action ∈ twoPushed, action.Honest line line.height Snowman.decisive := by
  have works : ∀ action ∈ List.replicate 8 (Action.advance firstValid),
      action.Honest line line.height Snowman.decisive := by
    intro action member
    rw [List.eq_of_mem_replicate member]
    exact firstValid_honest
  have first : Authentic line line.height (lineBlock 1) := ⟨rfl, by decide⟩
  have second : Authentic line line.height (lineBlock 2) := ⟨rfl, by decide⟩
  simp only [twoPushed, pushed, List.forall_mem_cons, List.forall_mem_append]
  exact ⟨firstValid_honest, ⟨first, works⟩, ⟨second, works⟩⟩

/-- The second block is not valid. With plain sets a vote for it is one for the first block; with
the nil interface the engine panics where the ancestor tree takes the second block. -/
theorem vote_for_invalid_child :
    run Machine.step (start .interface 0 Snowman.decisiveStart []) twoPushed = none ∧
      (run Machine.step (start .map 0 Snowman.decisiveStart []) twoPushed).map
        (fun state => state.1.getProcessingAncestor (Vector.replicate 32 2)) =
        some (some (some (Vector.replicate 32 1))) ∧
      ∀ sets e tasks,
        run Machine.step (start sets 0 Snowman.decisiveStart []) twoPushed = some (e, tasks) →
        ∃ answer, e.getProcessingAncestor (Vector.replicate 32 2) = some answer ∧
          ∀ ancestor, answer = some ancestor →
            NearestProcessing line e.consensus (Vector.replicate 32 2) ancestor := by
  have panics : (run Machine.step (start .interface 0 Snowman.decisiveStart []) twoPushed).isNone =
      true := by
    decide +kernel
  refine ⟨Option.isNone_iff_eq_none.mp panics, by decide +kernel, fun sets e tasks reached => ?_⟩
  have started : Topological.initializeAt Snowman.decisive Snowman.emptyID
      (line.height Snowman.emptyID) = .ok Snowman.decisiveStart := rfl
  obtain ⟨answer, result, nearest, _⟩ := votes_find_nearest_processing_ancestor started sets 0
    (fun blk impossible => absurd impossible List.not_mem_nil) twoPushed_honest reached
    (Vector.replicate 32 2)
  exact ⟨answer, result, nearest⟩

end AvalancheParallel.SnowmanEngine
