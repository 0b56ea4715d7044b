import AvalancheParallel.Foundation.Runs
import AvalancheParallel.Snowball.Confidence
import AvalancheParallel.Snowball.Tree

/-!
# The shape of the tree and the order of its decisions

A child votes on the bit after the last one of its parent, and decides after it. The
second part holds because a child is polled only together with its parent, with no more
votes, and is reset whenever its parent is: its level never exceeds that of its parent,
if resets that are still pending are taken as done. On the side of a binary node that
is not preferred by its slush, the level is zero, and so is that of a unary node whose
child is to be reset.
-/

namespace AvalancheParallel.Snowball

open AvalancheParallel.Ids

variable {F : Factory}

/-- The calls of a tree. -/
inductive TreeAction where
  | add (choice : ID)
  | recordPoll (votes : Multiset ID)
  | recordUnsuccessfulPoll

/-- One call. -/
def Tree.step (t : Tree F) : TreeAction → Tree F
  | .add choice => t.add choice
  | .recordPoll votes => (t.recordPoll votes).1
  | .recordUnsuccessfulPoll => t.recordUnsuccessfulPoll

namespace Node

/-- Where the children of a node begin, and where a node without children ends. -/
def WellShaped : Node F → Prop
  | .absent => True
  | .unary _ _ commonPrefix _ _ child =>
    (child.isPresent = true → child.decidedPrefix = commonPrefix) ∧
      (child.isPresent = false → commonPrefix = 256)
  | .binary _ _ bit _ _ _ child0 child1 =>
    child0.isPresent = true ∧ child1.isPresent = true ∧ child0.decidedPrefix = bit + 1 ∧
      child1.decidedPrefix = bit + 1 ∨
    child0.isPresent = false ∧ child1.isPresent = false ∧ bit = 255

/-- The nodes of a sub-tree, with its root first. -/
def subNodes : Node F → List (Node F)
  | .absent => []
  | .unary preference decidedPrefix commonPrefix snow shouldReset child =>
    .unary preference decidedPrefix commonPrefix snow shouldReset child :: child.subNodes
  | .binary preference0 preference1 bit snow shouldReset0 shouldReset1 child0 child1 =>
    .binary preference0 preference1 bit snow shouldReset0 shouldReset1 child0 child1 ::
      (child0.subNodes ++ child1.subNodes)

/-- The node has no children. -/
def isLeaf : Node F → Bool
  | .absent => true
  | .unary _ _ _ _ _ child => !child.isPresent
  | .binary _ _ _ _ _ _ child0 child1 => !child0.isPresent && !child1.isPresent

end Node

/-- Every node is well shaped, and only the root may be decided. -/
structure Tree.DecidesInOrder (t : Tree F) : Prop where
  shape : ∀ node ∈ t.node.subNodes, node.WellShaped
  undecided : ∀ node ∈ t.node.subNodes.tail, node.finalized = false

namespace Node

section Levels

variable (view : FlakeView F)

/-- The level of the instance of a node. -/
def level : Node F → ℤ
  | .absent => 0
  | .unary _ _ _ snow _ _ => view.unaryLevel snow
  | .binary _ _ _ snow _ _ _ _ => view.binaryLevel snow

/-- The level, once a pending reset is done. -/
def effective (node : Node F) (pending : Bool) : ℤ := if pending then 0 else node.level view

/-- The child begins at the given bit, is undecided and does not exceed the level. -/
structure Hangs (child : Node F) (decidedPrefix : ℕ) (pending : Bool) (limit : ℤ) : Prop where
  decidedPrefix : child.decidedPrefix = decidedPrefix
  undecided : child.finalized = false
  dominated : child.effective view pending ≤ limit

/-- The level that a child on one side of a binary node may have. -/
def sideLimit (snow : F.Binary) (pending side : Bool) : ℤ :=
  if side = view.slush snow then (if pending then 0 else view.binaryLevel snow) else 0

variable (params : Parameters)

/-- The nodes of a sub-tree are well shaped and each child is dominated by its parent. The truth
value tells whether a reset of the sub-tree is pending. -/
inductive Sound : Node F → Bool → Prop
  | absent (pending : Bool) : Sound .absent pending
  | unary {preference : ID} {decidedPrefix commonPrefix : ℕ} {snow : F.Unary} {shouldReset : Bool}
      {child : Node F} {pending : Bool} (counts : (view.unary snow).Counts params)
      (range : decidedPrefix < commonPrefix) (bounded : commonPrefix ≤ numBits)
      (ends : child.isPresent = false → commonPrefix = numBits)
      (marked : shouldReset = true → view.unaryLevel snow = 0)
      (hangs : child.isPresent = true → Hangs view child commonPrefix (shouldReset || pending)
        (if pending then 0 else view.unaryLevel snow))
      (below : Sound child (shouldReset || pending)) :
      Sound (.unary preference decidedPrefix commonPrefix snow shouldReset child) pending
  | binary {preference0 preference1 : ID} {bit : ℕ} {snow : F.Binary}
      {shouldReset0 shouldReset1 : Bool} {child0 child1 : Node F} {pending : Bool}
      (counts : (view.binary snow).Counts params) (bounded : bit < numBits)
      (both : child0.isPresent = child1.isPresent)
      (ends : child0.isPresent = false → bit + 1 = numBits)
      (hangs0 : child0.isPresent = true → Hangs view child0 (bit + 1) (shouldReset0 || pending)
        (sideLimit view snow pending false))
      (hangs1 : child1.isPresent = true → Hangs view child1 (bit + 1) (shouldReset1 || pending)
        (sideLimit view snow pending true))
      (below0 : Sound child0 (shouldReset0 || pending))
      (below1 : Sound child1 (shouldReset1 || pending)) :
      Sound (.binary preference0 preference1 bit snow shouldReset0 shouldReset1 child0 child1)
        pending

/-- A sub-tree that may be the whole tree: a decided node has no children. -/
structure Rooted (node : Node F) (pending : Bool) : Prop where
  sound : node.Sound view params pending
  decided : node.finalized = true → node.isLeaf = true

end Levels

variable {view : FlakeView F} {params : Parameters}

/-- A child of an undecided node may be the whole tree. -/
theorem Hangs.rooted {child : Node F} {decidedPrefix : ℕ} {pending : Bool} {limit : ℤ}
    (hangs : Hangs view child decidedPrefix pending limit)
    (sound : child.Sound view params pending) : child.Rooted view params pending :=
  ⟨sound, fun finalized => absurd (hangs.undecided.symm.trans finalized) Bool.false_ne_true⟩

/-- A pending reset counts as level zero. -/
theorem effective_eq {node : Node F} {level : ℤ} (same : node.level view = level) (pending : Bool) :
    node.effective view pending = if pending then 0 else level := by
  unfold effective
  rw [same]

/-- Levels are not negative. -/
theorem Sound.level_nonneg {node : Node F} {pending : Bool}
    (sound : node.Sound view params pending) :
    0 ≤ node.level view := by
  cases sound with
  | absent => exact Int.le_refl 0
  | unary counts => exact counts.counting.nonneg
  | binary counts => exact counts.counting.nonneg

/-- Levels are not negative with a pending reset either. -/
theorem Sound.effective_nonneg {node : Node F} {pending : Bool}
    (sound : node.Sound view params pending) (other : Bool) : 0 ≤ node.effective view other := by
  unfold effective
  split
  · exact Int.le_refl 0
  · exact sound.level_nonneg

/-- Some bit is undecided at every node. -/
theorem Sound.decidedPrefix_lt {node : Node F} {pending : Bool}
    (sound : node.Sound view params pending) (present : node.isPresent = true) :
    node.decidedPrefix < numBits := by
  cases sound with
  | absent => cases present
  | unary counts range bounded => exact Nat.lt_of_lt_of_le range bounded
  | binary counts bounded => exact bounded

/-- A pending reset satisfies every limit. -/
theorem Hangs.pend {child : Node F} {decidedPrefix : ℕ} {pending : Bool} {limit : ℤ}
    (hangs : Hangs view child decidedPrefix pending limit) {other : ℤ} (nonneg : 0 ≤ other) :
    Hangs view child decidedPrefix true other :=
  ⟨hangs.decidedPrefix, hangs.undecided, nonneg⟩

/-- What a child may reach is not negative. -/
theorem sideLimit_nonneg {snow : F.Binary} (counts : (view.binary snow).Counts params)
    (pending side : Bool) : 0 ≤ sideLimit view snow pending side := by
  unfold sideLimit
  split
  · split
    · exact Int.le_refl 0
    · exact counts.counting.nonneg
  · exact Int.le_refl 0

/-- A reset may be postponed. -/
theorem Sound.pend {node : Node F} {pending : Bool} (sound : node.Sound view params pending) :
    node.Sound view params true := by
  induction sound with
  | absent => exact .absent true
  | unary counts range bounded ends marked hangs below inductionHypothesis =>
    refine .unary counts range bounded ends marked ?_ ?_
    · intro present
      rw [Bool.or_true]
      exact (hangs present).pend (Int.le_refl 0)
    · rw [Bool.or_true]
      exact inductionHypothesis
  | binary counts bounded both ends hangs0 hangs1 below0 below1 first second =>
    refine .binary counts bounded both ends ?_ ?_ ?_ ?_
    · intro present
      rw [Bool.or_true]
      exact (hangs0 present).pend (sideLimit_nonneg counts true false)
    · intro present
      rw [Bool.or_true]
      exact (hangs1 present).pend (sideLimit_nonneg counts true true)
    · rw [Bool.or_true]
      exact first
    · rw [Bool.or_true]
      exact second

/-- A node that is replaced by one of the same state may stay where it is. -/
theorem Hangs.of_same {child other : Node F} {decidedPrefix : ℕ} {pending : Bool} {limit : ℤ}
    (hangs : Hangs view child decidedPrefix pending limit)
    (first : other.decidedPrefix = child.decidedPrefix)
    (finalized : other.finalized = child.finalized)
    (level : other.level view = child.level view) :
    Hangs view other decidedPrefix pending limit := by
  exact ⟨first.trans hangs.decidedPrefix, finalized.trans hangs.undecided,
    (effective_eq level pending).trans_le hangs.dominated⟩

/-- Passing a flag through one more node changes nothing. -/
theorem Hangs.relay {child : Node F} {decidedPrefix : ℕ} {flag pending : Bool} {limit : ℤ}
    (hangs : Hangs view child decidedPrefix (flag || pending) (if pending then 0 else limit)) :
    Hangs view child decidedPrefix (flag || (flag || pending))
      (if flag || pending then 0 else limit) := by
  cases flag with
  | false => exact hangs
  | true => exact hangs.pend (Int.le_refl 0)

section Adding

/-- A new node is sound. -/
theorem newUnaryNode_sound (positive : 0 < params.beta) (choice : ID) {decidedPrefix : ℕ}
    (inside : decidedPrefix < numBits) (pending : Bool) :
    (newUnaryNode params choice decidedPrefix : Node F).Sound view params pending := by
  refine .unary (view.newUnary_counts positive).1 inside (Nat.le_refl numBits) (fun _ => rfl)
    (fun impossible => Bool.noConfusion impossible) ?_ (.absent _)
  intro impossible
  cases impossible

/-- A new node may hang anywhere its bits fit. -/
theorem newUnaryNode_hangs (positive : 0 < params.beta) (choice : ID) (decidedPrefix : ℕ)
    (pending : Bool) {limit : ℤ} (nonneg : 0 ≤ limit) :
    Hangs view (newUnaryNode params choice decidedPrefix : Node F) decidedPrefix pending limit := by
  obtain ⟨_, zero, undecided⟩ := view.newUnary_counts positive
  refine ⟨rfl, undecided, ?_⟩
  unfold effective
  split
  · exact nonneg
  · change view.unaryLevel (F.newUnary params) ≤ limit
    rw [zero]
    exact nonneg

/-- The binary node of a split, above what was below the bit. -/
theorem splitNode_sound (positive : 0 < params.beta) (preference newChoice : ID) {index : ℕ}
    {snow : F.Unary} {shouldReset pending : Bool} {child : Node F} (inside : index < numBits)
    (counts : (view.unary snow).Counts params)
    (ends : child.isPresent = false → index + 1 = numBits)
    (hangs : child.isPresent = true → Hangs view child (index + 1) (shouldReset || pending)
      (if pending then 0 else view.unaryLevel snow))
    (below : child.Sound view params (shouldReset || pending)) :
    (splitNode params preference newChoice index snow shouldReset child child.isPresent).Sound view
        params pending ∧
      (splitNode params preference newChoice index snow shouldReset child child.isPresent).level
        view = view.unaryLevel snow ∧
      (splitNode params preference newChoice index snow shouldReset child
        child.isPresent).finalized = F.unaryFinalized snow := by
  obtain ⟨extended, same, slush, finalized⟩ :=
    view.extend_counts counts (preference.bit index)
  refine ⟨?_, same, finalized⟩
  have preferred : ∀ side, side = preference.bit index →
      sideLimit view (F.extend snow (preference.bit index)) pending side =
        if pending then 0 else view.unaryLevel snow := by
    intro side chosen
    unfold sideLimit
    rw [slush, if_pos chosen, same]
  -- the new child is there exactly when the other one is
  have newPresent : (if child.isPresent = true then newUnaryNode params newChoice (index + 1)
      else .absent : Node F).isPresent = child.isPresent := by
    cases child.isPresent <;> rfl
  have newSound : (if child.isPresent = true then newUnaryNode params newChoice (index + 1)
      else .absent : Node F).Sound view params (shouldReset || pending) := by
    split
    · rename_i present
      have room := below.decidedPrefix_lt present
      rw [(hangs present).decidedPrefix] at room
      exact newUnaryNode_sound positive newChoice room _
    · exact .absent _
  have newHangs : ∀ side, (if child.isPresent = true then newUnaryNode params newChoice (index + 1)
      else .absent : Node F).isPresent = true →
      Hangs view (if child.isPresent = true then newUnaryNode params newChoice (index + 1)
        else .absent : Node F) (index + 1) (shouldReset || pending)
        (sideLimit view (F.extend snow (preference.bit index)) pending side) := by
    intro side present
    rw [newPresent] at present
    rw [if_pos present]
    exact newUnaryNode_hangs positive newChoice _ _ (sideLimit_nonneg extended pending side)
  unfold splitNode select
  cases bit : preference.bit index with
  | false =>
    rw [bit] at preferred newHangs extended
    refine .binary extended inside newPresent.symm ends ?_ (newHangs true) below newSound
    intro present
    rw [preferred false rfl]
    exact hangs present
  | true =>
    rw [bit] at preferred newHangs extended
    refine .binary extended inside newPresent ?_ (newHangs false) ?_ newSound below
    · intro absent
      exact ends (newPresent.symm.trans absent)
    · intro present
      rw [preferred true rfl]
      exact hangs present

/-- A reset that is pending from the node itself lowers the level further. -/
theorem unaryLevel_or_le {snow : F.Unary} (counts : (view.unary snow).Counts params)
    (shouldReset pending : Bool) :
    (if (shouldReset || pending) = true then 0 else view.unaryLevel snow) ≤
      if pending = true then 0 else view.unaryLevel snow := by
  have nonneg : 0 ≤ view.unaryLevel snow := counts.counting.nonneg
  cases shouldReset <;> cases pending <;> simp [nonneg]

/-- The rest of an undecided unary node below a bit at which it is split. -/
theorem Sound.lower {preference : ID} {decidedPrefix commonPrefix index : ℕ} {snow : F.Unary}
    {shouldReset pending : Bool} {child : Node F}
    (sound : (Node.unary preference decidedPrefix commonPrefix snow shouldReset child).Sound view
      params pending)
    (undecided : F.unaryFinalized snow = false) (several : index + 1 < commonPrefix) :
    (Node.unary preference (index + 1) commonPrefix snow shouldReset child).Sound view params
        (shouldReset || pending) ∧
      Hangs view (Node.unary preference (index + 1) commonPrefix snow shouldReset child)
        (index + 1) (shouldReset || pending) (if pending then 0 else view.unaryLevel snow) := by
  cases sound with
  | unary counts range bounded ends marked hangs below =>
  refine ⟨.unary counts several bounded ends marked (fun present => (hangs present).relay) ?_,
    rfl, undecided, unaryLevel_or_le counts shouldReset pending⟩
  rw [Bool.or_self_left]
  exact below

/-- Adding a choice keeps the shape and changes neither the first bit of a node nor its state. -/
theorem add_sound (positive : 0 < params.beta) (newChoice : ID) {node : Node F} {pending : Bool}
    (sound : node.Sound view params pending) :
    (node.add params newChoice).Sound view params pending ∧
      (node.add params newChoice).decidedPrefix = node.decidedPrefix ∧
      (node.add params newChoice).finalized = node.finalized ∧
      (node.add params newChoice).level view = node.level view := by
  induction sound with
  | absent pending => exact ⟨.absent pending, rfl, rfl, rfl⟩
  | @unary preference decidedPrefix commonPrefix snow shouldReset child pending counts range bounded
      ends marked hangs below inductionHypothesis =>
    obtain ⟨childSound, childPrefix, childFinalized, childLevel⟩ := inductionHypothesis
    have childPresent := (add_preference params newChoice child).2
    unfold add
    split
    · exact ⟨.unary counts range bounded ends marked hangs below, rfl, rfl, rfl⟩
    rename_i notFinalized
    have undecided : F.unaryFinalized snow = false := Bool.eq_false_of_not_eq_true notFinalized
    split
    · -- 1.
      refine ⟨.unary counts range bounded ?_ marked ?_ childSound, rfl, rfl, rfl⟩
      · intro absent
        exact ends (childPresent.symm.trans absent)
      · intro present
        exact (hangs (childPresent.symm.trans present)).of_same childPrefix childFinalized
          childLevel
    rename_i index found
    obtain ⟨low, high⟩ := firstDifferenceSubset_range found
    have inside : index < numBits := Nat.lt_of_lt_of_le high bounded
    have sound : (Node.unary preference decidedPrefix commonPrefix snow shouldReset child).Sound
        view params pending := .unary counts range bounded ends marked hangs below
    dsimp only
    split
    · -- 2.
      rename_i one
      have last : index + 1 = commonPrefix := by omega
      obtain ⟨split, level, finalized⟩ := splitNode_sound positive preference newChoice inside
        counts (fun absent => last.trans (ends absent)) (fun present => last ▸ hangs present) below
      refine ⟨split, ?_, finalized, level⟩
      change index = decidedPrefix
      omega
    split
    · -- 3.
      rename_i several first
      obtain ⟨lowerSound, lowerHangs⟩ :=
        sound.lower undecided (by omega : index + 1 < commonPrefix)
      obtain ⟨split, level, finalized⟩ := splitNode_sound positive preference newChoice inside
        counts (fun absent => Bool.noConfusion absent) (fun _ => lowerHangs) lowerSound
      subst first
      exact ⟨split, rfl, finalized, level⟩
    split
    · -- 4.
      rename_i several notFirst last
      have ending : index + 1 = commonPrefix := by omega
      obtain ⟨split, level, finalized⟩ := splitNode_sound positive preference newChoice inside
        counts (fun absent => ending.trans (ends absent))
        (fun present => ending ▸ (hangs present).relay) (by rw [Bool.or_self_left]; exact below)
      refine ⟨.unary counts (by omega) (by omega) (fun absent => Bool.noConfusion absent) marked ?_
        split, rfl, rfl, rfl⟩
      intro _
      exact ⟨last, finalized.trans undecided,
        (effective_eq level _).trans_le (unaryLevel_or_le counts shouldReset pending)⟩
    · -- 5.
      rename_i several notFirst notLast
      obtain ⟨lowerSound, lowerHangs⟩ :=
        sound.lower undecided (by omega : index + 1 < commonPrefix)
      obtain ⟨split, level, finalized⟩ := splitNode_sound positive preference newChoice inside
        counts (fun absent => Bool.noConfusion absent) (fun _ => lowerHangs) lowerSound
      refine ⟨.unary counts (by omega) (by omega) (fun absent => Bool.noConfusion absent)
        (fun impossible => Bool.noConfusion impossible) ?_ split, rfl, rfl, rfl⟩
      intro _
      exact ⟨rfl, finalized.trans undecided, (effective_eq level _).le⟩
  | @binary preference0 preference1 bit snow shouldReset0 shouldReset1 child0 child1 pending counts
      bounded both ends hangs0 hangs1 below0 below1 first second =>
    unfold add
    split
    · obtain ⟨sound, decidedPrefix, finalized, level⟩ := second
      have present := (add_preference params newChoice child1).2
      refine ⟨.binary counts bounded (both.trans present.symm) ends hangs0 ?_ below0 sound,
        rfl, rfl, rfl⟩
      intro here
      exact (hangs1 (present.symm.trans here)).of_same decidedPrefix finalized level
    · obtain ⟨sound, decidedPrefix, finalized, level⟩ := first
      have present := (add_preference params newChoice child0).2
      refine ⟨.binary counts bounded (present.trans both) ?_ ?_ hangs1 sound below1, rfl, rfl, rfl⟩
      · intro absent
        exact ends (present.symm.trans absent)
      · intro here
        exact (hangs0 (present.symm.trans here)).of_same decidedPrefix finalized level

end Adding

section Polling

/-- What a poll does to a node: the counter gains at most one, a node that stays undecided is
returned itself, and what is returned may be the whole tree. -/
structure PollLaw (view : FlakeView F) (params : Parameters) (node : Node F) (votes : Multiset ID)
    (reset : Bool) (polled : Polled F) : Prop where
  present : polled.changed.isPresent = node.isPresent
  decidedPrefix : polled.changed.decidedPrefix = node.decidedPrefix
  returned : polled.returned.Rooted view params false
  gained : node.finalized = false →
    polled.changed.level view ≤ gain params votes.card (node.effective view reset)
  undecided : polled.changed.finalized = false → polled.returned = polled.changed
  decided : node.finalized = false → polled.changed.finalized = true →
    params.beta ≤ polled.changed.level view

/-- A node that returns itself. -/
theorem PollLaw.self {node self : Node F} {votes : Multiset ID} {reset successful : Bool}
    (present : self.isPresent = node.isPresent)
    (decidedPrefix : self.decidedPrefix = node.decidedPrefix)
    (rooted : self.Rooted view params false)
    (gained : node.finalized = false →
      self.level view ≤ gain params votes.card (node.effective view reset))
    (decided : node.finalized = false → self.finalized = true → params.beta ≤ self.level view) :
    PollLaw view params node votes reset ⟨self, self, successful⟩ :=
  ⟨present, decidedPrefix, rooted, gained, fun _ => rfl, decided⟩

/-- A node that returns itself after a reset. -/
theorem PollLaw.cleared {node self : Node F} {votes : Multiset ID} {reset successful : Bool}
    (rooted : node.Rooted view params reset) (present : self.isPresent = node.isPresent)
    (decidedPrefix : self.decidedPrefix = node.decidedPrefix)
    (finalized : self.finalized = node.finalized) (leaf : self.isLeaf = node.isLeaf)
    (zero : self.level view = 0) (sound : self.Sound view params false) :
    PollLaw view params node votes reset ⟨self, self, successful⟩ := by
  refine .self present decidedPrefix ⟨sound, ?_⟩ ?_ ?_
  · intro decided
    exact leaf.trans (rooted.decided (finalized.symm.trans decided))
  · intro _
    exact zero.trans_le (gain_nonneg params _ (rooted.sound.effective_nonneg reset))
  · intro before after
    exact absurd (before.symm.trans (finalized.symm.trans after)) Bool.false_ne_true

/-- A node that stays undecided. -/
theorem PollLaw.still {node self : Node F} {votes : Multiset ID} {reset successful : Bool}
    (present : self.isPresent = node.isPresent)
    (decidedPrefix : self.decidedPrefix = node.decidedPrefix)
    (undecided : ¬ self.finalized = true) (sound : self.Sound view params false)
    (gained : node.finalized = false →
      self.level view ≤ gain params votes.card (node.effective view reset)) :
    PollLaw view params node votes reset ⟨self, self, successful⟩ :=
  .self present decidedPrefix ⟨sound, fun finalized => absurd finalized undecided⟩ gained
    (fun _ finalized => absurd finalized undecided)

/-- Under a parent that stays undecided, the child stays undecided and dominated. -/
theorem PollLaw.hangs {child : Node F} {votes : Multiset ID} {reset : Bool} {polled : Polled F}
    (law : PollLaw view params child votes reset polled) {decidedPrefix : ℕ} {limit reached : ℤ}
    (hangs : Hangs view child decidedPrefix reset limit) (sound : child.Sound view params reset)
    (high : gain params votes.card limit ≤ reached) (below : reached < params.beta) :
    Hangs view polled.changed decidedPrefix false reached ∧ polled.changed.Sound view params false ∧
      polled.returned = polled.changed := by
  have gained := law.gained hangs.undecided
  have limited := gain_mono params (Int.le_refl (votes.card : ℤ)) (sound.effective_nonneg reset)
    hangs.dominated
  have low : polled.changed.level view ≤ reached := by omega
  have undecided : polled.changed.finalized = false := by
    by_contra finalized
    have reachedBeta := law.decided hangs.undecided (by simpa using finalized)
    omega
  have same := law.undecided undecided
  refine ⟨⟨law.decidedPrefix.trans hangs.decidedPrefix, undecided, low⟩, ?_, same⟩
  rw [← same]
  exact law.returned.sound

/-- A node that is decided in this poll returns what its child returned. -/
theorem PollLaw.replaced {node child self : Node F} {votes pruned : Multiset ID}
    {reset childReset successful : Bool} {polled : Polled F}
    (childLaw : PollLaw view params child pruned childReset polled)
    (present : self.isPresent = node.isPresent)
    (decidedPrefix : self.decidedPrefix = node.decidedPrefix)
    (gained : node.finalized = false →
      self.level view ≤ gain params votes.card (node.effective view reset))
    (finalizes : self.finalized = true)
    (decided : node.finalized = false → params.beta ≤ self.level view) :
    PollLaw view params node votes reset ⟨self, polled.returned, successful⟩ :=
  ⟨present, decidedPrefix, childLaw.returned, gained,
    fun still => absurd (finalizes.symm.trans still) (by decide), fun before _ => decided before⟩

/-- Where there is no node there is nothing to check. -/
theorem Sound.of_absent {node : Node F} (absent : node.isPresent = false) (pending : Bool) :
    node.Sound view params pending := by
  cases node with
  | absent => exact .absent pending
  | unary _ _ _ _ _ _ => cases absent
  | binary _ _ _ _ _ _ _ _ => cases absent

/-- A unary node whose votes do not suffice is reset, and everything below it is to be. -/
theorem unary_unsuccessful_law (positive : 0 < params.beta) {preference : ID}
    {decidedPrefix commonPrefix : ℕ} {snow : F.Unary} {shouldReset : Bool} {child : Node F}
    {reset : Bool} (votes : Multiset ID)
    (rooted : (Node.unary preference decidedPrefix commonPrefix snow shouldReset child).Rooted view
      params reset) :
    let self := Node.unary preference decidedPrefix commonPrefix (F.unaryRecordUnsuccessfulPoll
      (if reset then F.unaryRecordUnsuccessfulPoll snow else snow)) true child
    PollLaw view params (.unary preference decidedPrefix commonPrefix snow shouldReset child) votes
      reset ⟨self, self, false⟩ := by
  cases rooted.sound with
  | unary counts range bounded ends marked hangs below =>
  obtain ⟨pendingCounts, _, pendingFinalized⟩ := view.unaryPending_counts positive counts reset
  obtain ⟨resetCounts, zero, same⟩ := view.unaryReset_counts positive pendingCounts
  refine .cleared rooted rfl rfl (same.trans pendingFinalized) rfl zero
    (.unary resetCounts range bounded ends (fun _ => zero) ?_ below.pend)
  intro present
  exact (hangs present).pend (zero ▸ Int.le_refl 0)

/-- A unary node that is polled together with its child. -/
theorem unary_recordPoll_law (positive : 0 < params.beta) {preference : ID}
    {decidedPrefix commonPrefix : ℕ} {snow : F.Unary} {shouldReset : Bool} {child : Node F}
    {reset : Bool} {votes : Multiset ID}
    (rooted : (Node.unary preference decidedPrefix commonPrefix snow shouldReset child).Rooted view
      params reset)
    (childLaw : child.Rooted view params (shouldReset || reset) →
      PollLaw view params child votes (shouldReset || reset)
        (child.recordPoll params votes (shouldReset || reset))) :
    PollLaw view params (.unary preference decidedPrefix commonPrefix snow shouldReset child) votes
      reset ((Node.unary preference decidedPrefix commonPrefix snow shouldReset child).recordPoll
        params votes reset) := by
  unfold recordPoll
  dsimp only
  split
  · exact unary_unsuccessful_law positive votes rooted
  cases rooted.sound with
  | unary counts range bounded ends marked hangs below =>
  obtain ⟨pendingCounts, pendingLevel, pendingFinalized⟩ :=
    view.unaryPending_counts positive counts reset
  generalize (if reset = true then F.unaryRecordUnsuccessfulPoll snow else snow) = current at *
  obtain ⟨polledCounts, gained, reached⟩ := view.unaryPoll_counts pendingCounts (votes.card : ℤ)
  rw [pendingFinalized] at reached
  have exactly : view.unaryLevel (F.unaryRecordPoll current votes.card) =
      gain params votes.card (if reset then 0 else view.unaryLevel snow) := by
    rw [gained, pendingLevel]
  generalize F.unaryRecordPoll current votes.card = next at *
  split
  · rename_i present
    have law := childLaw ((hangs present).rooted below)
    split
    · rename_i finalizes
      exact law.replaced rfl rfl (fun _ => exactly.le) finalizes
        (fun before => reached before finalizes)
    · rename_i still
      have stillOpen : F.unaryFinalized next = false := by simpa using still
      have low : view.unaryLevel next < params.beta :=
        polledCounts.counting.undecided ((view.unaryFinalized next).symm.trans stillOpen)
      obtain ⟨stays, childSound, _⟩ := law.hangs (hangs present) below exactly.ge low
      refine .still rfl rfl still (.unary polledCounts range bounded ?_
        (fun impossible => Bool.noConfusion impossible) (fun _ => stays) childSound)
        (fun _ => exactly.le)
      intro absent
      exact ends (law.present.symm.trans absent)
  · rename_i absent
    have noChild : child.isPresent = false := by simpa using absent
    refine .self rfl rfl ⟨.unary polledCounts range bounded ends
      (fun impossible => Bool.noConfusion impossible) ?_ ?_, ?_⟩ (fun _ => exactly.le) ?_
    · intro present
      exact absurd present absent
    · exact .of_absent noChild _
    · intro _
      simp [isLeaf, noChild]
    · exact fun before after => reached before after

/-- What a successful poll makes of the instance of a binary node. -/
structure Advanced (view : FlakeView F) (params : Parameters) (snow next : F.Binary) (count : ℤ)
    (reset side : Bool) : Prop where
  counts : (view.binary next).Counts params
  level : F.binaryFinalized snow = false →
    view.binaryLevel next = gain params count (sideLimit view snow reset side)
  slush : F.binaryFinalized snow = false → view.slush next = side
  decided : F.binaryFinalized snow = false → F.binaryFinalized next = true →
    params.beta ≤ view.binaryLevel next

/-- An instance that is not finalized is below `beta`. -/
theorem Advanced.level_lt {snow next : F.Binary} {count : ℤ} {reset side : Bool}
    (advanced : Advanced view params snow next count reset side)
    (still : ¬ F.binaryFinalized next = true) : view.binaryLevel next < params.beta := by
  refine advanced.counts.counting.undecided ?_
  rw [← view.binaryFinalized]
  simpa using still

/-- The side that was polled may be as high as the node. -/
theorem Advanced.sideLimit_eq {snow next : F.Binary} {count : ℤ} {reset side : Bool}
    (advanced : Advanced view params snow next count reset side)
    (undecided : F.binaryFinalized snow = false) :
    sideLimit view next false side = view.binaryLevel next := by
  unfold sideLimit
  rw [if_pos (advanced.slush undecided).symm]
  rfl

/-- Under a node that stays undecided, the polled side stays undecided and dominated. -/
theorem Advanced.hangs {snow next : F.Binary} {pruned : Multiset ID} {reset side : Bool}
    (advanced : Advanced view params snow next pruned.card reset side)
    (undecided : F.binaryFinalized snow = false) (still : ¬ F.binaryFinalized next = true)
    {child : Node F} {pending : Bool} {polled : Polled F} {decidedPrefix : ℕ}
    (law : PollLaw view params child pruned pending polled)
    (hangs : Hangs view child decidedPrefix pending (sideLimit view snow reset side))
    (sound : child.Sound view params pending) :
    Hangs view polled.changed decidedPrefix false (sideLimit view next false side) ∧
      polled.changed.Sound view params false := by
  obtain ⟨stays, childSound, _⟩ := law.hangs hangs sound (advanced.level undecided).ge
    (advanced.level_lt still)
  rw [advanced.sideLimit_eq undecided]
  exact ⟨stays, childSound⟩

/-- A poll with enough votes advances the side voted for. -/
theorem binaryPoll_advanced (positive : 0 < params.beta) {snow : F.Binary}
    (counts : (view.binary snow).Counts params) {count : ℤ}
    (enough : params.alphaPreference ≤ count) (reset side : Bool) :
    Advanced view params snow (F.binaryRecordPoll (if reset then
      F.binaryRecordUnsuccessfulPoll snow else snow) count side) count reset side := by
  obtain ⟨pendingCounts, pendingLevel, pendingSlush, pendingFinalized⟩ :=
    view.binaryPending_counts positive counts reset
  have polled := view.binaryPoll_counts positive pendingCounts enough side
  rw [pendingFinalized, pendingSlush, pendingLevel] at polled
  refine ⟨?_, fun undecided => (polled undecided).2.1, fun undecided => (polled undecided).2.2.1,
    fun undecided => (polled undecided).2.2.2⟩
  cases finalized : F.binaryFinalized snow with
  | false => exact (polled finalized).1
  | true =>
    rw [view.binaryPoll_decided _ count side (pendingFinalized.trans finalized)]
    exact pendingCounts

variable {preference0 preference1 : ID} {bit : ℕ} {snow : F.Binary}
  {shouldReset0 shouldReset1 : Bool} {child0 child1 : Node F} {reset : Bool}

/-- A binary node whose votes do not suffice is reset, and everything below it is to be. -/
theorem binary_unsuccessful_law (positive : 0 < params.beta) (votes : Multiset ID)
    (rooted : (Node.binary preference0 preference1 bit snow shouldReset0 shouldReset1 child0
      child1).Rooted view params reset) :
    let self := Node.binary preference0 preference1 bit (F.binaryRecordUnsuccessfulPoll
      (if reset then F.binaryRecordUnsuccessfulPoll snow else snow)) true true child0 child1
    PollLaw view params
      (.binary preference0 preference1 bit snow shouldReset0 shouldReset1 child0 child1) votes reset
      ⟨self, self, false⟩ := by
  cases rooted.sound with
  | binary counts bounded both ends hangs0 hangs1 below0 below1 =>
  obtain ⟨pendingCounts, _, _, pendingFinalized⟩ := view.binaryPending_counts positive counts reset
  obtain ⟨resetCounts, zero, _, same⟩ := view.binaryReset_counts positive pendingCounts
  refine .cleared rooted rfl rfl (same.trans pendingFinalized) rfl zero
    (.binary resetCounts bounded both ends ?_ ?_ below0.pend below1.pend)
  · intro present
    exact (hangs0 present).pend (sideLimit_nonneg resetCounts false false)
  · intro present
    exact (hangs1 present).pend (sideLimit_nonneg resetCounts false true)

/-- The level of a binary node after a successful poll. -/
theorem Advanced.gained {next : F.Binary} {count : ℤ} {side : Bool} {votes : Multiset ID}
    (advanced : Advanced view params snow next count reset side) (fewer : count ≤ votes.card)
    (sound : (Node.binary preference0 preference1 bit snow shouldReset0 shouldReset1 child0
      child1).Sound view params reset)
    (undecided : F.binaryFinalized snow = false) :
    view.binaryLevel next ≤ gain params votes.card
      ((Node.binary preference0 preference1 bit snow shouldReset0 shouldReset1 child0
        child1).effective view reset) := by
  have nonneg := sound.effective_nonneg reset
  cases sound with
  | binary counts bounded both ends hangs0 hangs1 below0 below1 =>
  rw [advanced.level undecided]
  refine gain_mono params fewer (sideLimit_nonneg counts reset side) ?_
  unfold sideLimit
  split
  · exact Int.le_refl _
  · exact nonneg

/-- A successful poll of a binary node without children. -/
theorem binary_leaf_law {next : F.Binary} {count : ℤ} {side flag0 flag1 : Bool}
    {votes : Multiset ID}
    (rooted : (Node.binary preference0 preference1 bit snow shouldReset0 shouldReset1 child0
      child1).Rooted view params reset)
    (advanced : Advanced view params snow next count reset side) (fewer : count ≤ votes.card)
    (absent0 : child0.isPresent = false) (absent1 : child1.isPresent = false) :
    let self := Node.binary preference0 preference1 bit next flag0 flag1 child0 child1
    PollLaw view params
      (.binary preference0 preference1 bit snow shouldReset0 shouldReset1 child0 child1) votes reset
      ⟨self, self, true⟩ := by
  have gained := fun undecided => advanced.gained fewer rooted.sound undecided
  cases rooted.sound with
  | binary counts bounded both ends hangs0 hangs1 below0 below1 =>
  refine .self rfl rfl ⟨.binary advanced.counts bounded both ends ?_ ?_ (.of_absent absent0 _)
    (.of_absent absent1 _), ?_⟩ gained advanced.decided
  · intro present
    exact absurd (absent0.symm.trans present) Bool.false_ne_true
  · intro present
    exact absurd (absent1.symm.trans present) Bool.false_ne_true
  · intro _
    simp [isLeaf, absent0, absent1]

/-- A binary node records a poll on one side and defers the reset of the other. -/
theorem binary_recordPoll_law (positive : 0 < params.beta) {votes : Multiset ID}
    (rooted : (Node.binary preference0 preference1 bit snow shouldReset0 shouldReset1 child0
      child1).Rooted view params reset)
    (law0 : ∀ votes pending, child0.Rooted view params pending →
      PollLaw view params child0 votes pending (child0.recordPoll params votes pending))
    (law1 : ∀ votes pending, child1.Rooted view params pending →
      PollLaw view params child1 votes pending (child1.recordPoll params votes pending)) :
    PollLaw view params
      (.binary preference0 preference1 bit snow shouldReset0 shouldReset1 child0 child1) votes reset
      ((Node.binary preference0 preference1 bit snow shouldReset0 shouldReset1 child0
        child1).recordPoll params votes reset) := by
  unfold recordPoll
  dsimp only
  generalize decide (params.alphaPreference ≤ ((votes.filter (fun id => id.bit bit = true)).card :
    ℤ)) = side
  have fewer : ((select side (votes.filter (fun id => id.bit bit = false))
      (votes.filter (fun id => id.bit bit = true))).card : ℤ) ≤ votes.card := by
    unfold select
    split
    · exact Int.ofNat_le.mpr (Multiset.card_le_card (Multiset.filter_le _ votes))
    · exact Int.ofNat_le.mpr (Multiset.card_le_card (Multiset.filter_le _ votes))
  generalize select side (votes.filter (fun id => id.bit bit = false))
    (votes.filter (fun id => id.bit bit = true)) = pruned at *
  split
  · exact binary_unsuccessful_law positive votes rooted
  rename_i notLow
  have sound := rooted.sound
  cases sound with
  | binary counts bounded both ends hangs0 hangs1 below0 below1 =>
  have advanced := binaryPoll_advanced positive counts (Int.not_lt.mp notLow) reset side
  have gained := fun undecided => advanced.gained fewer rooted.sound undecided
  have notDecided : child0.isPresent = true → F.binaryFinalized snow = false := by
    intro present
    by_contra finalized
    have noChild := rooted.decided (show F.binaryFinalized snow = true by simpa using finalized)
    simp [isLeaf, present] at noChild
  generalize F.binaryRecordPoll _ _ side = next at *
  have otherLimit : ∀ side, 0 ≤ sideLimit view next false side :=
    sideLimit_nonneg advanced.counts false
  cases side with
  | false =>
    simp only [select, Bool.false_eq_true, if_false]
    split
    · rename_i present0
      have undecided := notDecided present0
      have law := law0 pruned (shouldReset0 || reset) ((hangs0 present0).rooted below0)
      split
      · rename_i finalizes
        exact law.replaced rfl rfl gained finalizes
          (fun before => advanced.decided before finalizes)
      · rename_i still
        obtain ⟨stays, childSound⟩ := advanced.hangs undecided still law (hangs0 present0) below0
        refine .still rfl rfl still (.binary advanced.counts bounded (law.present.trans both) ?_
          (fun _ => stays) ?_ childSound below1.pend) gained
        · intro absent
          exact ends (law.present.symm.trans absent)
        · intro present1
          exact (hangs1 present1).pend (otherLimit true)
    · rename_i absent
      have noChild : child0.isPresent = false := by simpa using absent
      exact binary_leaf_law rooted advanced fewer noChild (both.symm.trans noChild)
  | true =>
    simp only [select, if_true]
    split
    · rename_i present1
      have undecided := notDecided (both.trans present1)
      have law := law1 pruned (shouldReset1 || reset) ((hangs1 present1).rooted below1)
      split
      · rename_i finalizes
        exact law.replaced rfl rfl gained finalizes
          (fun before => advanced.decided before finalizes)
      · rename_i still
        obtain ⟨stays, childSound⟩ := advanced.hangs undecided still law (hangs1 present1) below1
        refine .still rfl rfl still (.binary advanced.counts bounded
          (both.trans law.present.symm) ends ?_ (fun _ => stays) below0.pend childSound) gained
        intro present0
        exact (hangs0 present0).pend (otherLimit false)
    · rename_i absent
      have noChild : child1.isPresent = false := by simpa using absent
      exact binary_leaf_law rooted advanced fewer (both.trans noChild) noChild

/-- The poll of a whole sub-tree. -/
theorem recordPoll_law (positive : 0 < params.beta) (node : Node F) (votes : Multiset ID)
    (reset : Bool) (rooted : node.Rooted view params reset) :
    PollLaw view params node votes reset (node.recordPoll params votes reset) := by
  induction node generalizing votes reset with
  | absent =>
    refine .self rfl rfl ⟨.absent false, fun _ => rfl⟩ (fun _ => ?_) (fun _ impossible => ?_)
    · exact gain_nonneg params _ (rooted.sound.effective_nonneg reset)
    · cases impossible
  | unary preference decidedPrefix commonPrefix snow shouldReset child inductionHypothesis =>
    exact unary_recordPoll_law positive rooted (inductionHypothesis votes _)
  | binary preference0 preference1 bit snow shouldReset0 shouldReset1 child0 child1 first second =>
    exact binary_recordPoll_law positive rooted first second

end Polling

/-- What domination says about the nodes themselves. -/
theorem Sound.subNodes {node : Node F} {pending : Bool} (sound : node.Sound view params pending) :
    (∀ other ∈ node.subNodes, other.WellShaped) ∧
      (node.finalized = false → ∀ other ∈ node.subNodes, other.finalized = false) ∧
      ∀ other ∈ node.subNodes.tail, other.finalized = false := by
  have below : ∀ {child : Node F}, (child.isPresent = true → child.finalized = false) →
      (child.finalized = false → ∀ other ∈ child.subNodes, other.finalized = false) →
      ∀ other ∈ child.subNodes, other.finalized = false := by
    intro child undecided all
    cases child with
    | absent => exact fun _ member => absurd member List.not_mem_nil
    | unary _ _ _ _ _ _ => exact all (undecided rfl)
    | binary _ _ _ _ _ _ _ _ => exact all (undecided rfl)
  induction sound with
  | absent =>
    have none : ∀ other ∈ ([] : List (Node F)), other.finalized = false :=
      fun _ member => absurd member List.not_mem_nil
    exact ⟨fun _ member => absurd member List.not_mem_nil, fun _ => none, none⟩
  | unary counts range bounded ends marked hangs below' inductionHypothesis =>
    obtain ⟨shapes, undecided, _⟩ := inductionHypothesis
    have tail := below (fun present => (hangs present).undecided) undecided
    refine ⟨?_, ?_, tail⟩
    · intro other member
      cases List.mem_cons.mp member with
      | inl root => exact root ▸ ⟨fun present => (hangs present).decidedPrefix, ends⟩
      | inr later => exact shapes other later
    · intro root other member
      cases List.mem_cons.mp member with
      | inl same => exact same ▸ root
      | inr later => exact tail other later
  | @binary _ _ bit _ _ _ child0 child1 _ counts bounded both ends hangs0 hangs1 below0 below1 first
      second =>
    obtain ⟨shapes0, undecided0, _⟩ := first
    obtain ⟨shapes1, undecided1, _⟩ := second
    have tail0 := below (fun present => (hangs0 present).undecided) undecided0
    have tail1 := below (fun present => (hangs1 present).undecided) undecided1
    have tail : ∀ other ∈ child0.subNodes ++ child1.subNodes, other.finalized = false := by
      intro other member
      cases List.mem_append.mp member with
      | inl left => exact tail0 other left
      | inr right => exact tail1 other right
    refine ⟨?_, ?_, tail⟩
    · intro other member
      cases List.mem_cons.mp member with
      | inl root =>
        subst root
        cases present : child0.isPresent with
        | true =>
          have present1 := both.symm.trans present
          exact Or.inl ⟨present, present1, (hangs0 present).decidedPrefix,
            (hangs1 present1).decidedPrefix⟩
        | false => exact Or.inr ⟨present, both.symm.trans present, Nat.succ.inj (ends present)⟩
      | inr later =>
        cases List.mem_append.mp later with
        | inl left => exact shapes0 other left
        | inr right => exact shapes1 other right
    · intro root other member
      cases List.mem_cons.mp member with
      | inl same => exact same ▸ root
      | inr later => exact tail other later

/-- A decided node stays as it is when a choice is added. -/
theorem Rooted.add {node : Node F} {pending : Bool} (positive : 0 < params.beta) (newChoice : ID)
    (rooted : node.Rooted view params pending) :
    (node.add params newChoice).Rooted view params pending := by
  obtain ⟨sound, _, finalized, _⟩ := add_sound positive newChoice rooted.sound
  refine ⟨sound, fun decided => ?_⟩
  have leaf := rooted.decided (finalized.symm.trans decided)
  cases node with
  | absent => rfl
  | unary preference decidedPrefix commonPrefix snow shouldReset child =>
    have before : F.unaryFinalized snow = true := finalized.symm.trans decided
    unfold Node.add
    rw [if_pos before]
    exact leaf
  | binary preference0 preference1 bit snow shouldReset0 shouldReset1 child0 child1 =>
    unfold Node.add
    split
    · simpa only [isLeaf, (add_preference params newChoice child1).2] using leaf
    · simpa only [isLeaf, (add_preference params newChoice child0).2] using leaf

end Node

/-- The two factories. -/
inductive FactoryKind where
  | snowflake
  | snowball

/-- The factory of a kind. -/
def FactoryKind.factory : FactoryKind → Factory
  | .snowflake => snowflakeFactory
  | .snowball => snowballFactory

/-- The snowflakes of its instances. -/
def FactoryKind.view : (kind : FactoryKind) → FlakeView kind.factory
  | .snowflake => snowflakeView
  | .snowball => snowballView

namespace Tree

/-- The tree works with the given parameters, and decisions in it are made from the root. -/
structure Governed (view : FlakeView F) (params : Parameters) (t : Tree F) : Prop where
  configured : t.params = params
  rooted : t.node.Rooted view params t.shouldReset

variable {view : FlakeView F} {params : Parameters}

/-- A new tree has the right shape. -/
theorem newTree_governed (positive : 0 < params.beta) (choice : ID) :
    (newTree params choice : Tree F).Governed view params := by
  refine ⟨rfl, Node.newUnaryNode_sound positive choice (show 0 < numBits by decide) false, ?_⟩
  exact fun _ => rfl

/-- Every call keeps the shape. -/
theorem step_governed (positive : 0 < params.beta) (t : Tree F) (action : TreeAction)
    (governed : t.Governed view params) : (t.step action).Governed view params := by
  obtain ⟨rfl, rooted⟩ := governed
  cases action with
  | add choice =>
    change (t.add choice).Governed view t.params
    unfold add
    split
    · exact ⟨rfl, rooted.add positive choice⟩
    · exact ⟨rfl, rooted⟩
  | recordPoll votes => exact ⟨rfl, (Node.recordPoll_law positive _ _ _ rooted).returned⟩
  | recordUnsuccessfulPoll => exact ⟨rfl, rooted.sound.pend, rooted.decided⟩

/-- In every tree that can be reached, the nodes are well shaped and decide from the root on. -/
theorem always_decidesInOrder (kind : FactoryKind) {params : Parameters}
    (valid : params.verify = none) (choice : ID) (actions : List TreeAction) :
    Runs.Always Tree.step Tree.DecidesInOrder (newTree params choice : Tree kind.factory)
      actions := by
  have positive := Parameters.beta_pos valid
  have always : Runs.Always Tree.step (Governed kind.view params) (newTree params choice) actions :=
    Runs.Along.always Tree.step (Governed kind.view params)
      (fun t action _ => step_governed positive t action)
      (Runs.Along.of_forall Tree.step (newTree params choice) (fun _ _ => trivial))
      (newTree_governed positive choice)
  refine Runs.Always.imp Tree.step ?_ always
  intro t governed
  obtain ⟨shapes, _, undecided⟩ := governed.rooted.sound.subNodes
  exact ⟨shapes, undecided⟩

/-- Two of three votes decide, twice in a row. -/
def twoOfThree : Parameters := ⟨3, 2, 2, 2, 1, 1, 1, 1⟩

/-- The ID with the given first byte and zeros after it. -/
def firstByte (byte : UInt8) : ID := (Vector.replicate 32 0).set 0 byte ID.first_lt

/-- Three choices, and a poll that prefers the last two over the first. -/
def threeChoices : List TreeAction :=
  [.add (firstByte 1), .add (firstByte 5),
    .recordPoll {firstByte 1, firstByte 5, firstByte 1}, .recordUnsuccessfulPoll]

/-- The tree of the three choices has six nodes: two binary ones, the bit between them and the
rests of the three IDs. -/
theorem threeChoices_decidesInOrder :
    (Runs.run Tree.step (newTree twoOfThree (firstByte 0) : Tree FactoryKind.snowball.factory)
      threeChoices).node.subNodes.length = 6 ∧
      Runs.Always Tree.step Tree.DecidesInOrder
        (newTree twoOfThree (firstByte 0) : Tree FactoryKind.snowball.factory) threeChoices := by
  refine ⟨by decide +kernel, always_decidesInOrder .snowball ?_ (firstByte 0) threeChoices⟩
  decide

end Tree

end AvalancheParallel.Snowball
