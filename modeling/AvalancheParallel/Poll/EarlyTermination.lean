import AvalancheParallel.Foundation.Runs
import AvalancheParallel.Poll.Prefixes
import AvalancheParallel.Poll.TransitiveVotes

/-!
# Polls that end before all validators have answered

`earlyTermPoll` of `default/snow/consensus/snowman/poll/early_term_traversal.go`. A poll
collects the votes of a bag of validators. It ends early when the validators that remain
cannot change the outcome for any block or prefix that has votes. Bags are multisets.

What a poll decides is, for each block and for each group of siblings with a common
prefix, whether its votes are below the preference threshold, reach the confidence
threshold or are in between. The groups the poll looks at are those of the blocks in its
graph; a group without a vote cannot reach a majority with the votes that remain, and a
group with one voted member has the votes of that member.
-/

namespace AvalancheParallel.Poll

open AvalancheParallel.Ids AvalancheParallel.RangeLoop AvalancheParallel.FiniteDag
  AvalancheParallel.Forest AvalancheParallel.Runs

/-- `ids.NodeID`. -/
abbrev NodeID := ShortID

/-- `earlyTermPoll`. -/
structure EarlyTermPoll where
  votes : Multiset ID
  polled : Multiset NodeID
  alphaPreference : ℤ
  alphaConfidence : ℤ
  bt : BlockTraversal
  finished : Bool

/-- `earlyTermTraversalFactory.New`. -/
def newPoll (bt : BlockTraversal) (alphaPreference alphaConfidence : ℤ) (vdrs : Multiset NodeID) :
    EarlyTermPoll :=
  ⟨0, vdrs, alphaPreference, alphaConfidence, bt, false⟩

/-- `sumVotesFromIDs`. -/
def sumVotesFromIDs (ids : List ID) (transitiveVotes : Multiset ID) : ℤ :=
  (ids.map (fun id => (transitiveVotes.count id : ℤ))).sum

/-- `computeTransitiveVotesForPrefixes`. The references of a vertex to its descendants are
their identifiers. -/
def computeTransitiveVotesForPrefixes (votesGraph : VoteGraph) (transitiveVotes : Multiset ID) :
    List ℤ :=
  votesGraph.traverse.flatMap (fun v =>
    (longestSharedPrefixes v.descendants).bifurcationsWithCommonPrefix.map
      (fun ids => sumVotesFromIDs ids transitiveVotes))

/-- `aggregateVotesFromPrefixesAndIDs`. -/
def aggregateVotesFromPrefixesAndIDs (order : IterationOrder ID)
    (transitiveVotesForPrefixes : List ℤ) (transitiveVotes : Multiset ID) : List ℤ :=
  (order.arrange transitiveVotes.toFinset).map (fun id => (transitiveVotes.count id : ℤ)) ++
    transitiveVotesForPrefixes

namespace EarlyTermPoll

/-- `Vote`. -/
def vote (p : EarlyTermPoll) (vdr : NodeID) (vote : ID) : EarlyTermPoll :=
  { p with
    polled := p.polled.filter (fun other => other ≠ vdr)
    votes := p.votes + Multiset.replicate (p.polled.count vdr) vote }

/-- `Drop`. -/
def drop (p : EarlyTermPoll) (vdr : NodeID) : EarlyTermPoll :=
  { p with polled := p.polled.filter (fun other => other ≠ vdr) }

/-- `shouldTerminate`. -/
def shouldTerminate (p : EarlyTermPoll) (freq remaining : ℤ) : Bool :=
  decide (freq + remaining < p.alphaPreference) ||
    (decide (p.alphaPreference ≤ freq) && decide (freq + remaining < p.alphaConfidence)) ||
    decide (p.alphaConfidence ≤ freq)

/-- The votes for blocks and prefixes that `Finished` checks. -/
def voteCountsForIDsOrPrefixes (orders : PollOrders) (p : EarlyTermPoll) : List ℤ :=
  let votesGraph := buildVoteGraph p.bt.getParent orders p.votes
  let transitiveVotes := computeTransitiveVoteCountGraph votesGraph p.votes
  let transitiveVotesForPrefixes := computeTransitiveVotesForPrefixes votesGraph transitiveVotes
  aggregateVotesFromPrefixesAndIDs orders.transitiveVotes transitiveVotesForPrefixes transitiveVotes

/-- `Finished`. -/
def isFinished (orders : PollOrders) (p : EarlyTermPoll) : EarlyTermPoll × Bool :=
  if p.finished then (p, true)
  else
    let remaining : ℤ := p.polled.card
    if remaining = 0 then ({ p with finished := true }, true)
    else
      let received : ℤ := p.votes.card
      if received + remaining < p.alphaPreference then ({ p with finished := true }, true)
      else
        let voteCounts := p.voteCountsForIDsOrPrefixes orders
        if !voteCounts.isEmpty && voteCounts.all (fun count => p.shouldTerminate count remaining)
        then ({ p with finished := true }, true)
        else (p, false)

end EarlyTermPoll

/-- The calls of a poll. -/
inductive PollCall where
  | vote (vdr : NodeID) (vote : ID)
  | drop (vdr : NodeID)
  | finished (orders : PollOrders)

def EarlyTermPoll.step (p : EarlyTermPoll) : PollCall → EarlyTermPoll
  | .vote vdr vote => p.vote vdr vote
  | .drop vdr => p.drop vdr
  | .finished orders => (p.isFinished orders).1

section Outcome

/-- What a number of votes means for an instance of the protocol. -/
inductive VoteClass where
  | belowPreference
  | betweenThresholds
  | atLeastConfidence
deriving DecidableEq

def voteClass (alphaPreference alphaConfidence count : ℤ) : VoteClass :=
  if count < alphaPreference then .belowPreference
  else if count < alphaConfidence then .betweenThresholds
  else .atLeastConfidence

/-- The votes for the siblings below a block that have a prefix, and for their
descendants. -/
noncomputable def prefixTotal (bt : BlockTraversal) (votes : Multiset ID) (front : List Bool)
    (block : ID) : ℕ :=
  groupTotal bt.getParent votes (fun child => front <+: child.bits) block

/-- Two bags of votes have the same meaning for every block and every prefix of siblings. -/
structure SameOutcome (bt : BlockTraversal) (alphaPreference alphaConfidence : ℤ)
    (early complete : Multiset ID) : Prop where
  block : ∀ id, voteClass alphaPreference alphaConfidence (total bt.getParent early id) =
    voteClass alphaPreference alphaConfidence (total bt.getParent complete id)
  siblings : ∀ block front, front ≠ [] →
    voteClass alphaPreference alphaConfidence (prefixTotal bt early front block) =
      voteClass alphaPreference alphaConfidence (prefixTotal bt complete front block)

variable {bt : BlockTraversal} {alphaPreference alphaConfidence : ℤ}

/-- Votes have their own outcome. -/
theorem SameOutcome.refl (votes : Multiset ID) :
    SameOutcome bt alphaPreference alphaConfidence votes votes :=
  ⟨fun _ => rfl, fun _ _ _ => rfl⟩

/-- Having the same outcome is symmetric. -/
theorem SameOutcome.symm {first second : Multiset ID}
    (same : SameOutcome bt alphaPreference alphaConfidence first second) :
    SameOutcome bt alphaPreference alphaConfidence second first :=
  ⟨fun id => (same.block id).symm,
    fun block front nonempty => (same.siblings block front nonempty).symm⟩

/-- Having the same outcome is transitive. -/
theorem SameOutcome.trans {first second third : Multiset ID}
    (one : SameOutcome bt alphaPreference alphaConfidence first second)
    (two : SameOutcome bt alphaPreference alphaConfidence second third) :
    SameOutcome bt alphaPreference alphaConfidence first third :=
  ⟨fun id => (one.block id).trans (two.block id),
    fun block front nonempty =>
      (one.siblings block front nonempty).trans (two.siblings block front nonempty)⟩

/-- More votes change each count by at most their number, so it is enough that such changes
keep the class of each count. -/
theorem SameOutcome.of_counts {votes more : Multiset ID}
    (block : ∀ id extra, extra ≤ more.card →
      voteClass alphaPreference alphaConfidence (total bt.getParent votes id) =
        voteClass alphaPreference alphaConfidence ((total bt.getParent votes id + extra : ℕ) : ℤ))
    (siblings : ∀ block front extra, front ≠ [] → extra ≤ more.card →
      voteClass alphaPreference alphaConfidence (prefixTotal bt votes front block) =
        voteClass alphaPreference alphaConfidence
          ((prefixTotal bt votes front block + extra : ℕ) : ℤ)) :
    SameOutcome bt alphaPreference alphaConfidence votes (votes + more) := by
  refine ⟨?_, ?_⟩
  · intro id
    rw [total_add]
    exact block id _ (total_le more id)
  · intro node front nonempty
    rw [prefixTotal, prefixTotal, groupTotal_add]
    exact siblings node front _ nonempty (groupTotal_le more _ node)

end Outcome

section Coverage

variable {bt : BlockTraversal} {nodes : Finset ID} {graph : VoteGraph} {votes : Multiset ID}

/-- The votes for the members of a list are the sum of their totals. -/
theorem Represents.sumVotesFromIDs_eq (represents : Represents bt.getParent nodes graph)
    (inside : ∀ vote ∈ votes, vote ∈ nodes) (ids : List ID) :
    sumVotesFromIDs ids (computeTransitiveVoteCountGraph graph votes) =
      ((ids.map (total bt.getParent votes)).sum : ℕ) := by
  induction ids with
  | nil => rfl
  | cons id rest inductionHypothesis =>
    have own := represents.count_transitiveVotes bt.acyclic inside id
    simp only [sumVotesFromIDs, List.map_cons, List.sum_cons, Nat.cast_add] at inductionHypothesis ⊢
    rw [inductionHypothesis, own]

/-- A block with votes for it or its descendants is checked. -/
theorem Represents.total_mem_aggregate (represents : Represents bt.getParent nodes graph)
    (inside : ∀ vote ∈ votes, vote ∈ nodes) (order : IterationOrder ID) (forPrefixes : List ℤ)
    {id : ID} (voted : total bt.getParent votes id ≠ 0) :
    (total bt.getParent votes id : ℤ) ∈ aggregateVotesFromPrefixesAndIDs order forPrefixes
      (computeTransitiveVoteCountGraph graph votes) := by
  have counted := represents.count_transitiveVotes bt.acyclic inside id
  refine List.mem_append_left _ (List.mem_map.mpr ⟨id, ?_, by rw [counted]⟩)
  rw [order.mem_arrange, Multiset.mem_toFinset, ← Multiset.count_pos, counted]
  exact Nat.pos_of_ne_zero voted

/-- A prefix that several children of a block in the graph have is checked. -/
theorem Represents.sum_mem_prefixes (represents : Represents bt.getParent nodes graph)
    (transitiveVotes : Multiset ID) {block : ID} (there : block ∈ nodes) {v : VoteVertex}
    (stored : graph.vertices.lookup block = some v) (distinct : v.descendants.Nodup) {length : ℕ}
    (positive : 0 < length) (model : ID)
    (several : 1 < (v.descendants.filter (agrees length model)).length) :
    sumVotesFromIDs (v.descendants.filter (agrees length model)) transitiveVotes ∈
      computeTransitiveVotesForPrefixes graph transitiveVotes :=
  List.mem_flatMap.mpr ⟨v, represents.mem_traverse bt.acyclic there stored,
    List.mem_map_of_mem (longestSharedPrefixes_law distinct positive model several)⟩

/-- The votes for a group of siblings with a common prefix are none, those of one member, or
they are checked. -/
theorem Represents.prefixTotal_covered (represents : Represents bt.getParent nodes graph)
    (inside : ∀ vote ∈ votes, vote ∈ nodes) (order : IterationOrder ID) (block : ID)
    {front : List Bool} (nonempty : front ≠ []) :
    prefixTotal bt votes front block = 0 ∨
      (prefixTotal bt votes front block : ℤ) ∈ aggregateVotesFromPrefixesAndIDs order
        (computeTransitiveVotesForPrefixes graph (computeTransitiveVoteCountGraph graph votes))
        (computeTransitiveVoteCountGraph graph votes) := by
  have summed := groupTotal_eq_sum bt.acyclic represents.closed inside
    (fun child => front <+: child.bits) block
  by_cases member : ∃ child ∈ nodes, bt.getParent child = some block ∧ front <+: child.bits
  · obtain ⟨model, modelInside, step, fits⟩ := member
    have there : block ∈ nodes := represents.closed model modelInside block step
    obtain ⟨v, stored, _, _, distinct, children⟩ := represents.stored block there
    let members := v.descendants.filter (agrees front.length model)
    have same : nodes.filter (fun child => bt.getParent child = some block ∧
        front <+: child.bits) = members.toFinset := by
      ext child
      rw [Finset.mem_filter, List.mem_toFinset, List.mem_filter, children child,
        isPrefix_bits_iff fits child, and_assoc]
    have sum : prefixTotal bt votes front block = (members.map (total bt.getParent votes)).sum := by
      rw [prefixTotal, summed, same, List.sum_toFinset _ (distinct.filter _)]
    by_cases several : 1 < members.length
    · right
      have checked := represents.sum_mem_prefixes (computeTransitiveVoteCountGraph graph votes)
        there stored distinct (List.length_pos_iff.mpr nonempty) model several
      rw [represents.sumVotesFromIDs_eq inside, ← sum] at checked
      exact List.mem_append_right _ checked
    · have listed : model ∈ members := by
        refine List.mem_filter.mpr ⟨(children model).mpr ⟨modelInside, step⟩, ?_⟩
        exact (isPrefix_bits_iff fits model).mp fits
      have single : members = [model] := by
        cases split : members with
        | nil => simp [split] at listed
        | cons first rest =>
          cases rest with
          | nil =>
            rw [split] at listed
            rw [List.mem_singleton.mp listed]
          | cons second others => simp [split] at several
      rw [single, List.map_singleton, List.sum_singleton] at sum
      rw [sum]
      by_cases voted : total bt.getParent votes model = 0
      · exact Or.inl voted
      · exact Or.inr (represents.total_mem_aggregate inside order _ voted)
  · left
    rw [prefixTotal, summed]
    refine Finset.sum_eq_zero ?_
    intro child listed
    obtain ⟨childInside, step, fits⟩ := Finset.mem_filter.mp listed
    exact absurd ⟨child, childInside, step, fits⟩ member

/-- Without votes, nothing that is checked has any. -/
theorem Represents.aggregate_zero (represents : Represents bt.getParent nodes graph)
    (order : IterationOrder ID) {count : ℤ}
    (checked : count ∈ aggregateVotesFromPrefixesAndIDs order
      (computeTransitiveVotesForPrefixes graph (computeTransitiveVoteCountGraph graph 0))
      (computeTransitiveVoteCountGraph graph 0)) : count = 0 := by
  have none : ∀ vote ∈ (0 : Multiset ID), vote ∈ nodes :=
    fun vote voted => absurd voted (Multiset.notMem_zero vote)
  have zero : ∀ id, total bt.getParent 0 id = 0 := by
    intro id
    have bound : total bt.getParent 0 id ≤ 0 := total_le 0 id
    exact Nat.le_zero.mp bound
  cases List.mem_append.mp checked with
  | inl ofBlock =>
    obtain ⟨id, _, rfl⟩ := List.mem_map.mp ofBlock
    rw [represents.count_transitiveVotes bt.acyclic none, zero, Nat.cast_zero]
  | inr ofPrefix =>
    obtain ⟨v, _, listed⟩ := List.mem_flatMap.mp ofPrefix
    obtain ⟨ids, _, rfl⟩ := List.mem_map.mp listed
    rw [represents.sumVotesFromIDs_eq none]
    have sum : (ids.map (total bt.getParent 0)).sum = 0 := by
      refine List.sum_eq_zero ?_
      intro value member
      obtain ⟨id, _, rfl⟩ := List.mem_map.mp member
      exact zero id
    rw [sum, Nat.cast_zero]

end Coverage

namespace EarlyTermPoll

variable {p : EarlyTermPoll}

/-- The validators that remain do not change the outcome, whatever they vote. -/
def Settled (p : EarlyTermPoll) : Prop :=
  ∀ more : Multiset ID, more.card ≤ p.polled.card →
    SameOutcome p.bt p.alphaPreference p.alphaConfidence p.votes (p.votes + more)

/-- What holds of a poll of which more than half is needed for a preference. -/
structure Governed (p : EarlyTermPoll) : Prop where
  ordered : p.alphaPreference ≤ p.alphaConfidence
  majority : (p.votes.card + p.polled.card : ℤ) < 2 * p.alphaPreference
  settled : p.finished = true → p.Settled

/-- Where the check says that a count should terminate, the remaining votes keep its class. -/
theorem voteClass_eq_of_shouldTerminate (ordered : p.alphaPreference ≤ p.alphaConfidence)
    {freq remaining : ℤ} (terminates : p.shouldTerminate freq remaining = true) {extra : ℤ}
    (added : 0 ≤ extra) (bounded : extra ≤ remaining) :
    voteClass p.alphaPreference p.alphaConfidence freq =
      voteClass p.alphaPreference p.alphaConfidence (freq + extra) := by
  simp only [shouldTerminate, Bool.or_eq_true, Bool.and_eq_true, decide_eq_true_eq] at terminates
  unfold voteClass
  obtain (fails | ⟨reached, limited⟩) | confident := terminates
  · rw [if_pos (by omega), if_pos (by omega)]
  · rw [if_neg (by omega), if_pos (by omega), if_neg (by omega), if_pos (by omega)]
  · rw [if_neg (by omega), if_neg (by omega), if_neg (by omega), if_neg (by omega)]

/-- Numbers below the lower threshold have the same effect. -/
theorem voteClass_eq_of_lt {low high : ℤ} (below : low < p.alphaPreference)
    (alsoBelow : high < p.alphaPreference) :
    voteClass p.alphaPreference p.alphaConfidence low =
      voteClass p.alphaPreference p.alphaConfidence high := by
  rw [voteClass, voteClass, if_pos below, if_pos alsoBelow]

/-- The check passes only when the remaining validators are too few for a preference. -/
theorem Governed.remaining_lt (governed : p.Governed) (orders : PollOrders)
    (nonempty : p.voteCountsForIDsOrPrefixes orders ≠ [])
    (checked : ∀ count ∈ p.voteCountsForIDsOrPrefixes orders,
      p.shouldTerminate count p.polled.card = true) :
    (p.polled.card : ℤ) < p.alphaPreference := by
  have few : ∀ count : ℕ, (count : ℤ) ∈ p.voteCountsForIDsOrPrefixes orders →
      count ≤ p.votes.card → (p.polled.card : ℤ) < p.alphaPreference := by
    intro count listed small
    have terminates := checked count listed
    have majority := governed.majority
    have ordered := governed.ordered
    simp only [shouldTerminate, Bool.or_eq_true, Bool.and_eq_true, decide_eq_true_eq] at terminates
    omega
  obtain ⟨nodes, inside, represents⟩ := @buildVoteGraph_represents p.bt.getParent orders p.votes
  by_cases none : p.votes = 0
  · obtain ⟨count, listed⟩ := List.exists_mem_of_ne_nil _ nonempty
    have zero : count = (0 : ℕ) := by
      simp only [voteCountsForIDsOrPrefixes, none] at listed
      rw [none] at represents
      exact represents.aggregate_zero orders.transitiveVotes listed
    rw [zero] at listed
    exact few 0 listed (Nat.zero_le _)
  · obtain ⟨vote, voted⟩ := Multiset.exists_mem_of_ne_zero none
    refine few _ (represents.total_mem_aggregate inside orders.transitiveVotes _
      (total_ne_zero voted)) (total_le p.votes vote)

/-- When the check passes the poll is settled. -/
theorem Governed.settled_of_checked (governed : p.Governed) (orders : PollOrders)
    (nonempty : p.voteCountsForIDsOrPrefixes orders ≠ [])
    (checked : ∀ count ∈ p.voteCountsForIDsOrPrefixes orders,
      p.shouldTerminate count p.polled.card = true) : p.Settled := by
  have few := governed.remaining_lt orders nonempty checked
  obtain ⟨nodes, inside, represents⟩ := @buildVoteGraph_represents p.bt.getParent orders p.votes
  -- a count without votes stays below, and any other count was checked
  have kept : ∀ count extra : ℕ, extra ≤ p.polled.card →
      count = 0 ∨ (count : ℤ) ∈ p.voteCountsForIDsOrPrefixes orders →
      voteClass p.alphaPreference p.alphaConfidence count =
        voteClass p.alphaPreference p.alphaConfidence ((count + extra : ℕ) : ℤ) := by
    intro count extra bounded covered
    rw [Nat.cast_add]
    cases covered with
    | inl zero => exact voteClass_eq_of_lt (by omega) (by omega)
    | inr listed =>
      exact voteClass_eq_of_shouldTerminate governed.ordered (checked count listed)
        (Int.natCast_nonneg extra) (by omega)
  intro more bounded
  refine SameOutcome.of_counts ?_ ?_
  · intro id extra added
    refine kept _ extra (added.trans bounded) ?_
    by_cases voted : total p.bt.getParent p.votes id = 0
    · exact Or.inl voted
    · exact Or.inr (represents.total_mem_aggregate inside orders.transitiveVotes _ voted)
  · intro block front extra nonempty added
    exact kept _ extra (added.trans bounded)
      (represents.prefixTotal_covered inside orders.transitiveVotes block nonempty)

/-- A poll that reports to be finished is settled. -/
theorem Governed.settled_of_isFinished (governed : p.Governed) (orders : PollOrders)
    (finished : (p.isFinished orders).2 = true) : p.Settled := by
  unfold isFinished at finished
  split at finished
  · rename_i flag
    exact governed.settled flag
  dsimp only at finished
  split at finished
  · rename_i nobody
    intro more bounded
    have empty : more = 0 := Multiset.card_eq_zero.mp (by omega)
    rw [empty, add_zero]
    exact SameOutcome.refl p.votes
  split at finished
  · rename_i hopeless
    intro more bounded
    refine SameOutcome.of_counts ?_ ?_
    · intro id extra added
      have small : total p.bt.getParent p.votes id ≤ p.votes.card := total_le p.votes id
      exact voteClass_eq_of_lt (by omega) (by omega)
    · intro block front extra _ added
      have small : prefixTotal p.bt p.votes front block ≤ p.votes.card := groupTotal_le p.votes _ _
      exact voteClass_eq_of_lt (by omega) (by omega)
  split at finished
  · rename_i passed
    simp only [Bool.and_eq_true, Bool.not_eq_true', List.isEmpty_eq_false_iff,
      List.all_eq_true] at passed
    exact governed.settled_of_checked orders passed.1 passed.2
  · cases finished

/-- The poll has received more votes, from validators that no longer remain. -/
structure Extends (p q : EarlyTermPoll) : Prop where
  bt : q.bt = p.bt
  alphaPreference : q.alphaPreference = p.alphaPreference
  alphaConfidence : q.alphaConfidence = p.alphaConfidence
  votes : ∃ more, q.votes = p.votes + more ∧ more.card + q.polled.card ≤ p.polled.card

/-- Nothing is received without a step. -/
theorem Extends.refl (p : EarlyTermPoll) : Extends p p :=
  ⟨rfl, rfl, rfl, 0, by simp⟩

/-- Two steps that only receive votes, one after the other. -/
theorem Extends.trans {first second third : EarlyTermPoll} (one : Extends first second)
    (two : Extends second third) : Extends first third := by
  obtain ⟨some, got, left⟩ := one.votes
  obtain ⟨more, gotMore, leftThen⟩ := two.votes
  refine ⟨two.bt.trans one.bt, two.alphaPreference.trans one.alphaPreference,
    two.alphaConfidence.trans one.alphaConfidence, some + more, ?_, ?_⟩
  · rw [gotMore, got, add_assoc]
  · rw [Multiset.card_add]
    omega

/-- Removing a validator removes as many as it stands for. -/
theorem card_remove (polled : Multiset NodeID) (vdr : NodeID) :
    polled.count vdr + (polled.filter (fun other => other ≠ vdr)).card = polled.card := by
  have parts := congrArg Multiset.card (Multiset.filter_add_not (fun other => other = vdr) polled)
  rw [Multiset.card_add, Multiset.filter_eq', Multiset.card_replicate] at parts
  exact parts

/-- `Finished` records its answer and changes nothing else. -/
theorem isFinished_fst (p : EarlyTermPoll) (orders : PollOrders) :
    (p.isFinished orders).1 = { p with finished := (p.isFinished orders).2 } := by
  obtain ⟨votes, polled, alphaPreference, alphaConfidence, bt, finished⟩ := p
  unfold isFinished
  cases finished with
  | true => rfl
  | false =>
    simp only [Bool.false_eq_true, if_false]
    split
    · rfl
    · split
      · rfl
      · split <;> rfl

/-- Every call only adds votes. -/
theorem extends_step (p : EarlyTermPoll) (call : PollCall) : Extends p (p.step call) := by
  cases call with
  | vote vdr id =>
    refine ⟨rfl, rfl, rfl, Multiset.replicate (p.polled.count vdr) id, rfl, ?_⟩
    rw [Multiset.card_replicate]
    exact Nat.le_of_eq (card_remove p.polled vdr)
  | drop vdr =>
    refine ⟨rfl, rfl, rfl, 0, (add_zero _).symm, ?_⟩
    rw [Multiset.card_zero, Nat.zero_add]
    exact Multiset.card_le_card (Multiset.filter_le _ _)
  | finished orders =>
    change Extends p (p.isFinished orders).1
    rw [isFinished_fst]
    exact ⟨rfl, rfl, rfl, 0, by simp⟩

/-- A settled poll stays settled. -/
theorem Settled.later {q : EarlyTermPoll} (settled : p.Settled) (later : Extends p q) :
    q.Settled := by
  obtain ⟨more, received, left⟩ := later.votes
  intro further bounded
  have received_same := settled more (by omega)
  have all_same := settled (more + further) (by rw [Multiset.card_add]; omega)
  rw [later.bt, later.alphaPreference, later.alphaConfidence, received, add_assoc]
  exact received_same.symm.trans all_same

/-- Every sequence of calls only adds votes. -/
theorem extends_run (p : EarlyTermPoll) (calls : List PollCall) : Extends p (run step p calls) :=
  run_invariant step (Extends p) (fun state call earlier => earlier.trans (extends_step state call))
    p calls (Extends.refl p)

/-- Every call keeps the counts in order. -/
theorem Governed.step (governed : p.Governed) (call : PollCall) : (p.step call).Governed := by
  have later := extends_step p call
  obtain ⟨more, received, left⟩ := later.votes
  refine ⟨?_, ?_, ?_⟩
  · rw [later.alphaPreference, later.alphaConfidence]
    exact governed.ordered
  · have majority := governed.majority
    rw [later.alphaPreference, received, Multiset.card_add]
    omega
  · intro flag
    refine Settled.later ?_ later
    cases call with
    | vote vdr id => exact governed.settled flag
    | drop vdr => exact governed.settled flag
    | finished orders =>
      change (p.isFinished orders).1.finished = true at flag
      rw [isFinished_fst] at flag
      exact governed.settled_of_isFinished orders flag

/-- When a poll reports to be finished, the votes it has so far have, for every block and for
every group of siblings with a common prefix, the same meaning as the votes after any further
calls. -/
theorem finished_sameOutcome (bt : BlockTraversal) (alphaPreference alphaConfidence : ℤ)
    (vdrs : Multiset NodeID) (majority : (vdrs.card : ℤ) / 2 < alphaPreference)
    (ordered : alphaPreference ≤ alphaConfidence) (calls : List PollCall) (orders : PollOrders)
    (finished : ((run step (newPoll bt alphaPreference alphaConfidence vdrs) calls).isFinished
      orders).2 = true) (later : List PollCall) :
    let early := ((run step (newPoll bt alphaPreference alphaConfidence vdrs) calls).isFinished
      orders).1
    SameOutcome bt alphaPreference alphaConfidence early.votes (run step early later).votes := by
  have start : (newPoll bt alphaPreference alphaConfidence vdrs).Governed := by
    refine ⟨ordered, ?_, fun flag => by cases flag⟩
    simp only [newPoll, Multiset.card_zero]
    omega
  let reached := run step (newPoll bt alphaPreference alphaConfidence vdrs) calls
  have governed : reached.Governed :=
    run_invariant step Governed (fun _ call state => state.step call) _ calls start
  have fixed : Extends (newPoll bt alphaPreference alphaConfidence vdrs)
      (reached.isFinished orders).1 :=
    (extends_run _ calls).trans (extends_step reached (.finished orders))
  have settled : (reached.isFinished orders).1.Settled :=
    (governed.settled_of_isFinished orders finished).later (extends_step reached (.finished orders))
  obtain ⟨more, received, left⟩ := (extends_run (reached.isFinished orders).1 later).votes
  have same := settled more (by omega)
  rw [← received, fixed.bt, fixed.alphaPreference, fixed.alphaConfidence] at same
  exact same

/-- The block with the given first byte, and zeros after it. -/
def numberedBlock (byte : UInt8) : ID := (Vector.replicate 32 0).set 0 byte ID.first_lt

/-- The validator with the given first byte, and zeros after it. -/
def numberedNode (byte : UInt8) : NodeID := (Vector.replicate 20 0).set 0 byte

/-- Two children of one block, which begin with the same bit. -/
def twoSiblings (id : ID) : Option ID :=
  if id = numberedBlock 2 ∨ id = numberedBlock 6 then some (numberedBlock 1) else none

/-- Two siblings are on no cycle. -/
theorem twoSiblings_acyclic : Acyclic (ChildOf twoSiblings) := by
  have parent : ∀ child above, ChildOf twoSiblings child above → above = numberedBlock 1 := by
    intro child above step
    unfold ChildOf twoSiblings at step
    split at step
    · exact (Option.some.inj step).symm
    · cases step
  intro id cycle
  obtain ⟨last, _, reached⟩ := Relation.TransGen.tail'_iff.mp cycle
  obtain ⟨next, left, _⟩ := Relation.TransGen.head'_iff.mp cycle
  rw [parent last id reached] at left
  have root : twoSiblings (numberedBlock 1) = none := by decide
  exact absurd (root.symm.trans left) (by simp)

/-- Visit identifiers in the order of the numbers they denote. -/
def numberedOrders : PollOrders := ⟨byValue 32, byValue 32, byValue 32, byValue 32⟩

/-- Of five validators, three are one node, which votes for one sibling, and another votes for
the other sibling. -/
def fourVotes : List PollCall :=
  [.vote (numberedNode 1) (numberedBlock 2), .finished numberedOrders,
    .vote (numberedNode 2) (numberedBlock 6)]

/-- The poll is finished while a validator remains, and the vote of this validator does not
change its outcome. -/
theorem fourVotes_sameOutcome :
    let vdrs := Multiset.replicate 3 (numberedNode 1) + {numberedNode 2, numberedNode 3}
    let early := (run step (newPoll ⟨twoSiblings, twoSiblings_acyclic⟩ 3 3 vdrs)
      fourVotes).isFinished numberedOrders
    early.1.polled.card = 1 ∧ SameOutcome ⟨twoSiblings, twoSiblings_acyclic⟩ 3 3 early.1.votes
      (run step early.1 [.vote (numberedNode 3) (numberedBlock 6)]).votes := by
  refine ⟨by decide +kernel, finished_sameOutcome _ 3 3 _ (by decide) (by decide) fourVotes
    numberedOrders (by decide +kernel) _⟩

end EarlyTermPoll

end AvalancheParallel.Poll
