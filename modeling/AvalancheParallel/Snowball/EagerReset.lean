import AvalancheParallel.Snowball.TreeShape

/-!
# Resets may be postponed

The comment on `Tree.shouldReset` calls it an optimization. The eager tree does without
it: in every poll each node gets its share of the votes, and every node whose share does
not reach the threshold is reset at once. The lazy tree becomes the eager one when all
pending resets are done; this relation is kept by every call, and neither the preference
nor the decision of a node depends on pending resets.
-/

namespace AvalancheParallel.Snowball

open AvalancheParallel.Ids

variable {F : Factory}

namespace Node

/-- Reset every node of a sub-tree. -/
def resetAll : Node F → Node F
  | .absent => .absent
  | .unary preference decidedPrefix commonPrefix snow shouldReset child =>
    .unary preference decidedPrefix commonPrefix (F.unaryRecordUnsuccessfulPoll snow) shouldReset
      child.resetAll
  | .binary preference0 preference1 bit snow shouldReset0 shouldReset1 child0 child1 =>
    .binary preference0 preference1 bit (F.binaryRecordUnsuccessfulPoll snow) shouldReset0
      shouldReset1 child0.resetAll child1.resetAll

/-- The eager poll: every node is visited with the votes for it, and is reset if they are fewer
than `AlphaPreference`. The flags are not used. -/
def eagerPoll (params : Parameters) : Node F → Multiset ID → Polled F
  | .absent, _ => ⟨.absent, .absent, false⟩
  | .unary preference decidedPrefix commonPrefix snow shouldReset child, votes =>
    let polled := child.eagerPoll params votes
    if (votes.card : ℤ) < params.alphaPreference then
      let self := .unary preference decidedPrefix commonPrefix
        (F.unaryRecordUnsuccessfulPoll snow) shouldReset polled.changed
      ⟨self, self, false⟩
    else
      let snow := F.unaryRecordPoll snow votes.card
      if child.isPresent then
        if F.unaryFinalized snow then
          ⟨.unary preference decidedPrefix commonPrefix snow shouldReset polled.changed,
            polled.returned, true⟩
        else
          let self := .unary polled.changed.preference decidedPrefix commonPrefix snow shouldReset
            polled.changed
          ⟨self, self, true⟩
      else
        let self := .unary preference decidedPrefix commonPrefix snow shouldReset child
        ⟨self, self, true⟩
  | .binary preference0 preference1 bit snow shouldReset0 shouldReset1 child0 child1, votes =>
    let ones := votes.filter (fun id => id.bit bit = true)
    let zeros := votes.filter (fun id => id.bit bit = false)
    let side := decide (params.alphaPreference ≤ (ones.card : ℤ))
    let pruned := select side zeros ones
    let polled0 := child0.eagerPoll params zeros
    let polled1 := child1.eagerPoll params ones
    if (pruned.card : ℤ) < params.alphaPreference then
      let self := .binary preference0 preference1 bit (F.binaryRecordUnsuccessfulPoll snow)
        shouldReset0 shouldReset1 polled0.changed polled1.changed
      ⟨self, self, false⟩
    else
      let snow := F.binaryRecordPoll snow pruned.card side
      let polled := select side polled0 polled1
      if (select side child0 child1).isPresent then
        if F.binaryFinalized snow then
          ⟨.binary preference0 preference1 bit snow shouldReset0 shouldReset1 polled0.changed
            polled1.changed, polled.returned, true⟩
        else
          let self := .binary (select side polled.returned.preference preference0)
            (select side preference1 polled.returned.preference) bit snow shouldReset0 shouldReset1
            polled0.changed polled1.changed
          ⟨self, self, true⟩
      else
        let self := .binary preference0 preference1 bit snow shouldReset0 shouldReset1 child0 child1
        ⟨self, self, true⟩

end Node

namespace Tree

/-- `RecordPoll` of the eager tree. -/
def eagerRecordPoll (votes : Multiset ID) (t : Tree F) : Tree F × Bool :=
  let filtered := votes.filter (fun id => equalSubset 0 t.node.decidedPrefix t.preference id)
  let polled := t.node.eagerPoll t.params filtered
  ({ t with node := polled.returned }, polled.successful)

/-- `RecordUnsuccessfulPoll` of the eager tree. -/
def eagerRecordUnsuccessfulPoll (t : Tree F) : Tree F := { t with node := t.node.resetAll }

/-- One call of the lazy tree, with the result of `RecordPoll`. -/
def call (t : Tree F) : TreeAction → Tree F × Option Bool
  | .add choice => (t.add choice, none)
  | .recordPoll votes => ((t.recordPoll votes).1, some (t.recordPoll votes).2)
  | .recordUnsuccessfulPoll => (t.recordUnsuccessfulPoll, none)

/-- One call of the eager tree. -/
def eagerCall (t : Tree F) : TreeAction → Tree F × Option Bool
  | .add choice => (t.add choice, none)
  | .recordPoll votes => ((t.eagerRecordPoll votes).1, some (t.eagerRecordPoll votes).2)
  | .recordUnsuccessfulPoll => (t.eagerRecordUnsuccessfulPoll, none)

/-- What is seen of a tree after a call: the preference, whether it is decided, and the result. -/
structure Observation where
  preference : ID
  finalized : Bool
  result : Option Bool
deriving DecidableEq

/-- The observations after each call of a sequence. -/
def observations (call : Tree F → TreeAction → Tree F × Option Bool) :
    Tree F → List TreeAction → List Observation
  | _, [] => []
  | t, action :: rest =>
    let after := call t action
    ⟨after.1.preference, after.1.finalized, after.2⟩ :: observations call after.1 rest

end Tree

/-- A reset clears the confidence and nothing else. -/
structure ResetLaws (view : FlakeView F) (params : Parameters) : Prop where
  unary_reset_reset : ∀ u, F.unaryRecordUnsuccessfulPoll (F.unaryRecordUnsuccessfulPoll u) =
    F.unaryRecordUnsuccessfulPoll u
  binary_reset_reset : ∀ b, F.binaryRecordUnsuccessfulPoll (F.binaryRecordUnsuccessfulPoll b) =
    F.binaryRecordUnsuccessfulPoll b
  unary_reset_zero : ∀ u, (view.unary u).Counts params → view.unaryLevel u = 0 →
    F.unaryRecordUnsuccessfulPoll u = u
  extend_reset : ∀ u choice, F.extend (F.unaryRecordUnsuccessfulPoll u) choice =
    F.binaryRecordUnsuccessfulPoll (F.extend u choice)
  unaryFinalized_reset : ∀ u,
    F.unaryFinalized (F.unaryRecordUnsuccessfulPoll u) = F.unaryFinalized u
  binaryFinalized_reset : ∀ b,
    F.binaryFinalized (F.binaryRecordUnsuccessfulPoll b) = F.binaryFinalized b
  binaryPreference_reset : ∀ b,
    F.binaryPreference (F.binaryRecordUnsuccessfulPoll b) = F.binaryPreference b

/-- Clearing a counter that is zero does not change it. -/
theorem UnarySnowflake.reset_zero {params : Parameters} {sf : UnarySnowflake}
    (counts : sf.Counts params) (zero : level sf.confidence = 0) :
    sf.recordUnsuccessfulPoll = sf := by
  obtain ⟨current, single⟩ := counts.counting.single
  unfold UnarySnowflake.recordUnsuccessfulPoll
  rw [single] at zero
  obtain rfl : current = 0 := zero
  obtain ⟨alphaPreference, conditions, confidence, finalized⟩ := sf
  subst single
  rfl

/-- The laws of an early reset, for snowflake. -/
theorem snowflake_resetLaws (params : Parameters) : ResetLaws snowflakeView params where
  unary_reset_reset := by
    intro u
    simp [snowflakeFactory, UnarySnowflake.recordUnsuccessfulPoll]
  binary_reset_reset := by
    intro b
    simp [snowflakeFactory, BinarySnowflake.recordUnsuccessfulPoll]
  unary_reset_zero := fun _ counts zero => UnarySnowflake.reset_zero counts zero
  extend_reset := fun _ _ => rfl
  unaryFinalized_reset := fun _ => rfl
  binaryFinalized_reset := fun _ => rfl
  binaryPreference_reset := fun _ => rfl

/-- The laws of an early reset, for snowball. -/
theorem snowball_resetLaws (params : Parameters) : ResetLaws snowballView params where
  unary_reset_reset := by
    intro u
    simp [snowballFactory, UnarySnowflake.recordUnsuccessfulPoll]
  binary_reset_reset := by
    intro b
    simp [snowballFactory, BinarySnowflake.recordUnsuccessfulPoll]
  unary_reset_zero := by
    intro u counts zero
    obtain ⟨snowflake, preferenceStrength⟩ := u
    exact congrArg (fun flake => UnarySnowball.mk flake preferenceStrength)
      (UnarySnowflake.reset_zero counts zero)
  extend_reset := fun _ _ => rfl
  unaryFinalized_reset := fun _ => rfl
  binaryFinalized_reset := fun _ => rfl
  binaryPreference_reset := fun _ => rfl

namespace Node

/-- Do all pending resets of a sub-tree. -/
def settle : Node F → Bool → Node F
  | .absent, _ => .absent
  | .unary preference decidedPrefix commonPrefix snow shouldReset child, pending =>
    .unary preference decidedPrefix commonPrefix
      (if pending then F.unaryRecordUnsuccessfulPoll snow else snow) false
      (child.settle (shouldReset || pending))
  | .binary preference0 preference1 bit snow shouldReset0 shouldReset1 child0 child1, pending =>
    .binary preference0 preference1 bit
      (if pending then F.binaryRecordUnsuccessfulPoll snow else snow) false false
      (child0.settle (shouldReset0 || pending)) (child1.settle (shouldReset1 || pending))

/-- Settling keeps which nodes there are. -/
@[simp] theorem isPresent_settle (node : Node F) (pending : Bool) :
    (node.settle pending).isPresent = node.isPresent := by
  cases node <;> rfl

/-- Settling keeps the decided bits. -/
@[simp] theorem decidedPrefix_settle (node : Node F) (pending : Bool) :
    (node.settle pending).decidedPrefix = node.decidedPrefix := by
  cases node <;> rfl

/-- Nothing is settled where there is no node. -/
theorem settle_absent {node : Node F} (absent : node.isPresent = false) (pending : Bool) :
    node.settle pending = node := by
  cases node with
  | absent => rfl
  | unary _ _ _ _ _ _ => cases absent
  | binary _ _ _ _ _ _ _ _ => cases absent

/-- What relates the two polls of a sub-tree. -/
structure SettledPoll (lazy eager : Polled F) : Prop where
  returned : lazy.returned.settle false = eager.returned
  successful : lazy.successful = eager.successful
  changed : lazy.changed.finalized = false → lazy.changed.settle false = eager.changed

/-- A node that returns itself in both polls. -/
theorem SettledPoll.self {lazy eager : Node F} {successful : Bool}
    (same : lazy.settle false = eager) :
    SettledPoll (⟨lazy, lazy, successful⟩ : Polled F) ⟨eager, eager, successful⟩ :=
  ⟨same, rfl, fun _ => same⟩

/-- A node that is decided in both polls and returns what its child returned. -/
theorem SettledPoll.replaced {lazy eager : Polled F} (polled : SettledPoll lazy eager)
    {self other : Node F} {successful : Bool} (finalizes : self.finalized = true) :
    SettledPoll ⟨self, lazy.returned, successful⟩ ⟨other, eager.returned, successful⟩ :=
  ⟨polled.returned, rfl, fun still => absurd (finalizes.symm.trans still) (by decide)⟩

variable {view : FlakeView F} {params : Parameters} (laws : ResetLaws view params)

include laws

/-- Settling keeps the preference. -/
theorem preference_settle (node : Node F) (pending : Bool) :
    (node.settle pending).preference = node.preference := by
  cases node with
  | absent => rfl
  | unary _ _ _ _ _ _ => rfl
  | binary preference0 preference1 bit snow shouldReset0 shouldReset1 child0 child1 =>
    simp only [settle, preference]
    cases pending with
    | false => rfl
    | true => rw [if_pos rfl, laws.binaryPreference_reset]

/-- Settling keeps what is finalized. -/
theorem finalized_settle (node : Node F) (pending : Bool) :
    (node.settle pending).finalized = node.finalized := by
  cases node with
  | absent => rfl
  | unary preference decidedPrefix commonPrefix snow shouldReset child =>
    cases pending with
    | false => rfl
    | true => exact laws.unaryFinalized_reset snow
  | binary preference0 preference1 bit snow shouldReset0 shouldReset1 child0 child1 =>
    cases pending with
    | false => rfl
    | true => exact laws.binaryFinalized_reset snow

/-- Resetting everything does the pending resets, too. -/
theorem resetAll_settle (node : Node F) (pending : Bool) :
    (node.settle pending).resetAll = node.settle true := by
  induction node generalizing pending with
  | absent => rfl
  | unary preference decidedPrefix commonPrefix snow shouldReset child inductionHypothesis =>
    simp only [settle, resetAll, inductionHypothesis, Bool.or_true, if_true]
    cases pending with
    | false => rfl
    | true => rw [if_pos rfl, laws.unary_reset_reset]
  | binary preference0 preference1 bit snow shouldReset0 shouldReset1 child0 child1 first second =>
    simp only [settle, resetAll, first, second, Bool.or_true, if_true]
    cases pending with
    | false => rfl
    | true => rw [if_pos rfl, laws.binary_reset_reset]

omit laws in
/-- With too few votes, the eager poll resets the whole sub-tree. -/
theorem eagerPoll_unsuccessful (node : Node F) (votes : Multiset ID)
    (low : (votes.card : ℤ) < params.alphaPreference) :
    (node.eagerPoll params votes).changed = node.resetAll := by
  induction node generalizing votes with
  | absent => rfl
  | unary preference decidedPrefix commonPrefix snow shouldReset child inductionHypothesis =>
    unfold eagerPoll
    dsimp only
    rw [if_pos low, inductionHypothesis votes low]
    rfl
  | binary preference0 preference1 bit snow shouldReset0 shouldReset1 child0 child1 first second =>
    have part : ∀ value : Bool,
        ((votes.filter (fun id => id.bit bit = value)).card : ℤ) < params.alphaPreference := by
      intro value
      have fewer := Multiset.card_le_card (Multiset.filter_le (fun id => id.bit bit = value) votes)
      omega
    have notOnes : decide (params.alphaPreference ≤
        ((votes.filter (fun id => id.bit bit = true)).card : ℤ)) = false :=
      decide_eq_false (Int.not_le.mpr (part true))
    unfold eagerPoll
    dsimp only
    rw [notOnes, select_false, if_pos (part false), first _ (part false), second _ (part true)]
    rfl

/-- A new node has nothing to reset. -/
theorem settle_newUnaryNode (positive : 0 < params.beta) (choice : ID) (decidedPrefix : ℕ)
    (pending : Bool) :
    (newUnaryNode params choice decidedPrefix : Node F).settle pending =
      newUnaryNode params choice decidedPrefix := by
  obtain ⟨counts, zero, _⟩ := view.newUnary_counts positive
  have same := laws.unary_reset_zero _ counts zero
  cases pending with
  | false => rfl
  | true =>
    unfold newUnaryNode
    simp only [settle, same, if_true]

/-- A node that is split may be settled before or after. -/
theorem settle_splitNode (positive : 0 < params.beta) (preference newChoice : ID) (index : ℕ)
    (snow : F.Unary) (shouldReset : Bool) (child : Node F) (withNewChild pending : Bool) :
    (splitNode params preference newChoice index snow shouldReset child withNewChild).settle
        pending =
      splitNode params preference newChoice index
        (if pending then F.unaryRecordUnsuccessfulPoll snow else snow) false
        (child.settle (shouldReset || pending)) withNewChild := by
  have extended : (if pending = true then
      F.binaryRecordUnsuccessfulPoll (F.extend snow (preference.bit index))
      else F.extend snow (preference.bit index)) = F.extend (if pending = true then
      F.unaryRecordUnsuccessfulPoll snow else snow) (preference.bit index) := by
    cases pending with
    | false => rfl
    | true => exact (laws.extend_reset snow _).symm
  have newChild : ∀ flag, (if withNewChild = true then newUnaryNode params newChoice (index + 1)
      else .absent : Node F).settle flag =
      if withNewChild = true then newUnaryNode params newChoice (index + 1) else .absent := by
    intro flag
    split
    · exact settle_newUnaryNode laws positive newChoice _ flag
    · rfl
  unfold splitNode
  simp only [settle, extended]
  cases preference.bit index with
  | false => simp only [select_false, newChild]
  | true => simp only [select_true, newChild]

/-- Adding a choice before or after the pending resets are done. The unary node that is moved
below a split takes its flag along; it has been reset already when the flag is set. -/
theorem settle_add (positive : 0 < params.beta) (newChoice : ID) {node : Node F} {pending : Bool}
    (sound : node.Sound view params pending) :
    (node.add params newChoice).settle pending = (node.settle pending).add params newChoice := by
  induction sound with
  | absent => rfl
  | @unary preference decidedPrefix commonPrefix snow shouldReset child pending counts range bounded
      ends marked hangs below inductionHypothesis =>
    have finalized : F.unaryFinalized (if pending then F.unaryRecordUnsuccessfulPoll snow
        else snow) = F.unaryFinalized snow := by
      cases pending with
      | false => rfl
      | true => exact laws.unaryFinalized_reset snow
    have already : (if (shouldReset || pending) = true then F.unaryRecordUnsuccessfulPoll snow
        else snow) = if pending = true then F.unaryRecordUnsuccessfulPoll snow else snow := by
      cases shouldReset with
      | false => rfl
      | true =>
        have same := laws.unary_reset_zero snow counts (marked rfl)
        cases pending with
        | false => exact same
        | true => rfl
    simp only [settle, add, finalized]
    split
    · rfl
    split
    · simp only [settle, inductionHypothesis]
    rename_i index found
    split
    · rw [settle_splitNode laws positive, isPresent_settle]
    split
    · rw [settle_splitNode laws positive]
      simp only [settle, already, Bool.or_self_left]
    split
    · simp only [settle, settle_splitNode laws positive, already, Bool.or_self_left,
        isPresent_settle]
    · simp only [settle, settle_splitNode laws positive, already, Bool.or_self_left,
        Bool.false_or]
  | binary counts bounded both ends hangs0 hangs1 below0 below1 first second =>
    simp only [settle, add]
    split
    · simp only [settle, second]
    · simp only [settle, first]

/-- The poll of a unary node before or after the pending resets are done. -/
theorem settle_unary_recordPoll (positive : 0 < params.beta) {preference : ID}
    {decidedPrefix commonPrefix : ℕ} {snow : F.Unary} {shouldReset : Bool} {child : Node F}
    {votes : Multiset ID} {reset : Bool}
    (rooted : (Node.unary preference decidedPrefix commonPrefix snow shouldReset child).Rooted view
      params reset)
    (childPoll : child.Rooted view params (shouldReset || reset) →
      SettledPoll (child.recordPoll params votes (shouldReset || reset))
        ((child.settle (shouldReset || reset)).eagerPoll params votes)) :
    SettledPoll
      ((Node.unary preference decidedPrefix commonPrefix snow shouldReset child).recordPoll params
        votes reset)
      (((Node.unary preference decidedPrefix commonPrefix snow shouldReset child).settle
        reset).eagerPoll params votes) := by
  have law := recordPoll_law positive _ votes reset rooted
  have sound := rooted.sound
  cases sound with
  | unary counts range bounded ends marked hangs below =>
  unfold recordPoll at law ⊢
  simp only [settle, eagerPoll, isPresent_settle] at law ⊢
  generalize (if reset = true then F.unaryRecordUnsuccessfulPoll snow else snow) = current at *
  by_cases low : (votes.card : ℤ) < params.alphaPreference
  · simp only [if_pos low]
    apply SettledPoll.self
    rw [eagerPoll_unsuccessful _ votes low, resetAll_settle laws]
    rfl
  simp only [if_neg low] at law ⊢
  by_cases present : child.isPresent = true
  · simp only [if_pos present] at law ⊢
    have childRooted : child.Rooted view params (shouldReset || reset) :=
      (hangs present).rooted below
    have polled := childPoll childRooted
    split
    · rename_i finalizes
      exact polled.replaced finalizes
    · rename_i still
      simp only [if_neg still] at law
      -- the child is still undecided, since its parent is
      cases law.returned.sound with
      | unary _ _ _ _ _ hangs' _ =>
      have childPresent := (recordPoll_law positive child votes _ childRooted).present
      have same := polled.changed (hangs' (childPresent.trans present)).undecided
      apply SettledPoll.self
      rw [← same, preference_settle laws]
      rfl
  · simp only [if_neg present]
    have absent : child.isPresent = false := by simpa using present
    apply SettledPoll.self
    rw [settle_absent absent]
    simp only [settle, settle_absent absent, Bool.false_eq_true, if_false]

omit laws in
/-- At most one side of a bit gets a majority of the votes. -/
theorem card_zeros_add_card_ones (votes : Multiset ID) (bit : ℕ) :
    (votes.filter (fun id => id.bit bit = false)).card +
      (votes.filter (fun id => id.bit bit = true)).card = votes.card := by
  have complement : votes.filter (fun id => id.bit bit = false) =
      votes.filter (fun id => ¬ id.bit bit = true) :=
    Multiset.filter_congr (fun id _ => by simp)
  rw [complement, ← Multiset.card_add, add_comm, Multiset.filter_add_not]

omit laws in
/-- Nothing is pending below a binary node without children. -/
theorem settle_binary_leaf {preference0 preference1 : ID} {bit : ℕ} {snow : F.Binary}
    {child0 child1 : Node F} (both : child0.isPresent = child1.isPresent)
    (absent : child1.isPresent = false) (flag0 flag1 pending0 pending1 : Bool) :
    (Node.binary preference0 preference1 bit snow flag0 flag1 child0 child1).settle false =
      .binary preference0 preference1 bit snow false false (child0.settle pending0)
        (child1.settle pending1) := by
  simp only [settle, settle_absent absent, settle_absent (both.trans absent), Bool.false_eq_true,
    if_false]

/-- The poll of a binary node before or after the pending resets are done. -/
theorem settle_binary_recordPoll (positive : 0 < params.beta) {preference0 preference1 : ID}
    {bit : ℕ} {snow : F.Binary} {shouldReset0 shouldReset1 : Bool} {child0 child1 : Node F}
    {votes : Multiset ID} {reset : Bool}
    (rooted : (Node.binary preference0 preference1 bit snow shouldReset0 shouldReset1 child0
      child1).Rooted view params reset)
    (minority : (votes.card : ℤ) < 2 * params.alphaPreference)
    (poll0 : ∀ votes : Multiset ID, (votes.card : ℤ) < 2 * params.alphaPreference →
      child0.Rooted view params (shouldReset0 || reset) →
      SettledPoll (child0.recordPoll params votes (shouldReset0 || reset))
        ((child0.settle (shouldReset0 || reset)).eagerPoll params votes))
    (poll1 : ∀ votes : Multiset ID, (votes.card : ℤ) < 2 * params.alphaPreference →
      child1.Rooted view params (shouldReset1 || reset) →
      SettledPoll (child1.recordPoll params votes (shouldReset1 || reset))
        ((child1.settle (shouldReset1 || reset)).eagerPoll params votes)) :
    SettledPoll
      ((Node.binary preference0 preference1 bit snow shouldReset0 shouldReset1 child0
        child1).recordPoll params votes reset)
      (((Node.binary preference0 preference1 bit snow shouldReset0 shouldReset1 child0
        child1).settle reset).eagerPoll params votes) := by
  have law := recordPoll_law positive _ votes reset rooted
  have shares := card_zeros_add_card_ones votes bit
  have sound := rooted.sound
  cases sound with
  | binary counts bounded both ends hangs0 hangs1 below0 below1 =>
  unfold recordPoll at law ⊢
  simp only [settle, eagerPoll] at law ⊢
  generalize (if reset = true then F.binaryRecordUnsuccessfulPoll snow else snow) = current at *
  generalize votes.filter (fun id => id.bit bit = false) = zeros at *
  generalize votes.filter (fun id => id.bit bit = true) = ones at *
  have undecided0 : child0.isPresent = true → child0.Rooted view params (shouldReset0 || reset) :=
    fun present => (hangs0 present).rooted below0
  have undecided1 : child1.isPresent = true → child1.Rooted view params (shouldReset1 || reset) :=
    fun present => (hangs1 present).rooted below1
  by_cases majority : params.alphaPreference ≤ (ones.card : ℤ)
  · have low : (zeros.card : ℤ) < params.alphaPreference := by omega
    have notLow : ¬ (ones.card : ℤ) < params.alphaPreference := by omega
    simp only [decide_eq_true majority, select_true, if_neg notLow] at law ⊢
    have other := eagerPoll_unsuccessful (child0.settle (shouldReset0 || reset)) zeros low
    rw [resetAll_settle laws] at other
    by_cases present : child1.isPresent = true
    · simp only [isPresent_settle, if_pos present] at law ⊢
      have polled := poll1 ones (by omega) (undecided1 present)
      split
      · rename_i finalizes
        exact polled.replaced finalizes
      · rename_i still
        simp only [if_neg still] at law
        cases law.returned.sound with
        | binary _ _ _ _ _ hangs' _ _ =>
        have childPresent := (recordPoll_law positive child1 ones _ (undecided1 present)).present
        have same := polled.changed (hangs' (childPresent.trans present)).undecided
        apply SettledPoll.self
        rw [← same, ← polled.returned, preference_settle laws, other]
        rfl
    · have absent1 : child1.isPresent = false := by simpa using present
      simp only [isPresent_settle, if_neg present]
      exact .self (settle_binary_leaf both absent1 _ _ _ _)
  · have low : (ones.card : ℤ) < params.alphaPreference := Int.not_le.mp majority
    simp only [decide_eq_false majority, select_false] at law ⊢
    have other := eagerPoll_unsuccessful (child1.settle (shouldReset1 || reset)) ones low
    rw [resetAll_settle laws] at other
    by_cases bothLow : (zeros.card : ℤ) < params.alphaPreference
    · simp only [if_pos bothLow]
      apply SettledPoll.self
      rw [other, eagerPoll_unsuccessful _ zeros bothLow, resetAll_settle laws]
      rfl
    simp only [if_neg bothLow] at law ⊢
    by_cases present : child0.isPresent = true
    · simp only [isPresent_settle, if_pos present] at law ⊢
      have polled := poll0 zeros (by omega) (undecided0 present)
      split
      · rename_i finalizes
        exact polled.replaced finalizes
      · rename_i still
        simp only [if_neg still] at law
        cases law.returned.sound with
        | binary _ _ _ _ hangs' _ _ _ =>
        have childPresent := (recordPoll_law positive child0 zeros _ (undecided0 present)).present
        have same := polled.changed (hangs' (childPresent.trans present)).undecided
        apply SettledPoll.self
        rw [← same, ← polled.returned, preference_settle laws, other]
        rfl
    · have absent0 : child0.isPresent = false := by simpa using present
      simp only [isPresent_settle, if_neg present]
      exact .self (settle_binary_leaf both (both.symm.trans absent0) _ _ _ _)

/-- A poll before or after the pending resets are done. -/
theorem settle_recordPoll (positive : 0 < params.beta) (node : Node F) (votes : Multiset ID)
    (reset : Bool) (rooted : node.Rooted view params reset)
    (minority : (votes.card : ℤ) < 2 * params.alphaPreference) :
    SettledPoll (node.recordPoll params votes reset)
      ((node.settle reset).eagerPoll params votes) := by
  induction node generalizing votes reset with
  | absent => exact .self rfl
  | unary preference decidedPrefix commonPrefix snow shouldReset child inductionHypothesis =>
    exact settle_unary_recordPoll laws positive rooted
      (fun childRooted => inductionHypothesis votes _ childRooted minority)
  | binary preference0 preference1 bit snow shouldReset0 shouldReset1 child0 child1 first second =>
    exact settle_binary_recordPoll laws positive rooted minority
      (fun votes minority childRooted => first votes _ childRooted minority)
      (fun votes minority childRooted => second votes _ childRooted minority)

end Node

/-- The laws of an early reset, for both factories. -/
theorem FactoryKind.resetLaws (kind : FactoryKind) (params : Parameters) :
    ResetLaws kind.view params := by
  cases kind with
  | snowflake => exact snowflake_resetLaws params
  | snowball => exact snowball_resetLaws params

namespace Tree

variable {view : FlakeView F} {params : Parameters}

/-- The eager tree is the lazy one with all pending resets done. -/
structure Settles (lazy eager : Tree F) : Prop where
  node : eager.node = lazy.node.settle lazy.shouldReset
  params : eager.params = lazy.params

/-- A tree and its settled form prefer the same. -/
theorem Settles.preference {lazy eager : Tree F} (laws : ResetLaws view params)
    (settles : Settles lazy eager) : eager.preference = lazy.preference := by
  unfold Tree.preference
  rw [settles.node, Node.preference_settle laws]

/-- A tree and its settled form are finalized together. -/
theorem Settles.finalized {lazy eager : Tree F} (laws : ResetLaws view params)
    (settles : Settles lazy eager) : eager.finalized = lazy.finalized := by
  unfold Tree.finalized
  rw [settles.node, Node.finalized_settle laws]

/-- Every call keeps the relation and has the same result in both trees. -/
theorem Settles.call {lazy eager : Tree F} (laws : ResetLaws view params)
    (valid : params.verify = none) (governed : lazy.Governed view params)
    (settles : Settles lazy eager) (action : TreeAction)
    (bounded : ∀ votes, action = .recordPoll votes → (votes.card : ℤ) ≤ params.k) :
    Settles (lazy.call action).1 (eager.eagerCall action).1 ∧
      (lazy.call action).2 = (eager.eagerCall action).2 := by
  have positive := Parameters.beta_pos valid
  have samePreference := settles.preference laws
  obtain ⟨sameNode, sameParams⟩ := settles
  obtain ⟨configured, rooted⟩ := governed
  cases action with
  | add choice =>
    refine ⟨?_, rfl⟩
    simp only [Tree.call, eagerCall, add, samePreference, sameNode, Node.decidedPrefix_settle]
    split
    · refine ⟨?_, sameParams⟩
      dsimp only
      rw [sameParams, configured, Node.settle_add laws positive choice rooted.sound]
    · exact ⟨sameNode, sameParams⟩
  | recordPoll votes =>
    have fewer := Multiset.card_le_card (Multiset.filter_le
      (fun id => equalSubset 0 lazy.node.decidedPrefix lazy.preference id = true) votes)
    have atMost := bounded votes rfl
    have majority := (Parameters.majority valid).2
    have polled := Node.settle_recordPoll laws positive lazy.node
      (votes.filter (fun id => equalSubset 0 lazy.node.decidedPrefix lazy.preference id))
      lazy.shouldReset rooted (by omega)
    simp only [Tree.call, eagerCall, recordPoll, eagerRecordPoll, samePreference, sameNode,
      Node.decidedPrefix_settle, sameParams, configured]
    exact ⟨⟨polled.returned.symm, rfl⟩, congrArg some polled.successful⟩
  | recordUnsuccessfulPoll =>
    refine ⟨⟨?_, sameParams⟩, rfl⟩
    change eager.node.resetAll = lazy.node.settle true
    rw [sameNode, Node.resetAll_settle laws]

/-- After every call, the lazy and the eager tree show the same preference, decision and result. -/
theorem observations_eq (kind : FactoryKind) {params : Parameters} (valid : params.verify = none)
    (choice : ID) (actions : List TreeAction)
    (bounded : ∀ votes, TreeAction.recordPoll votes ∈ actions → (votes.card : ℤ) ≤ params.k) :
    observations Tree.call (newTree params choice : Tree kind.factory) actions =
      observations eagerCall (newTree params choice : Tree kind.factory) actions := by
  have laws := kind.resetLaws params
  have positive := Parameters.beta_pos valid
  have same : ∀ lazy eager : Tree kind.factory, lazy.Governed kind.view params →
      Settles lazy eager →
      observations Tree.call lazy actions = observations eagerCall eager actions := by
    induction actions with
    | nil => exact fun _ _ _ _ => rfl
    | cons action rest inductionHypothesis =>
      intro lazy eager governed settles
      obtain ⟨next, result⟩ := settles.call laws valid governed action
        (fun votes here => bounded votes (here ▸ List.mem_cons_self))
      have nextGoverned : (lazy.call action).1.Governed kind.view params := by
        have stepped := step_governed positive lazy action governed
        cases action <;> exact stepped
      have later := inductionHypothesis
        (fun votes member => bounded votes (List.mem_cons_of_mem action member)) _ _ nextGoverned
        next
      simp only [observations]
      rw [later, result, next.preference laws, next.finalized laws]
  refine same _ _ (newTree_governed positive choice) ⟨?_, rfl⟩
  exact (Node.settle_newUnaryNode laws positive choice 0 false).symm

/-- The three choices, and two more polls for the same one after a reset of the whole tree. -/
def decidingPolls : List TreeAction :=
  threeChoices ++ [.recordPoll {firstByte 5, firstByte 5, firstByte 0},
    .recordPoll {firstByte 5, firstByte 5}]

/-- The first poll does not count towards the decision, in both trees. -/
theorem decidingPolls_observations :
    (observations Tree.call (newTree twoOfThree (firstByte 0) : Tree FactoryKind.snowflake.factory)
        decidingPolls).map Observation.finalized = [false, false, false, false, false, true] ∧
      observations Tree.call
          (newTree twoOfThree (firstByte 0) : Tree FactoryKind.snowflake.factory) decidingPolls =
        observations eagerCall
          (newTree twoOfThree (firstByte 0) : Tree FactoryKind.snowflake.factory)
          decidingPolls := by
  refine ⟨by decide +kernel, observations_eq .snowflake (by decide) (firstByte 0) decidingPolls ?_⟩
  intro votes member
  simp only [decidingPolls, threeChoices, List.cons_append, List.nil_append, List.mem_cons,
    TreeAction.recordPoll.injEq, reduceCtorEq, List.not_mem_nil, or_false, false_or] at member
  obtain rfl | rfl | rfl := member
  · decide
  · decide
  · decide

end Tree

end AvalancheParallel.Snowball
