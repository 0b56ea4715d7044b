import Mathlib.Data.Multiset.Filter
import AvalancheParallel.IdBits
import AvalancheParallel.Snowball.Instances

/-!
# The snowball tree

`Tree` of `default/snow/consensus/snowball/tree.go`: a modified patricia tree of snow
instances that decides between IDs bit by bit. A bag of votes is a multiset.

Nodes are values. `RecordPoll` of a node changes the node in place and returns a node
that may be one of its descendants; a caller that does not store the returned node
keeps the changed one. Both are results here.

The laws at the end are what a user of the tree needs: the preference is one of the
added choices, and adding a choice does not change it.
-/

namespace AvalancheParallel.Snowball

open AvalancheParallel.Ids

/-- A node; `absent` is nil. The pairs of a binary node are in the order of its bit. -/
inductive Node (F : Factory) where
  | absent
  | unary (preference : ID) (decidedPrefix commonPrefix : ℕ) (snow : F.Unary)
      (shouldReset : Bool) (child : Node F)
  | binary (preference0 preference1 : ID) (bit : ℕ) (snow : F.Binary)
      (shouldReset0 shouldReset1 : Bool) (child0 child1 : Node F)

variable {F : Factory}

/-- The element of a pair that a bit selects. -/
def select {α : Type} (bit : Bool) (first second : α) : α := if bit then second else first

/-- The bit 0 selects the first. -/
@[simp] theorem select_false {α : Type} (first second : α) : select false first second = first :=
  rfl

/-- The bit 1 selects the second. -/
@[simp] theorem select_true {α : Type} (first second : α) : select true first second = second := rfl

namespace Node

/-- `Preference`. It is not called on nil. -/
def preference : Node F → ID
  | .absent => Vector.replicate 32 0
  | .unary preference _ _ _ _ _ => preference
  | .binary preference0 preference1 _ snow _ _ _ _ =>
    select (F.binaryPreference snow) preference0 preference1

/-- `DecidedPrefix`. It is not called on nil. -/
def decidedPrefix : Node F → ℕ
  | .absent => 0
  | .unary _ decidedPrefix _ _ _ _ => decidedPrefix
  | .binary _ _ bit _ _ _ _ _ => bit

/-- `Finalized`. It is not called on nil. -/
def finalized : Node F → Bool
  | .absent => false
  | .unary _ _ _ snow _ _ => F.unaryFinalized snow
  | .binary _ _ _ snow _ _ _ _ => F.binaryFinalized snow

/-- The node is not nil. -/
def isPresent : Node F → Bool
  | .absent => false
  | _ => true

/-- A new unary node to the end of the ID. -/
def newUnaryNode (params : Parameters) (choice : ID) (decidedPrefix : ℕ) : Node F :=
  .unary choice decidedPrefix numBits (F.newUnary params) false .absent

/-- The binary node that replaces the bit `index` of a unary node. -/
def splitNode (params : Parameters) (preference newChoice : ID) (index : ℕ) (snow : F.Unary)
    (shouldReset : Bool) (child : Node F) (withNewChild : Bool) : Node F :=
  let bit := preference.bit index
  let newChild : Node F :=
    if withNewChild then newUnaryNode params newChoice (index + 1) else .absent
  .binary (select bit preference newChoice) (select bit newChoice preference) index
    (F.extend snow bit) shouldReset shouldReset (select bit child newChild)
    (select bit newChild child)

/-- `Add`. The numbers are those of the cases in the source. -/
def add (params : Parameters) (newChoice : ID) : Node F → Node F
  | .absent => .absent
  | .unary preference decidedPrefix commonPrefix snow shouldReset child =>
    if F.unaryFinalized snow then
      .unary preference decidedPrefix commonPrefix snow shouldReset child
    else
      match firstDifferenceSubset decidedPrefix commonPrefix preference newChoice with
      | none => -- 1.
        .unary preference decidedPrefix commonPrefix snow shouldReset (child.add params newChoice)
      | some index =>
        let split := splitNode params preference newChoice index snow shouldReset
        if decidedPrefix = commonPrefix - 1 then split child child.isPresent -- 2.
        else if index = decidedPrefix then -- 3.
          split (.unary preference (decidedPrefix + 1) commonPrefix snow shouldReset child) true
        else if index = commonPrefix - 1 then -- 4.
          .unary preference decidedPrefix (commonPrefix - 1) snow shouldReset
            (split child child.isPresent)
        else -- 5.
          .unary preference decidedPrefix index snow false
            (split (.unary preference (index + 1) commonPrefix snow shouldReset child) true)
  | .binary preference0 preference1 bit snow shouldReset0 shouldReset1 child0 child1 =>
    if newChoice.bit bit then
      .binary preference0 preference1 bit snow shouldReset0 shouldReset1 child0
        (child1.add params newChoice)
    else
      .binary preference0 preference1 bit snow shouldReset0 shouldReset1
        (child0.add params newChoice) child1

/-- The outcome of `RecordPoll` of a node: the node as it was changed, the node returned, and
whether the poll was successful. -/
structure Polled (F : Factory) where
  changed : Node F
  returned : Node F
  successful : Bool

/-- `RecordPoll`. -/
def recordPoll (params : Parameters) : Node F → Multiset ID → Bool → Polled F
  | .absent, _, _ => ⟨.absent, .absent, false⟩
  | .unary preference decidedPrefix commonPrefix snow shouldReset child, votes, reset =>
    let snow := if reset then F.unaryRecordUnsuccessfulPoll snow else snow
    let shouldReset := shouldReset || reset
    if (votes.card : ℤ) < params.alphaPreference then
      let self := .unary preference decidedPrefix commonPrefix
        (F.unaryRecordUnsuccessfulPoll snow) true child
      ⟨self, self, false⟩
    else
      let snow := F.unaryRecordPoll snow votes.card
      if child.isPresent then
        let polled := child.recordPoll params votes shouldReset
        if F.unaryFinalized snow then
          ⟨.unary preference decidedPrefix commonPrefix snow shouldReset polled.changed,
            polled.returned, true⟩
        else
          let self := .unary polled.changed.preference decidedPrefix commonPrefix snow false
            polled.changed
          ⟨self, self, true⟩
      else
        let self := .unary preference decidedPrefix commonPrefix snow false child
        ⟨self, self, true⟩
  | .binary preference0 preference1 bit snow shouldReset0 shouldReset1 child0 child1,
      votes, reset =>
    let ones := votes.filter (fun id => id.bit bit = true)
    let zeros := votes.filter (fun id => id.bit bit = false)
    let side := decide (params.alphaPreference ≤ (ones.card : ℤ))
    let pruned := select side zeros ones
    let snow := if reset then F.binaryRecordUnsuccessfulPoll snow else snow
    -- The other side did not get the threshold; a reset is passed on to both sides.
    let resetSide := select side shouldReset0 shouldReset1 || reset
    if (pruned.card : ℤ) < params.alphaPreference then
      let self := .binary preference0 preference1 bit (F.binaryRecordUnsuccessfulPoll snow)
        true true child0 child1
      ⟨self, self, false⟩
    else
      let snow := F.binaryRecordPoll snow pruned.card side
      let polled0 := child0.recordPoll params pruned resetSide
      let polled1 := child1.recordPoll params pruned resetSide
      let polled := select side polled0 polled1
      if (select side child0 child1).isPresent then
        let changed0 := select side polled0.changed child0
        let changed1 := select side child1 polled1.changed
        if F.binaryFinalized snow then
          ⟨.binary preference0 preference1 bit snow (select side resetSide true)
              (select side true resetSide) changed0 changed1, polled.returned, true⟩
        else
          let self := .binary (select side polled.returned.preference preference0)
            (select side preference1 polled.returned.preference) bit snow
            (select side false true) (select side true false) changed0 changed1
          ⟨self, self, true⟩
      else
        let self := .binary preference0 preference1 bit snow (select side false true)
          (select side true false) child0 child1
        ⟨self, self, true⟩

end Node

/-- `Tree`. -/
structure Tree (F : Factory) where
  node : Node F
  params : Parameters
  shouldReset : Bool

namespace Tree

/-- `NewTree`. -/
def newTree (params : Parameters) (choice : ID) : Tree F :=
  ⟨.newUnaryNode params choice 0, params, false⟩

/-- `Preference`. -/
def preference (t : Tree F) : ID := t.node.preference

/-- `Finalized`. -/
def finalized (t : Tree F) : Bool := t.node.finalized

/-- `Tree.Add`: choices that differ from what is decided are ignored. -/
def add (choice : ID) (t : Tree F) : Tree F :=
  if equalSubset 0 t.node.decidedPrefix t.preference choice then
    { t with node := t.node.add t.params choice }
  else t

/-- `Tree.RecordPoll`, with its result. -/
def recordPoll (votes : Multiset ID) (t : Tree F) : Tree F × Bool :=
  let filtered := votes.filter (fun id => equalSubset 0 t.node.decidedPrefix t.preference id)
  let polled := t.node.recordPoll t.params filtered t.shouldReset
  ({ t with node := polled.returned, shouldReset := false }, polled.successful)

/-- `Tree.RecordUnsuccessfulPoll`. -/
def recordUnsuccessfulPoll (t : Tree F) : Tree F := { t with shouldReset := true }

end Tree

namespace Node

/-- Every preference in the tree satisfies the condition. -/
def Chooses (choices : ID → Prop) : Node F → Prop
  | .absent => True
  | .unary preference _ _ _ _ child => choices preference ∧ child.Chooses choices
  | .binary preference0 preference1 _ _ _ _ child0 child1 =>
    choices preference0 ∧ choices preference1 ∧ child0.Chooses choices ∧ child1.Chooses choices

/-- The choices of a node may be among more. -/
theorem Chooses.mono {choices more : ID → Prop} (implied : ∀ id, choices id → more id)
    {node : Node F} (chooses : node.Chooses choices) : node.Chooses more := by
  induction node with
  | absent => trivial
  | unary preference decidedPrefix commonPrefix snow shouldReset child inductionHypothesis =>
    exact ⟨implied _ chooses.1, inductionHypothesis chooses.2⟩
  | binary preference0 preference1 bit snow shouldReset0 shouldReset1 child0 child1 first second =>
    exact ⟨implied _ chooses.1, implied _ chooses.2.1, first chooses.2.2.1, second chooses.2.2.2⟩

/-- The preference of a node is one of the choices. -/
theorem Chooses.preference {choices : ID → Prop} {node : Node F} (chooses : node.Chooses choices)
    (present : node.isPresent = true) : choices node.preference := by
  cases node with
  | absent => cases present
  | unary preference decidedPrefix commonPrefix snow shouldReset child => exact chooses.1
  | binary preference0 preference1 bit snow shouldReset0 shouldReset1 child0 child1 =>
    simp only [Node.preference, select]
    split
    · exact chooses.2.1
    · exact chooses.1

/-- A new node prefers its choice. -/
theorem newUnaryNode_chooses {choices : ID → Prop} (params : Parameters) {choice : ID}
    (chosen : choices choice) (decidedPrefix : ℕ) :
    (newUnaryNode params choice decidedPrefix : Node F).Chooses choices := ⟨chosen, trivial⟩

/-- A split node prefers one of the two choices. -/
theorem splitNode_chooses {choices : ID → Prop} (params : Parameters) {preference newChoice : ID}
    (old : choices preference) (new : choices newChoice) (index : ℕ) (snow : F.Unary)
    (shouldReset : Bool) {child : Node F} (chooses : child.Chooses choices) (withNewChild : Bool) :
    (splitNode params preference newChoice index snow shouldReset child withNewChild).Chooses
      choices := by
  have newChild : (if withNewChild = true then newUnaryNode params newChoice (index + 1)
      else .absent : Node F).Chooses choices := by
    split
    · exact newUnaryNode_chooses params new _
    · trivial
  unfold splitNode select
  cases preference.bit index with
  | false => exact ⟨old, new, chooses, newChild⟩
  | true => exact ⟨new, old, newChild, chooses⟩

/-- The split keeps the preferred bit. -/
theorem preference_splitNode (params : Parameters) (preference newChoice : ID) (index : ℕ)
    (snow : F.Unary) (shouldReset : Bool) (child : Node F) (withNewChild : Bool) :
    (splitNode params preference newChoice index snow shouldReset child withNewChild).preference =
      preference := by
  simp only [splitNode, Node.preference, F.preference_extend, select]
  cases preference.bit index <;> rfl

/-- Adding a choice changes neither the preference nor that there is one. -/
theorem add_preference (params : Parameters) (newChoice : ID) (node : Node F) :
    (node.add params newChoice).preference = node.preference ∧
      (node.add params newChoice).isPresent = node.isPresent := by
  cases node with
  | absent => exact ⟨rfl, rfl⟩
  | unary preference decidedPrefix commonPrefix snow shouldReset child =>
    unfold add
    split
    · exact ⟨rfl, rfl⟩
    split
    · exact ⟨rfl, rfl⟩
    dsimp only
    split
    · exact ⟨preference_splitNode .., rfl⟩
    split
    · exact ⟨preference_splitNode .., rfl⟩
    split
    · exact ⟨rfl, rfl⟩
    · exact ⟨rfl, rfl⟩
  | binary preference0 preference1 bit snow shouldReset0 shouldReset1 child0 child1 =>
    unfold add
    split
    · exact ⟨rfl, rfl⟩
    · exact ⟨rfl, rfl⟩

/-- Adding a choice adds nothing else. -/
theorem add_chooses {choices : ID → Prop} (params : Parameters) {newChoice : ID}
    (new : choices newChoice) {node : Node F} (chooses : node.Chooses choices) :
    (node.add params newChoice).Chooses choices := by
  induction node with
  | absent => trivial
  | unary preference decidedPrefix commonPrefix snow shouldReset child inductionHypothesis =>
    obtain ⟨old, below⟩ := chooses
    unfold add
    split
    · exact ⟨old, below⟩
    split
    · exact ⟨old, inductionHypothesis below⟩
    dsimp only
    split
    · exact splitNode_chooses params old new _ snow _ below _
    -- In cases 3 and 5 the rest of the unary node goes below the split.
    have lower : ∀ start : ℕ, (Node.unary preference start commonPrefix snow shouldReset child :
        Node F).Chooses choices := fun _ => ⟨old, below⟩
    split
    · exact splitNode_chooses params old new _ snow _ (lower _) _
    split
    · exact ⟨old, splitNode_chooses params old new _ snow _ below _⟩
    · exact ⟨old, splitNode_chooses params old new _ snow _ (lower _) _⟩
  | binary preference0 preference1 bit snow shouldReset0 shouldReset1 child0 child1 first second =>
    obtain ⟨old0, old1, below0, below1⟩ := chooses
    unfold add
    split
    · exact ⟨old0, old1, below0, second below1⟩
    · exact ⟨old0, old1, first below0, below1⟩

/-- What a poll keeps, for the changed and for the returned node. -/
structure Keeps (choices : ID → Prop) (node : Node F) (polled : Polled F) : Prop where
  changed : polled.changed.Chooses choices
  returned : polled.returned.Chooses choices
  changedPresent : polled.changed.isPresent = node.isPresent
  returnedPresent : polled.returned.isPresent = node.isPresent

/-- A node that returns itself. -/
theorem Keeps.self {choices : ID → Prop} {node self : Node F} (successful : Bool)
    (chooses : self.Chooses choices) (present : self.isPresent = node.isPresent) :
    Keeps choices node ⟨self, self, successful⟩ := ⟨chooses, chooses, present, present⟩

/-- A poll adds no choice, and leaves a node where there was one. -/
theorem recordPoll_keeps {choices : ID → Prop} (params : Parameters) {node : Node F}
    (chooses : node.Chooses choices) (votes : Multiset ID) (reset : Bool) :
    Keeps choices node (node.recordPoll params votes reset) := by
  induction node generalizing votes reset with
  | absent => exact ⟨trivial, trivial, rfl, rfl⟩
  | unary preference decidedPrefix commonPrefix snow shouldReset child inductionHypothesis =>
    obtain ⟨old, below⟩ := chooses
    have polled := inductionHypothesis below votes (shouldReset || reset)
    unfold recordPoll
    dsimp only
    generalize (if reset = true then F.unaryRecordUnsuccessfulPoll snow else snow) = before
    split
    · exact Keeps.self _ ⟨old, below⟩ rfl
    split
    · rename_i present
      have kept := polled.changed.preference (polled.changedPresent.trans present)
      split
      · exact ⟨⟨old, polled.changed⟩, polled.returned, rfl, polled.returnedPresent.trans present⟩
      · exact Keeps.self _ ⟨kept, polled.changed⟩ rfl
    · exact Keeps.self _ ⟨old, below⟩ rfl
  | binary preference0 preference1 bit snow shouldReset0 shouldReset1 child0 child1 first second =>
    obtain ⟨old0, old1, below0, below1⟩ := chooses
    unfold recordPoll
    dsimp only
    generalize decide (params.alphaPreference ≤
      ((votes.filter (fun id => id.bit bit = true)).card : ℤ)) = side
    generalize (if reset = true then F.binaryRecordUnsuccessfulPoll snow else snow) = before
    split
    · exact Keeps.self _ ⟨old0, old1, below0, below1⟩ rfl
    split
    · rename_i present
      cases side with
      | false =>
        have polled := first below0 (votes.filter (fun id => id.bit bit = false))
          (select false shouldReset0 shouldReset1 || reset)
        have kept := polled.returned.preference (polled.returnedPresent.trans present)
        split
        · exact ⟨⟨old0, old1, polled.changed, below1⟩, polled.returned, rfl,
            polled.returnedPresent.trans present⟩
        · exact Keeps.self _ ⟨kept, old1, polled.changed, below1⟩ rfl
      | true =>
        have polled := second below1 (votes.filter (fun id => id.bit bit = true))
          (select true shouldReset0 shouldReset1 || reset)
        have kept := polled.returned.preference (polled.returnedPresent.trans present)
        split
        · exact ⟨⟨old0, old1, below0, polled.changed⟩, polled.returned, rfl,
            polled.returnedPresent.trans present⟩
        · exact Keeps.self _ ⟨old0, kept, below0, polled.changed⟩ rfl
    · exact Keeps.self _ ⟨old0, old1, below0, below1⟩ rfl

end Node

namespace Tree

/-- The tree decides between choices that satisfy the condition. -/
structure Chooses (choices : ID → Prop) (t : Tree F) : Prop where
  present : t.node.isPresent = true
  node : t.node.Chooses choices

/-- The choices of a tree may be among more. -/
theorem Chooses.mono {choices more : ID → Prop} (implied : ∀ id, choices id → more id)
    {t : Tree F} (chooses : t.Chooses choices) : t.Chooses more :=
  ⟨chooses.present, chooses.node.mono implied⟩

/-- The preference is one of the choices. -/
theorem Chooses.preference {choices : ID → Prop} {t : Tree F} (chooses : t.Chooses choices) :
    choices t.preference := chooses.node.preference chooses.present

/-- A new tree prefers its choice. -/
theorem newTree_chooses {choices : ID → Prop} (params : Parameters) {choice : ID}
    (chosen : choices choice) : (newTree params choice : Tree F).Chooses choices :=
  ⟨rfl, Node.newUnaryNode_chooses params chosen 0⟩

/-- Adding a choice does not change the preference. -/
theorem preference_add (choice : ID) (t : Tree F) : (t.add choice).preference = t.preference := by
  unfold add
  split
  · exact (Node.add_preference t.params choice t.node).1
  · rfl

/-- Adding a choice to the tree adds nothing else. -/
theorem Chooses.add {choices : ID → Prop} {choice : ID} (chosen : choices choice) {t : Tree F}
    (chooses : t.Chooses choices) : (t.add choice).Chooses choices := by
  unfold Tree.add
  split
  · exact ⟨(Node.add_preference t.params choice t.node).2.trans chooses.present,
      Node.add_chooses t.params chosen chooses.node⟩
  · exact chooses

/-- A poll of the tree adds no choice. -/
theorem Chooses.recordPoll {choices : ID → Prop} {t : Tree F} (chooses : t.Chooses choices)
    (votes : Multiset ID) : (t.recordPoll votes).1.Chooses choices := by
  have kept := Node.recordPoll_keeps t.params chooses.node
    (votes.filter (fun id => equalSubset 0 t.node.decidedPrefix t.preference id)) t.shouldReset
  exact ⟨kept.returnedPresent.trans chooses.present, kept.returned⟩

/-- An unsuccessful poll adds no choice. -/
theorem Chooses.recordUnsuccessfulPoll {choices : ID → Prop} {t : Tree F}
    (chooses : t.Chooses choices) : t.recordUnsuccessfulPoll.Chooses choices :=
  ⟨chooses.present, chooses.node⟩

end Tree

end AvalancheParallel.Snowball
