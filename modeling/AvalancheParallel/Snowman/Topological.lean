import AvalancheParallel.Snowball.Tree

/-!
# Topological

`Topological` of `default/snow/consensus/snowman/topological.go`: a tree of processing
blocks above the last accepted one, with a snowball instance over the children of each
block. Sets and bags are finite sets and multisets, heights are natural numbers.

A poll first pushes the votes towards the last accepted block by a topological sort, which
leaves a stack of the blocks whose children received an alpha majority. The polls are then
recorded from the last accepted block upwards; a finalized child of the last accepted block
is accepted, and its siblings are rejected with all their descendants. At last the
preference is recomputed, unless it is known not to have changed.

The Kahn nodes and the leaves are cleared by each poll and are local to it. Slices used as
stacks are lists whose head is the end of the slice. The result `none` of a function is a
nil dereference, or a loop that exceeds its number of iterations. `Accept` and `Reject` of
blocks do not fail; the blocks on which `Add` succeeded, `Accept` and `Reject` were called
are listed in the order of the calls, and no code reads these lists.
-/

namespace AvalancheParallel.Snowman

open AvalancheParallel.Ids AvalancheParallel.RangeLoop AvalancheParallel.Snowball

/-- What the tree reads of a `Block`. -/
structure Block where
  id : ID
  parent : ID
  height : ℕ
deriving DecidableEq

/-- `snowmanBlock`; the pointer to `Topological` is an argument where it is used. -/
structure SnowmanBlock (F : Factory) where
  blk : Option Block
  shouldFalter : Bool
  sb : Option (Tree F)
  children : GoMap ID Block

variable {F : Factory}

namespace SnowmanBlock

/-- `AddChild`. -/
def addChild (params : Parameters) (child : Block) (n : SnowmanBlock F) : SnowmanBlock F :=
  match n.sb with
  | none =>
    { n with
      sb := some (Tree.newTree params child.id)
      children := (∅ : GoMap ID Block).insert child.id child }
  | some sb =>
    { n with
      sb := some (sb.add child.id)
      children := n.children.insert child.id child }

/-- `Decided`. -/
def decided (lastAcceptedHeight : ℕ) (n : SnowmanBlock F) : Bool :=
  match n.blk with
  | none => true
  | some blk => decide (blk.height ≤ lastAcceptedHeight)

/-- The block of a node that is not `Decided`. -/
def pending (lastAcceptedHeight : ℕ) (n : SnowmanBlock F) : Option Block :=
  if n.decided lastAcceptedHeight then none else n.blk

/-- The height of the block; the iterations of the walks to the ancestors. -/
def height (n : SnowmanBlock F) : ℕ :=
  match n.blk with
  | none => 0
  | some blk => blk.height

end SnowmanBlock

/-- `Topological`, with the lists of the calls. -/
structure Topological (F : Factory) where
  params : Parameters
  lastAcceptedID : ID
  lastAcceptedHeight : ℕ
  blocks : GoMap ID (SnowmanBlock F)
  preferredIDs : Finset ID
  preferredHeights : GoMap ℕ ID
  preference : ID
  issued : List Block
  accepted : List Block
  rejected : List Block

/-- `kahnNode`. -/
structure KahnNode where
  inDegree : ℤ
  votes : Multiset ID

/-- `kahnNodes` and `leaves`. -/
structure Kahn where
  nodes : GoMap ID KahnNode
  leaves : Finset ID

/-- Reading a missing entry gives the zero value. -/
def Kahn.node (k : Kahn) (id : ID) : KahnNode := (k.nodes.lookup id).getD ⟨0, 0⟩

/-- `votes`. -/
structure Votes where
  parentID : ID
  votes : Multiset ID

/-- The errors of `Add`. -/
inductive AddError where
  | duplicateAdd
  | unknownParentBlock
deriving DecidableEq, Repr

/-- The orders in which a poll visits the votes, pops the leaves and visits children. -/
structure PollOrders where
  votes : IterationOrder ID
  leaves : IterationOrder ID
  children : IterationOrder ID

/-- `ids.Empty`. -/
def emptyID : ID := Vector.replicate 32 0

namespace Topological

/-- `Initialize`. -/
def initializeAt (params : Parameters) (lastAcceptedID : ID) (lastAcceptedHeight : ℕ) :
    Except ParametersError (Topological F) :=
  match params.verify with
  | some error => .error error
  | none => .ok
    { params := params
      lastAcceptedID := lastAcceptedID
      lastAcceptedHeight := lastAcceptedHeight
      blocks := (∅ : GoMap ID (SnowmanBlock F)).insert lastAcceptedID ⟨none, false, none, ∅⟩
      preferredIDs := ∅
      preferredHeights := ∅
      preference := lastAcceptedID
      issued := []
      accepted := []
      rejected := [] }

/-- `Processing`. -/
def processing (ts : Topological F) (id : ID) : Bool :=
  if id = ts.lastAcceptedID then false else decide (id ∈ ts.blocks)

/-- `Add`. -/
def add (blk : Block) (ts : Topological F) : Topological F × Option AddError :=
  if ts.processing blk.id then (ts, some .duplicateAdd)
  else
    match ts.blocks.lookup blk.parent with
    | none => (ts, some .unknownParentBlock)
    | some parentNode =>
      let ts := { ts with
        blocks := (ts.blocks.insert blk.parent (parentNode.addChild ts.params blk)).insert blk.id
          ⟨some blk, false, none, ∅⟩
        issued := ts.issued ++ [blk] }
      if ts.preference = blk.parent then
        ({ ts with
          preference := blk.id
          preferredIDs := insert blk.id ts.preferredIDs
          preferredHeights := ts.preferredHeights.insert blk.height blk.id }, none)
      else (ts, none)

/-- The inner loop of `calculateInDegree`: the in-degrees of the ancestors of a block are
increased up to the first one seen before. -/
def markAncestors (ts : Topological F) : ℕ → ID → Kahn → Option Kahn
  | fuel, parentID, k =>
    match ts.blocks.lookup parentID with
    | none => none
    | some n =>
      match n.pending ts.lastAcceptedHeight with
      | none => some k
      | some blk =>
        match fuel with
        | 0 => none
        | fuel + 1 =>
          let kahn := k.node blk.parent
          let nodes := k.nodes.insert blk.parent { kahn with inDegree := kahn.inDegree + 1 }
          if blk.parent ∈ k.nodes then some ⟨nodes, k.leaves.erase blk.parent⟩
          else markAncestors ts fuel blk.parent ⟨nodes, k.leaves⟩

/-- The body of the loop of `calculateInDegree`. -/
def countVote (ts : Topological F) (bag : Multiset ID) (k : Kahn) (vote : ID) : Option Kahn :=
  match ts.blocks.lookup vote with
  | none => some k
  | some votedBlock =>
    match votedBlock.pending ts.lastAcceptedHeight with
    | none => some k
    | some blk =>
      let kahn := k.node blk.parent
      let nodes := k.nodes.insert blk.parent
        { kahn with votes := kahn.votes + Multiset.replicate (bag.count vote) vote }
      if blk.parent ∈ k.nodes then some ⟨nodes, k.leaves⟩
      else ts.markAncestors blk.height blk.parent ⟨nodes, insert blk.parent k.leaves⟩

/-- `calculateInDegree`. -/
def calculateInDegree (order : IterationOrder ID) (bag : Multiset ID) (ts : Topological F) :
    Option Kahn :=
  (order.arrange bag.toFinset).foldlM (ts.countVote bag) ⟨∅, ∅⟩

/-- `pushVotes`, from a stack. -/
def pushVotes (order : IterationOrder ID) (ts : Topological F) :
    ℕ → Kahn → List Votes → Option (List Votes)
  | fuel, k, voteStack =>
    match order.arrange k.leaves with
    | [] => some voteStack
    | leafID :: _ =>
      match fuel with
      | 0 => none
      | fuel + 1 =>
        match ts.blocks.lookup leafID with
        | none => none
        | some block =>
          let kahnNode := k.node leafID
          let voteStack := if ts.params.alphaPreference ≤ (kahnNode.votes.card : ℤ) then
            ⟨leafID, kahnNode.votes⟩ :: voteStack else voteStack
          let leaves := k.leaves.erase leafID
          match block.pending ts.lastAcceptedHeight with
          | none => pushVotes order ts fuel ⟨k.nodes, leaves⟩ voteStack
          | some blk =>
            let parentKahnNode : KahnNode :=
              ⟨(k.node blk.parent).inDegree - 1,
                (k.node blk.parent).votes + Multiset.replicate kahnNode.votes.card leafID⟩
            let nodes := k.nodes.insert blk.parent parentKahnNode
            if parentKahnNode.inDegree = 0 then
              pushVotes order ts fuel ⟨nodes, insert blk.parent leaves⟩ voteStack
            else pushVotes order ts fuel ⟨nodes, leaves⟩ voteStack

/-- `rejectTransitively`. -/
def rejectTransitively (order : IterationOrder ID) :
    ℕ → List ID → Topological F → Option (Topological F)
  | _, [], ts => some ts
  | 0, _ :: _, _ => none
  | fuel + 1, rejectedID :: rejected, ts =>
    match ts.blocks.lookup rejectedID with
    | none => none
    | some rejectedNode =>
      rejectTransitively order fuel
        ((order.arrange rejectedNode.children.keys).reverse ++ rejected)
        { ts with
          blocks := ts.blocks.erase rejectedID
          rejected := ts.rejected ++ order.values rejectedNode.children }

/-- `acceptPreferredChild`, with the snowball instance of the block. -/
def acceptPreferredChild (order : IterationOrder ID) (n : SnowmanBlock F) (sb : Tree F)
    (ts : Topological F) : Option (Topological F) :=
  let pref := sb.preference
  match n.children.lookup pref with
  | none => none
  | some child =>
    let siblings := n.children.erase pref
    rejectTransitively order ts.blocks.keys.card (order.arrange siblings.keys).reverse
      { ts with
        lastAcceptedID := pref
        lastAcceptedHeight := child.height
        preferredIDs := ts.preferredIDs.erase pref
        preferredHeights := ts.preferredHeights.erase child.height
        accepted := ts.accepted ++ [child]
        rejected := ts.rejected ++ order.values siblings }

/-- The confidence of a child that is still in the tree is to be reset. -/
def deferReset (ts : Topological F) (childID : ID) : Topological F :=
  match ts.blocks.lookup childID with
  | none => ts
  | some childBlock =>
    { ts with blocks := ts.blocks.insert childID { childBlock with shouldFalter := true } }

/-- The body of the loop of `vote`, up to the reset of the children, on the block that is voted
on and its snowball instance: the instance after the poll, and the state. -/
def recordVotes (order : IterationOrder ID) (vote : Votes) (parentBlock : SnowmanBlock F)
    (sb : Tree F) (ts : Topological F) : Option (Tree F × Topological F) :=
  let faltered := if parentBlock.shouldFalter then sb.recordUnsuccessfulPoll else sb
  let polled := (faltered.recordPoll vote.votes).1
  let parentBlock := { parentBlock with shouldFalter := false, sb := some polled }
  let ts := { ts with blocks := ts.blocks.insert vote.parentID parentBlock }
  if polled.finalized ∧ ts.lastAcceptedID = vote.parentID then
    match ts.acceptPreferredChild order parentBlock polled with
    | none => none
    | some ts => some (polled, { ts with blocks := ts.blocks.erase vote.parentID })
  else some (polled, ts)

/-- The loop of `vote`. -/
def applyVotes (order : IterationOrder ID) :
    List Votes → ID → Bool → Topological F → Option (ID × Topological F)
  | [], newPreferred, _, ts => some (newPreferred, ts)
  | vote :: voteStack, newPreferred, onPreferredBranch, ts =>
    match ts.blocks.lookup vote.parentID with
    | none => some (newPreferred, ts)
    | some parentBlock =>
      match parentBlock.sb with
      | none => none
      | some sb =>
        match ts.recordVotes order vote parentBlock sb with
        | none => none
        | some (polled, ts) =>
          let newPreferred := if onPreferredBranch then polled.preference else newPreferred
          let nextID := (voteStack.head?.map Votes.parentID).getD emptyID
          let reset := (order.arrange parentBlock.children.keys).filter
            (fun childID => parentBlock.shouldFalter || decide (childID ≠ nextID))
          applyVotes order voteStack newPreferred
            (onPreferredBranch && decide (nextID = polled.preference))
            (reset.foldl deferReset ts)

/-- `vote`. -/
def vote (order : IterationOrder ID) (voteStack : List Votes) (ts : Topological F) :
    Option (ID × Topological F) :=
  match voteStack with
  | [] =>
    if ts.lastAcceptedID ∈ ts.blocks then some (ts.preference, ts.deferReset ts.lastAcceptedID)
    else none
  | voteStack => ts.applyVotes order voteStack ts.lastAcceptedID true

/-- The first loop at the end of `RecordPoll`: the preferred block and its ancestors. -/
def preferAncestors : ℕ → SnowmanBlock F → Topological F → Option (Topological F)
  | fuel, block, ts =>
    match block.pending ts.lastAcceptedHeight with
    | none => some ts
    | some blk =>
      match fuel with
      | 0 => none
      | fuel + 1 =>
        match ts.blocks.lookup blk.parent with
        | none => none
        | some parentBlock =>
          preferAncestors fuel parentBlock
            { ts with
              preferredIDs := insert blk.id ts.preferredIDs
              preferredHeights := ts.preferredHeights.insert blk.height blk.id }

/-- The second loop at the end of `RecordPoll`: the preferred children, until there are none. -/
def preferDescendants : ℕ → SnowmanBlock F → Topological F → Option (Topological F)
  | fuel, block, ts =>
    match block.sb with
    | none => some ts
    | some sb =>
      match fuel with
      | 0 => none
      | fuel + 1 =>
        match ts.blocks.lookup sb.preference with
        | none => none
        | some next =>
          match next.blk with
          | none => none
          | some blk =>
            preferDescendants fuel next
              { ts with
                preference := sb.preference
                preferredIDs := insert sb.preference ts.preferredIDs
                preferredHeights := ts.preferredHeights.insert blk.height sb.preference }

/-- The end of `RecordPoll`, with the block returned by `vote`. -/
def updatePreference (preferred : ID) (ts : Topological F) : Option (Topological F) :=
  if preferred ∈ ts.preferredIDs then some ts
  else
    match ts.blocks.lookup preferred with
    | none => none
    | some startBlock =>
      match preferAncestors startBlock.height startBlock
        { ts with preferredIDs := ∅, preferredHeights := ∅, preference := preferred } with
      | none => none
      | some ts => preferDescendants ts.blocks.keys.card startBlock ts

/-- The votes that are recorded for a bag. -/
def voteStack (orders : PollOrders) (bag : Multiset ID) (ts : Topological F) :
    Option (List Votes) :=
  if ts.params.alphaPreference ≤ (bag.card : ℤ) then
    match ts.calculateInDegree orders.votes bag with
    | none => none
    | some k => ts.pushVotes orders.leaves k.nodes.keys.card k []
  else some []

/-- `RecordPoll`. -/
def recordPoll (orders : PollOrders) (bag : Multiset ID) (ts : Topological F) :
    Option (Topological F) :=
  match ts.voteStack orders bag with
  | none => none
  | some voteStack =>
    match ts.vote orders.children voteStack with
    | none => none
    | some (preferred, ts) => ts.updatePreference preferred

end Topological

/-- The calls; the choices of a poll are part of it. -/
inductive Call where
  | add (blk : Block)
  | recordPoll (orders : PollOrders) (bag : Multiset ID)

/-- One call; the state is lost where the code would panic or not return. -/
def call : Option (Topological F) → Call → Option (Topological F)
  | none, _ => none
  | some ts, .add blk => some (ts.add blk).1
  | some ts, .recordPoll orders bag => ts.recordPoll orders bag

end AvalancheParallel.Snowman
