import AvalancheParallel.Engine.AncestorTree
import AvalancheParallel.Engine.Requests
import AvalancheParallel.Engine.Scheduler
import AvalancheParallel.Poll.PollSet
import AvalancheParallel.Snowman.Topological

/-!
# The snowman engine

`Engine` of `snow/engine/snowman/engine.go` feeds blocks and votes to `Topological`. A block
whose parent was not issued yet is pending, and the job that will issue it waits for the
parent; a block that is not available is requested from a peer. A chit is a job that waits for
the blocks it votes for. Blocks that could not be issued are remembered in the ancestor tree, so
that votes for them can be counted for an ancestor.

Jobs run inside the scheduler and call it again. What is left to do of the calls in progress is
a stack of tasks: one step takes a task off the stack, and what it calls goes on the stack
before what it does afterwards. Messages are handled when the stack is empty. What the virtual
machine, the sampling of validators, the eviction from the cache and the orders of iteration
give is part of each step. An error or a panic ends the engine.

Messages to peers are not recorded, apart from the requests and polls that they begin. Which
peer sent a block matters only for a request to it. The ancestor tree is modelled for both
readings of `set.Set`; the sets that consensus and the polls keep are plain sets.
-/

namespace AvalancheParallel.SnowmanEngine

open AvalancheParallel.Ids
open AvalancheParallel.RangeLoop
open AvalancheParallel.Utils
open AvalancheParallel.Engine (Request AncestorTree Scheduler newScheduler)
open AvalancheParallel.Poll (EarlyTermPoll BlockTraversal PollImplementation PollSet newPoll)
open AvalancheParallel.Snowball
open AvalancheParallel.Snowman (Block Topological)

/-- The polls of `NewEarlyTermFactory`. The parents of the blocks are read when `Finished` is
called. -/
def earlyTermPolls (params : Parameters) :
    PollImplementation EarlyTermPoll (BlockTraversal × Poll.PollOrders) (Multiset ID) where
  new choice := newPoll choice.1 params.alphaPreference params.alphaConfidence
  vote vdr voted p := p.vote vdr voted
  drop vdr p := p.drop vdr
  finished choice p := EarlyTermPoll.isFinished choice.2 { p with bt := choice.1 }
  result p := p.votes

/-- The jobs of the engine: `issuer` and `voter`. -/
inductive EngineJob where
  | issuer (blk : Block)
  | voter (nodeID : ShortID) (requestID : UInt32) (responseOptions : List ID)

variable {F : Factory}

/-- `Engine`, with the jobs that were scheduled with dependencies at their addresses. -/
structure Engine (F : Factory) where
  requestID : ℕ
  polls : PollSet EarlyTermPoll
  blkReqs : BiMap Request ID
  pending : GoMap ID Block
  unverifiedIDToAncestor : AncestorTree
  unverifiedBlockCache : GoMap ID Block
  blocked : Scheduler ID
  jobs : List EngineJob
  pendingBuildBlocks : ℕ
  consensus : Topological F

/-- What `Options` of a block returns. -/
inductive OracleAnswer where
  | notOracle
  | failed
  | options (first second : Block)

/-- What the surroundings of the engine answer in one step. -/
structure Answers where
  /-- `VM.GetBlock`. -/
  getBlock : ID → Option Block
  /-- `Verify` of a block. -/
  verify : Block → Bool
  options : Block → OracleAnswer
  /-- `VM.BuildBlock`. -/
  buildBlock : Option Block
  /-- Whether `VM.SetPreference` succeeds. -/
  setPreference : Bool
  /-- The validators sampled for a query, unless it is dropped. -/
  sample : ℕ → Option (Multiset ShortID)
  /-- The blocks that leave the cache when a block is put there. -/
  evicted : List ID
  order : IterationOrder ID
  /-- What `Finished` of a poll reads and chooses, for the poll that was answered. -/
  choice : BlockTraversal × Poll.PollOrders
  /-- The same for the polls that are visited afterwards. -/
  choices : ℕ → BlockTraversal × Poll.PollOrders
  pollOrders : Snowman.PollOrders

/-- What is left to do. -/
inductive Task where
  /-- `Fulfill` or `Abandon` of the scheduler. -/
  | resolve (dependency : ID) (fulfilled : Bool)
  /-- The loop of `resolveDependency`, with the jobs it has not come to. -/
  | visit (dependency : ID) (fulfilled : Bool) (jobs : List ℕ)
  | issueFromByID (nodeID : ShortID) (blkID : ID)
  /-- `issueFrom`, from the condition of its loop on. -/
  | issueFrom (nodeID : ShortID) (blkID : ID) (blk : Block)
  /-- `issueWithAncestors`, from the condition of its loop on. -/
  | issueWithAncestors (blkID : ID) (blk : Block)
  /-- The parent in the loop of `issueWithAncestors`. -/
  | issueParent (blkID : ID)
  | deliver (blk : Block)
  /-- The body of the loop over the options that were added. -/
  | addedOption (blk : Block)
  /-- The body of the loop over the options that were dropped. -/
  | droppedOption (blk : Block)
  /-- Outstanding requests for the block are removed. -/
  | dropRequest (blkID : ID)
  /-- `repoll`, if blocks are processing. -/
  | repollUnlessIdle
  /-- A voter is scheduled. -/
  | scheduleVoter (nodeID : ShortID) (requestID : UInt32) (responseOptions : List ID)
  | executeDeferredWork

namespace Engine

/-- `NumProcessing` of `Topological`. -/
def numProcessing (e : Engine F) : ℤ := e.consensus.blocks.keys.card - 1

/-- `IsPreferred` of `Topological`. -/
def isPreferred (e : Engine F) (blkID : ID) : Bool :=
  decide (blkID = e.consensus.lastAcceptedID) || decide (blkID ∈ e.consensus.preferredIDs)

/-- `getBlock`. -/
def getBlock (answers : Answers) (e : Engine F) (blkID : ID) : Option Block :=
  match e.pending.lookup blkID with
  | some blk => some blk
  | none =>
    match e.unverifiedBlockCache.lookup blkID with
    | some blk => some blk
    | none => answers.getBlock blkID

/-- `isDecided`. -/
def isDecided (e : Engine F) (blk : Block) : Bool :=
  if blk.height ≤ e.consensus.lastAcceptedHeight then true
  else decide (blk.height - 1 = e.consensus.lastAcceptedHeight) &&
    decide (blk.parent ≠ e.consensus.lastAcceptedID)

/-- `shouldIssueBlock`. -/
def shouldIssueBlock (e : Engine F) (blk : Block) : Bool :=
  !e.isDecided blk && !decide (blk.id ∈ e.pending) && !e.consensus.processing blk.id

/-- `canDependOn`. -/
def canDependOn (e : Engine F) (blkID : ID) : Bool :=
  decide (blkID ∈ e.pending) || e.blkReqs.hasValue blkID

/-- `canIssueChildOn`. -/
def canIssueChildOn (e : Engine F) (parentID : ID) : Bool :=
  decide (parentID = e.consensus.lastAcceptedID) || e.consensus.processing parentID

/-- Outstanding requests for a block are removed. -/
def dropRequest (e : Engine F) (blkID : ID) : Engine F :=
  { e with blkReqs := (e.blkReqs.deleteValue blkID).1 }

/-- `sendRequest`. -/
def sendRequest (e : Engine F) (nodeID : ShortID) (blkID : ID) : Engine F :=
  if e.blkReqs.hasValue blkID = true then e
  else
    { e with
      requestID := e.requestID + 1
      blkReqs := e.blkReqs.put ⟨nodeID, UInt32.ofNat (e.requestID + 1)⟩ blkID }

/-- `sendQuery`. -/
def sendQuery (answers : Answers) (e : Engine F) : Engine F :=
  match answers.sample (e.requestID + 1) with
  | none => e
  | some vdrs =>
    { e with
      requestID := e.requestID + 1
      polls := (e.polls.add (earlyTermPolls e.consensus.params) answers.choice
        (UInt32.ofNat (e.requestID + 1)) vdrs).1 }

/-- `repoll`. -/
def repoll (answers : Answers) (e : Engine F) : Engine F :=
  (sendQuery answers)^[
    (e.consensus.params.concurrentRepolls - e.polls.polls.entries.length).toNat] e

/-- `markAsUnverified`. The result `none` is the panic of the ancestor tree's `Add`. -/
def markAsUnverified (answers : Answers) (e : Engine F) (blk : Block) : Option (Engine F) :=
  if e.consensus.processing blk.id = true then some e
  else if e.unverifiedIDToAncestor.has blk.parent = true ∨
      e.consensus.processing blk.parent = true then
    match e.unverifiedIDToAncestor.add blk.id blk.parent with
    | none => none
    | some unverifiedIDToAncestor =>
      some { e with
        unverifiedIDToAncestor := unverifiedIDToAncestor
        unverifiedBlockCache := answers.evicted.foldl (fun cache id => cache.erase id)
          (e.unverifiedBlockCache.insert blk.id blk) }
  else some e

/-- `addUnverifiedBlockToConsensus`. The result `none` is an error or a panic. -/
def addUnverifiedBlockToConsensus (answers : Answers) (e : Engine F) (blk : Block) :
    Option (Engine F × Bool) :=
  if answers.verify blk = false then
    match e.markAsUnverified answers blk with
    | none => none
    | some e => some (e, false)
  else
    match e.consensus.add blk with
    | (_, some _) => none
    | (ts, none) =>
      some ({ e with
        unverifiedIDToAncestor := e.unverifiedIDToAncestor.remove blk.id
        unverifiedBlockCache := e.unverifiedBlockCache.erase blk.id
        consensus := ts }, true)

/-- The loop of `deliver` over the options: those that were added, and those that were not. -/
def addOptions (answers : Answers) :
    List Block → Engine F → List Block → List Block → Option (Engine F × List Block × List Block)
  | [], e, added, dropped => some (e, added, dropped)
  | blk :: options, e, added, dropped =>
    match e.addUnverifiedBlockToConsensus answers blk with
    | none => none
    | some (e, true) => addOptions answers options e (added ++ [blk]) dropped
    | some (e, false) => addOptions answers options e added (dropped ++ [blk])

/-- The blocks that `Options` returns; `none` is an error. -/
def options (answers : Answers) (blk : Block) : Option (List Block) :=
  match answers.options blk with
  | .notOracle => some []
  | .failed => none
  | .options first second => some [first, second]

/-- A query for the block, if it is preferred. -/
def queryIfPreferred (answers : Answers) (e : Engine F) (blk : Block) : Engine F :=
  if e.isPreferred blk.id = true then e.sendQuery answers else e

/-- `deliver`. -/
def deliver (answers : Answers) (e : Engine F) (blk : Block) : Option (Engine F × List Task) :=
  let e := { e with pending := e.pending.erase blk.id }
  if e.canIssueChildOn blk.parent = false ∨ e.consensus.processing blk.id = true then
    some (e, [.resolve blk.id false])
  else
    match e.addUnverifiedBlockToConsensus answers blk with
    | none => none
    | some (e, false) => some (e, [.resolve blk.id false])
    | some (e, true) =>
      match options answers blk with
      | none => none
      | some options =>
        match addOptions answers options e [] [] with
        | none => none
        | some (e, added, dropped) =>
          if answers.setPreference = false then none
          else
            some (e.queryIfPreferred answers blk, .resolve blk.id true ::
              (added.map .addedOption ++ dropped.map .droppedOption ++ [.repollUnlessIdle]))

/-- The loop of `getProcessingAncestor`; the second result is whether there is a vote. -/
def bubble (e : Engine F) : ℕ → ID → Option (Option ID)
  | 0, _ => none
  | fuel + 1, bubbledVote =>
    if e.consensus.processing bubbledVote = true then some (some bubbledVote)
    else
      match e.unverifiedBlockCache.lookup bubbledVote with
      | none => some none
      | some blk => if e.isDecided blk = true then some none else bubble e fuel blk.parent

/-- `getProcessingAncestor`. -/
def getProcessingAncestor (e : Engine F) (initialVote : ID) : Option (Option ID) :=
  match e.unverifiedIDToAncestor.getAncestor initialVote with
  | none => none
  | some bubbledVote => e.bubble (e.unverifiedBlockCache.keys.card + 1) bubbledVote

/-- The loop of `voter.Execute`: the first option with a processing ancestor. -/
def chooseVote (e : Engine F) : List ID → Option (Option ID)
  | [] => some none
  | voteOption :: rest =>
    match e.getProcessingAncestor voteOption with
    | none => none
    | some (some vote) => some (some vote)
    | some none => chooseVote e rest

/-- `Accept` and `Reject` of memory blocks take blocks out of the ancestor tree. The order of the
calls does not matter to what is left. -/
def forget (order : IterationOrder ID) : List ID → AncestorTree → Option AncestorTree
  | [], t => some t
  | blkID :: rest, t =>
    match t.removeDescendants order blkID with
    | none => none
    | some t => forget order rest t

/-- `RecordPoll`, with the calls of `Accept` and `Reject` that it makes. -/
def recordPoll (answers : Answers) (e : Engine F) (bag : Multiset ID) : Option (Engine F) :=
  match e.consensus.recordPoll answers.pollOrders bag with
  | none => none
  | some ts =>
    let accepted := ts.accepted.drop e.consensus.accepted.length
    let rejected := ts.rejected.drop e.consensus.rejected.length
    match forget answers.order (accepted.map Block.parent ++ rejected.map Block.id)
        e.unverifiedIDToAncestor with
    | none => none
    | some t => some { e with consensus := ts, unverifiedIDToAncestor := t }

/-- The response given to the polls. -/
def respond (answers : Answers) (e : Engine F) (nodeID : ShortID) (requestID : UInt32) :
    Option ID → PollSet EarlyTermPoll × List (ℕ × Multiset ID)
  | some vote => e.polls.vote (earlyTermPolls e.consensus.params) answers.choice answers.choices
      requestID nodeID vote
  | none => e.polls.drop (earlyTermPolls e.consensus.params) answers.choice answers.choices
      requestID nodeID

/-- `voter.Execute`. -/
def executeVoter (answers : Answers) (e : Engine F) (nodeID : ShortID) (requestID : UInt32)
    (responseOptions : List ID) : Option (Engine F) :=
  match e.chooseVote responseOptions with
  | none => none
  | some vote =>
    let answered := e.respond answers nodeID requestID vote
    let e := { e with polls := answered.1 }
    if answered.2.isEmpty = true then some e
    else
      match (answered.2.map Prod.snd).foldlM (recordPoll answers) e with
      | none => none
      | some e =>
        if answers.setPreference = false then none
        else if e.numProcessing = 0 then some e
        else some (e.repoll answers)

/-- `Execute` of a job. -/
def execute (answers : Answers) (e : Engine F) (abandoned : List ID) :
    EngineJob → Option (Engine F × List Task)
  | .issuer blk =>
    if abandoned.length = 0 then e.deliver answers blk
    else
      match { e with pending := e.pending.erase blk.id }.markAsUnverified answers blk with
      | none => none
      | some e => some (e, [.resolve blk.id false])
  | .voter nodeID requestID responseOptions =>
    match e.executeVoter answers nodeID requestID responseOptions with
    | none => none
    | some e => some (e, [])

/-- `Schedule` of the scheduler. -/
def schedule (answers : Answers) (e : Engine F) (job : EngineJob) (dependencies : List ID) :
    Option (Engine F × List Task) :=
  if dependencies.length = 0 then e.execute answers [] job
  else
    some ({ e with
      blocked := e.blocked.schedule e.jobs.length dependencies
      jobs := e.jobs ++ [job] }, [])

/-- `issue`. -/
def issue (answers : Answers) (e : Engine F) (blk : Block) : Option (Engine F × List Task) :=
  let e := { e with pending := e.pending.insert blk.id blk }
  let e := e.dropRequest blk.id
  e.schedule answers (.issuer blk)
    (if e.canIssueChildOn blk.parent = true then [] else [blk.parent])

/-- One iteration of the loop of `resolveDependency`. -/
def visitJob (answers : Answers) (e : Engine F) (dependency : ID) (fulfilled : Bool) (j : ℕ) :
    Option (Engine F × List Task) :=
  let job := (e.blocked.jobs j).resolve dependency fulfilled
  let e := { e with
    blocked := { e.blocked with jobs := Function.update e.blocked.jobs j job } }
  if job.numUnresolved > 0 then some (e, [])
  else
    match e.jobs[j]? with
    | none => none
    | some userJob => e.execute answers job.abandoned userJob

/-- One task: the engine after it, and the tasks that it leaves; `none` is an error or a
panic. -/
def step (answers : Answers) (e : Engine F) : Task → Option (Engine F × List Task)
  | .resolve dependency fulfilled =>
    some ({ e with blocked := e.blocked.delete dependency },
      [.visit dependency fulfilled (e.blocked.waiting dependency)])
  | .visit _ _ [] => some (e, [])
  | .visit dependency fulfilled (j :: rest) =>
    match e.visitJob answers dependency fulfilled j with
    | none => none
    | some (e, tasks) => some (e, tasks ++ [.visit dependency fulfilled rest])
  | .issueFromByID nodeID blkID =>
    match e.getBlock answers blkID with
    | none => some (e.sendRequest nodeID blkID, [])
    | some blk => some (e, [.issueFrom nodeID blkID blk])
  | .issueFrom nodeID blkID blk =>
    if e.shouldIssueBlock blk = true then
      match e.issue answers blk with
      | none => none
      | some (e, tasks) => some (e, tasks ++ [.issueFromByID nodeID blk.parent])
    else
      let e := e.dropRequest blkID
      some (e, if blkID ∈ e.pending then [] else [.resolve blkID false])
  | .issueWithAncestors blkID blk =>
    if e.shouldIssueBlock blk = true then
      match e.issue answers blk with
      | none => none
      | some (e, tasks) => some (e, tasks ++ [.issueParent blk.parent])
    else some (e, if e.blkReqs.hasValue blkID = true then [] else [.resolve blkID false])
  | .issueParent blkID =>
    match e.getBlock answers blkID with
    | none => some (e, if e.blkReqs.hasValue blkID = true then [] else [.resolve blkID false])
    | some blk => some (e, [.issueWithAncestors blkID blk])
  | .deliver blk => e.deliver answers blk
  | .addedOption blk =>
    let e := e.queryIfPreferred answers blk
    some ({ e with pending := e.pending.erase blk.id },
      [.resolve blk.id true, .dropRequest blk.id])
  | .droppedOption blk =>
    some ({ e with pending := e.pending.erase blk.id },
      [.resolve blk.id false, .dropRequest blk.id])
  | .dropRequest blkID => some (e.dropRequest blkID, [])
  | .repollUnlessIdle => some (if e.numProcessing = 0 then e else e.repoll answers, [])
  | .scheduleVoter nodeID requestID responseOptions =>
    e.schedule answers (.voter nodeID requestID responseOptions)
      (responseOptions.filter e.canDependOn)
  | .executeDeferredWork =>
    if 0 < e.pendingBuildBlocks ∧ e.numProcessing < e.consensus.params.optimalProcessing then
      let e := { e with pendingBuildBlocks := e.pendingBuildBlocks - 1 }
      match answers.buildBlock with
      | none => some (e, [])
      | some blk => some (e, [.issueWithAncestors blk.id blk, .executeDeferredWork])
    else some (e, [])

end Engine

/-- The messages that the engine handles. A block that could not be parsed is `none`; the last
accepted block that a peer reported earlier is part of a failed query. -/
inductive Message where
  | put (nodeID : ShortID) (requestID : UInt32) (blk : Option Block)
  | getFailed (nodeID : ShortID) (requestID : UInt32)
  | pullQuery (nodeID : ShortID) (blkID : ID)
  | pushQuery (nodeID : ShortID) (blk : Option Block)
  | chits (nodeID : ShortID) (requestID : UInt32) (preferredID preferredIDAtHeight : ID)
  | queryFailed (nodeID : ShortID) (requestID : UInt32) (lastAccepted : Option ID)
  /-- `Notify` of pending transactions. -/
  | pendingTxs
  /-- `Gossip`, with whether a validator was sampled. -/
  | gossip (sampled : Bool)

namespace Engine

/-- `GetFailed`. -/
def getFailed (e : Engine F) (nodeID : ShortID) (requestID : UInt32) : Engine F × List Task :=
  match e.blkReqs.deleteKey ⟨nodeID, requestID⟩ with
  | (_, none) => (e, [])
  | (rest, some blkID) =>
    ({ e with blkReqs := rest }, [.resolve blkID false, .executeDeferredWork])

/-- `Chits`. -/
def chits (e : Engine F) (nodeID : ShortID) (requestID : UInt32)
    (preferredID preferredIDAtHeight : ID) : Engine F × List Task :=
  if preferredID ≠ preferredIDAtHeight then
    (e, [.issueFromByID nodeID preferredID, .issueFromByID nodeID preferredIDAtHeight,
      .scheduleVoter nodeID requestID [preferredID, preferredIDAtHeight], .executeDeferredWork])
  else
    (e, [.issueFromByID nodeID preferredID, .scheduleVoter nodeID requestID [preferredID],
      .executeDeferredWork])

/-- The engine and the tasks after a message. -/
def handle (e : Engine F) : Message → Engine F × List Task
  | .put nodeID requestID none => e.getFailed nodeID requestID
  | .put nodeID requestID (some blk) =>
    match e.blkReqs.getValue ⟨nodeID, requestID⟩ with
    | some expectedBlkID =>
      if blk.id ≠ expectedBlkID then e.getFailed nodeID requestID
      else (e, [.issueFrom nodeID blk.id blk, .executeDeferredWork])
    | none => (e, [.issueFrom nodeID blk.id blk, .executeDeferredWork])
  | .getFailed nodeID requestID => e.getFailed nodeID requestID
  | .pullQuery nodeID blkID => (e, [.issueFromByID nodeID blkID, .executeDeferredWork])
  | .pushQuery _ none => (e, [])
  | .pushQuery nodeID (some blk) => (e, [.issueFrom nodeID blk.id blk, .executeDeferredWork])
  | .chits nodeID requestID preferredID preferredIDAtHeight =>
    e.chits nodeID requestID preferredID preferredIDAtHeight
  | .queryFailed nodeID requestID (some lastAcceptedID) =>
    e.chits nodeID requestID lastAcceptedID lastAcceptedID
  | .queryFailed nodeID requestID none =>
    (e, [.scheduleVoter nodeID requestID [], .executeDeferredWork])
  | .pendingTxs =>
    ({ e with pendingBuildBlocks := e.pendingBuildBlocks + 1 }, [.executeDeferredWork])
  | .gossip sampled =>
    if e.numProcessing ≠ 0 then (e, [.repollUnlessIdle])
    else (if sampled = true then { e with requestID := e.requestID + 1 } else e, [])

end Engine

/-- A running engine with what is left to do, or none after an error or a panic. -/
abbrev Machine (F : Factory) := Option (Engine F × List Task)

/-- A message arrives, or the next task is done. -/
inductive Action where
  | receive (message : Message)
  | advance (answers : Answers)

def Machine.step : Machine F → Action → Machine F
  | none, _ => none
  | some (e, []), .receive message => some (e.handle message)
  | some (e, task :: tasks), .receive _ => some (e, task :: tasks)
  | some (e, []), .advance _ => some (e, [])
  | some (e, task :: tasks), .advance answers =>
    match e.step answers task with
    | none => none
    | some (e, first) => some (e, first ++ tasks)

/-- `New` and `Start`: consensus begins at the last accepted block, and the options of an oracle
block are delivered. -/
def start (sets : SetReading) (startReqID : UInt32) (consensus : Topological F)
    (options : List Block) : Machine F :=
  some ({ requestID := startReqID.toNat
          polls := PollSet.newSet
          blkReqs := BiMap.new
          pending := ∅
          unverifiedIDToAncestor := AncestorTree.new sets
          unverifiedBlockCache := ∅
          blocked := newScheduler
          jobs := []
          pendingBuildBlocks := 0
          consensus := consensus }, options.map .deliver ++ [.executeDeferredWork])

end AvalancheParallel.SnowmanEngine
