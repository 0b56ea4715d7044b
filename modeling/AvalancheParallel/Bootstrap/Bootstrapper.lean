import AvalancheParallel.Bootstrap.ChainSync
import AvalancheParallel.Engine.Requests

/-!
# The bootstrapper

The bootstrapper fetches the blocks that the network accepted together with their ancestors,
and executes them once nothing is missing. `missingBlockIDs` are the blocks it knows it
needs; each of them is requested from a peer and `outstandingRequests` remembers which
request asked for which block. Peers answer with any bytes, or not at all; a request that
fails or is answered with something else is made again. A node that stops, or fails, starts
again from its database.

The model has the handlers of the messages and timeouts of this phase. What the polls of the
network return, what the virtual machine and the peers answer and whether a write to disk
succeeds is chosen by the environment of each step. A handler that begins the polls ends there;
their outcome is another event, also when there is nobody to ask and they are over at once.

`missingBlockIDs` is a variable of type `set.Set` that is nil until something is added to it. With
the interface of `set.go` the first call of one of its methods panics; with a map all goes well.
-/

namespace AvalancheParallel.Bootstrap

open AvalancheParallel.Ids
open AvalancheParallel.RangeLoop (GoMap IterationOrder)
open AvalancheParallel.Utils
open AvalancheParallel.Engine (Request)
open AvalancheParallel.Database
open AvalancheParallel.ByteOrder
open AvalancheParallel.Runs
open AvalancheParallel.Bootstrap.IntervalTree
open AvalancheParallel.Bootstrap.BlockStorage

/-- What the environment answers during one handler. -/
structure Environment where
  /-- The order in which the missing blocks are visited. -/
  order : IterationOrder ID
  /-- `VM.GetBlock`. -/
  getBlock : ID → Option Block
  /-- Whether there are beacons to ask in the polls. -/
  beacons : Bool
  /-- The peer selected for a request, or the node itself when none is connected. -/
  selectPeer : ℕ → ShortID
  /-- Whether the batch of the blocks processed from this one on is written. -/
  writes : ID → Bool
  /-- The answers during an execution. -/
  outcomes : ℕ → Outcome
  /-- `Halted`, after an execution. -/
  halted : Bool
  /-- `BootstrapTracker.IsBootstrapped`. -/
  subnetBootstrapped : Bool

/-- What bootstrapping reads and writes: the fields of `Bootstrapper`, its database, and the
blocks that the virtual machine accepted after the block it started from. -/
structure Bootstrapper (B : Type) where
  /-- The number of requests made; a request carries it as a 32-bit word. -/
  requestID : ℕ
  outstandingRequests : BiMap Request ID
  tree : IntervalTree.Tree B
  missingBlockIDs : SetVariable ID
  executedStateTransitions : UInt64
  awaitingTimeout : Bool
  db : MemDb
  start : Block
  accepted : List Block
  /-- `startSyncing` was called since the last start or restart. -/
  syncing : Bool
  /-- `onFinished` was called. -/
  finished : Bool
  /-- No handler returned an error or panicked. -/
  running : Bool

namespace Bootstrapper

section

variable {B : Type}

/-- `getLastAccepted`. -/
def getLastAccepted (b : Bootstrapper B) : Block := b.accepted.getLastD b.start

/-- A handler returns an error or panics, and the engine shuts down. -/
def fail (b : Bootstrapper B) : Bootstrapper B := { b with running := false }

/-- `Bootstrapper.fetch`. -/
def fetch (env : Environment) (b : Bootstrapper B) (blkID : ID) : Bootstrapper B :=
  if b.outstandingRequests.hasValue blkID = true then b
  else
    let requestID := b.requestID + 1
    let request : Request := ⟨env.selectPeer requestID, UInt32.ofNat requestID⟩
    { b with
      requestID := requestID
      outstandingRequests := b.outstandingRequests.put request blkID }

/-- `startBootstrapping`, up to the polls of the network. -/
def startBootstrapping (env : Environment) (b : Bootstrapper B) : Bootstrapper B :=
  if env.beacons = false then b else { b with requestID := b.requestID + 1 }

/-- `restartBootstrapping`. -/
def restartBootstrapping (env : Environment) (b : Bootstrapper B) : Bootstrapper B :=
  startBootstrapping env { b with outstandingRequests := BiMap.new, syncing := false }

/-- What `tryStartExecuting` does after an execution without an error. -/
def afterExecution (env : Environment) (numToExecute : UInt64) (b : Bootstrapper B) :
    Bootstrapper B :=
  if env.halted = true then b
  else
    let previouslyExecuted := b.executedStateTransitions
    let b := { b with executedStateTransitions := numToExecute }
    if 0 < numToExecute ∧ numToExecute < previouslyExecuted / 2 then b.restartBootstrapping env
    else if env.subnetBootstrapped = false then { b with awaitingTimeout := true }
    else { b with finished := true }

/-- The rest of a handler, unless it returned an error. -/
def andThen (next : Bootstrapper B → Bootstrapper B) (b : Bootstrapper B) : Bootstrapper B :=
  if b.running = true then next b else b

/-- The loop of `startSyncing` over the missing blocks: those that the virtual machine does not
have are requested. -/
def fetchMissing (env : Environment) (b : Bootstrapper B) (ids : List ID) : Bootstrapper B :=
  ids.foldl (fun b id => if (env.getBlock id).isNone then fetch env b id else b) b

/-- `GetAncestorsFailed`. -/
def getAncestorsFailed (env : Environment) (b : Bootstrapper B) (request : Request) :
    Bootstrapper B :=
  match b.outstandingRequests.deleteKey request with
  | (_, none) => b
  | (rest, some blkID) => fetch env { b with outstandingRequests := rest } blkID

/-- `Timeout`. An unexpected one is an error that is only logged. -/
def timeout (env : Environment) (b : Bootstrapper B) : Bootstrapper B :=
  if b.awaitingTimeout = false then b
  else
    let b := { b with awaitingTimeout := false }
    if env.subnetBootstrapped = false then b.restartBootstrapping env
    else { b with finished := true }

end

section

variable {ε : Type*} (parse : Bytes → Except ε Block) {B : Type} [BTreeG Pointer B]

/-- `Bootstrapper.process`. -/
def process (env : Environment) (b : Bootstrapper B) (blk : Block) (ancestors : GoMap ID Block) :
    Bootstrapper B :=
  match BlockStorage.process b.getLastAccepted.height ancestors (ancestors.keys.card + 2)
      ⟨b.tree, BatchOps.new, b.missingBlockIDs⟩ blk with
  | none => b.fail
  | some (after, missingBlockID) =>
    let b := { b with tree := after.tree, missingBlockIDs := after.missingBlockIDs }
    if env.writes blk.id = false then b.fail
    else
      let b := { b with db := after.batch.write b.db }
      match missingBlockID with
      | none => b
      | some id =>
        match b.missingBlockIDs.add id with
        | none => b.fail
        | some missingBlockIDs => fetch env { b with missingBlockIDs := missingBlockIDs } id

/-- `tryStartExecuting`. -/
def tryStartExecuting (env : Environment) (b : Bootstrapper B) : Bootstrapper B :=
  match b.missingBlockIDs.len with
  | none => b.fail
  | some numMissingBlockIDs =>
    if numMissingBlockIDs ≠ 0 then b
    else if b.finished = true ∨ b.awaitingTimeout = true then b
    else
      match execute parse b.getLastAccepted.height env.outcomes
        ((getBlockIterator b.db).length + 1) b.db b.tree b.accepted with
      | none => b.fail
      | some (final, error) =>
        let executed := { b with db := final.db, tree := final.tree, accepted := final.accepted }
        match error with
        | some _ => executed.fail
        | none => afterExecution env b.tree.len executed

/-- `startSyncing`, with the blocks that the polls returned and the checkpoints. -/
def startSyncing (env : Environment) (b : Bootstrapper B) (acceptedBlockIDs : Finset ID) :
    Bootstrapper B :=
  match b.missingBlockIDs.union acceptedBlockIDs with
  | none => b.fail
  | some missingBlockIDs =>
    let b := { b with missingBlockIDs := missingBlockIDs, syncing := true }
    let ids := env.order.arrange b.missingBlockIDs.elements
    let toProcess := ids.filterMap env.getBlock
    andThen (tryStartExecuting parse env)
      (toProcess.foldl (fun b blk => andThen (fun b => process env b blk ∅) b)
        (fetchMissing env b ids))

/-- `Ancestors`: the blocks parsed from the answer, or `none` if there are none or they cannot be
parsed. -/
def ancestors (env : Environment) (b : Bootstrapper B) (request : Request)
    (blocks : Option (List Block)) : Bootstrapper B :=
  match b.outstandingRequests.deleteKey request with
  | (_, none) => b
  | (rest, some wantedBlkID) =>
    let b := { b with outstandingRequests := rest }
    match blocks with
    | none => fetch env b wantedBlkID
    | some [] => fetch env b wantedBlkID
    | some (requestedBlock :: others) =>
      if requestedBlock.id ≠ wantedBlkID then fetch env b wantedBlkID
      else
        let supplied : GoMap ID Block :=
          others.foldl (fun blocks blk => blocks.insert blk.id blk) ∅
        andThen (tryStartExecuting parse env) (process env b requestedBlock supplied)

/-- `New` and `Start` of a node over the database and the virtual machine that are there. -/
def startNode (b : Bootstrapper B) (startReqID : UInt32) : Bootstrapper B :=
  match Tree.newTree b.db with
  | .error _ => b.fail
  | .ok tree =>
    match getMissingBlockIDs b.missingBlockIDs.reading parse b.db tree b.getLastAccepted.height with
    | .error _ => b.fail
    | .ok missing =>
      { requestID := startReqID.toNat
        outstandingRequests := BiMap.new
        tree := tree
        missingBlockIDs := missing
        executedStateTransitions := 9223372036854775807
        awaitingTimeout := false
        db := b.db
        start := b.start
        accepted := b.accepted
        syncing := false
        finished := false
        running := true }

end

end Bootstrapper

/-- What happens to a bootstrapping node. -/
inductive Event
  | startNode (startReqID : UInt32)
  /-- The polls begin: enough peers are connected, or the polls before returned no block. -/
  | startBootstrapping
  | startSyncing (acceptedBlockIDs : Finset ID)
  | ancestors (request : Request) (blocks : Option (List Block))
  | getAncestorsFailed (request : Request)
  | timeout
  | crash

section

variable {B : Type} [BTreeG Pointer B]

/-- A step is an event in an environment. A node that failed or crashed does nothing until it is
started again. -/
def Bootstrapper.step {ε : Type*} (parse : Bytes → Except ε Block) (b : Bootstrapper B) :
    Event × Environment → Bootstrapper B
  | (.startNode startReqID, _) => b.startNode parse startReqID
  | (.crash, _) => b.fail
  | (.startBootstrapping, env) => Bootstrapper.andThen (fun b => b.startBootstrapping env) b
  | (.startSyncing acceptedBlockIDs, env) =>
    Bootstrapper.andThen (fun b => b.startSyncing parse env acceptedBlockIDs) b
  | (.ancestors request blocks, env) =>
    Bootstrapper.andThen (fun b => b.ancestors parse env request blocks) b
  | (.getAncestorsFailed request, env) =>
    Bootstrapper.andThen (fun b => b.getAncestorsFailed env request) b
  | (.timeout, env) => Bootstrapper.andThen (fun b => b.timeout env) b

/-- A node that has not started yet, with nothing stored. -/
def Bootstrapper.initial (sets : SetReading) (start : Block) : Bootstrapper B where
  requestID := 0
  outstandingRequests := BiMap.new
  tree := Tree.empty
  missingBlockIDs := SetVariable.nil sets
  executedStateTransitions := 9223372036854775807
  awaitingTimeout := false
  db := SortedStore.Store.empty
  start := start
  accepted := []
  syncing := false
  finished := false
  running := false

end

/-! ## The accepted chain -/

section

variable {ε : Type*} {parse : Bytes → Except ε Block} (chain : Chain parse)
  {B : Type} [BTreeG Pointer B]

/-- The polls and the checkpoints name blocks of the chain; the virtual machine and the peers may
answer with any block, but an identifier of the chain names one block only. -/
def Honest : Event × Environment → Prop
  | (.startSyncing acceptedBlockIDs, env) =>
    (∀ id ∈ acceptedBlockIDs, chain.Names id) ∧
      ∀ id blk, env.getBlock id = some blk → blk.id = id ∧ chain.Authentic blk
  | (.ancestors _ (some blocks), _) => ∀ blk ∈ blocks, chain.Authentic blk
  | _ => True

/-- The blocks accepted so far continue the chain, the database can be started from, and a running
node has stored, or misses and knows that it misses, the parent of every stored block. -/
structure Sound (start : UInt64) (b : Bootstrapper B) : Prop where
  begins : start ≤ chain.tip ∧ b.start = chain.block start
  continues : Continues chain b.start.height.toNat b.accepted
  durable : ∃ tree : IntervalTree.Tree B,
    Synced chain b.getLastAccepted.height tree b.db (fun _ => True)
  live : b.running = true →
    Synced chain b.getLastAccepted.height b.tree b.db (· ∈ b.missingBlockIDs.elements)
  named : b.running = true → ∀ id ∈ b.missingBlockIDs.elements, chain.Names id
  requested : b.running = true → ∀ request id,
    b.outstandingRequests.getValue request = some id → chain.Names id

variable {chain} {start : UInt64}

/-- The last accepted block is as far above the first as blocks were accepted, and on the chain. -/
theorem Sound.last_height {b : Bootstrapper B} (sound : Sound chain start b) :
    b.getLastAccepted.height.toNat = b.start.height.toNat + b.accepted.length ∧
      b.getLastAccepted.height ≤ chain.tip := by
  obtain ⟨within, begins⟩ := sound.begins
  have continues := sound.continues
  unfold Bootstrapper.getLastAccepted
  rw [begins] at continues ⊢
  rw [chain.height_block start within] at continues ⊢
  exact Continues.last within continues

/-- There is a height above the last accepted one. -/
theorem Sound.last_height_lt {b : Bootstrapper B} (sound : Sound chain start b)
    (room : chain.tip < maxUint64) : b.getLastAccepted.height < maxUint64 := by
  have within := sound.last_height.2
  rw [UInt64.le_iff_toNat_le] at within
  rw [UInt64.lt_iff_toNat_lt] at room ⊢
  omega

/-- A node that stops keeps what it stored. -/
theorem Sound.fail {b : Bootstrapper B} (sound : Sound chain start b) : Sound chain start b.fail :=
  ⟨sound.begins, sound.continues, sound.durable, by simp [Bootstrapper.fail],
    by simp [Bootstrapper.fail], by simp [Bootstrapper.fail]⟩

/-- Requesting a block of the chain keeps the invariant. -/
theorem Sound.fetch {b : Bootstrapper B} (sound : Sound chain start b) (env : Environment) {id : ID}
    (names : chain.Names id) : Sound chain start (b.fetch env id) := by
  unfold Bootstrapper.fetch
  split
  · exact sound
  · refine ⟨sound.begins, sound.continues, sound.durable, sound.live, sound.named, ?_⟩
    intro running request wanted found
    simp only at found
    rw [BiMap.getValue_put] at found
    split at found
    · rw [← Option.some.inj found]
      exact names
    · split at found
      · cases found
      · exact sound.requested running request wanted found

/-- Asking the beacons keeps the invariant. -/
theorem Sound.startBootstrapping {b : Bootstrapper B} (sound : Sound chain start b)
    (env : Environment) : Sound chain start (b.startBootstrapping env) := by
  unfold Bootstrapper.startBootstrapping
  split
  · exact sound
  · exact ⟨sound.begins, sound.continues, sound.durable, sound.live, sound.named, sound.requested⟩

/-- So does asking them again. -/
theorem Sound.restartBootstrapping {b : Bootstrapper B} (sound : Sound chain start b)
    (env : Environment) : Sound chain start (b.restartBootstrapping env) := by
  apply Sound.startBootstrapping
  refine ⟨sound.begins, sound.continues, sound.durable, sound.live, sound.named, ?_⟩
  intro _ request id found
  rw [BiMap.getValue_new] at found
  cases found

/-- The decision after an execution, to finish or to ask again, keeps the invariant. -/
theorem Sound.afterExecution {b : Bootstrapper B} (sound : Sound chain start b)
    (env : Environment) (numToExecute : UInt64) :
    Sound chain start (b.afterExecution env numToExecute) := by
  have counted : Sound chain start { b with executedStateTransitions := numToExecute } :=
    ⟨sound.begins, sound.continues, sound.durable, sound.live, sound.named, sound.requested⟩
  unfold Bootstrapper.afterExecution
  split
  · exact sound
  · simp only
    split
    · exact counted.restartBootstrapping env
    · split
      · exact ⟨sound.begins, sound.continues, sound.durable, sound.live, sound.named,
          sound.requested⟩
      · exact ⟨sound.begins, sound.continues, sound.durable, sound.live, sound.named,
          sound.requested⟩

/-- A step that is taken only if the node still runs keeps the invariant if it does so there. -/
theorem Sound.andThen {b : Bootstrapper B} {next : Bootstrapper B → Bootstrapper B}
    (sound : Sound chain start b)
    (kept : b.running = true → Sound chain start (next b)) :
    Sound chain start (b.andThen next) := by
  unfold Bootstrapper.andThen
  split
  · rename_i running
    exact kept running
  · exact sound

/-- Requesting the missing blocks one after another keeps the invariant. -/
theorem Sound.fetchMissing {b : Bootstrapper B} (sound : Sound chain start b) (env : Environment)
    {ids : List ID} (names : ∀ id ∈ ids, chain.Names id) :
    Sound chain start (b.fetchMissing env ids) := by
  unfold Bootstrapper.fetchMissing
  induction ids generalizing b with
  | nil => exact sound
  | cons id rest inductionHypothesis =>
    rw [List.foldl_cons]
    apply inductionHypothesis _ (fun other member => names other (by simp [member]))
    split
    · exact sound.fetch env (names id (by simp))
    · exact sound

/-- A request that is taken out asked for a block of the chain. -/
theorem Sound.deleteKey {b : Bootstrapper B} (sound : Sound chain start b)
    (running : b.running = true) {request : Request} {rest : BiMap Request ID} {wanted : ID}
    (deleted : b.outstandingRequests.deleteKey request = (rest, some wanted)) :
    Sound chain start { b with outstandingRequests := rest } ∧ chain.Names wanted := by
  have asked : b.outstandingRequests.getValue request = some wanted := by
    rw [← BiMap.deleteKey_snd, deleted]
  have left : ∀ other, rest.getValue other =
      if other = request then none else b.outstandingRequests.getValue other := by
    intro other
    rw [← BiMap.getValue_deleteKey, deleted]
  refine ⟨⟨sound.begins, sound.continues, sound.durable, sound.live, sound.named, ?_⟩,
    sound.requested running request wanted asked⟩
  intro _ other id found
  simp only at found
  rw [left] at found
  split at found
  · cases found
  · exact sound.requested running other id found

/-- The blocks that a peer supplied are found under their own identifiers. -/
theorem lookup_supplied (others : List Block) (blocks : GoMap ID Block) {id : ID} {blk : Block}
    (found : (others.foldl (fun blocks blk => blocks.insert blk.id blk) blocks).lookup id =
      some blk) : blocks.lookup id = some blk ∨ blk ∈ others ∧ blk.id = id := by
  induction others generalizing blocks with
  | nil => exact Or.inl found
  | cons first rest inductionHypothesis =>
    rw [List.foldl_cons] at found
    rcases inductionHypothesis _ found with before | ⟨inside, own⟩
    · rcases RangeLoop.lookup_insert_cases before with ⟨rfl, rfl⟩ | ⟨_, earlier⟩
      · exact Or.inr ⟨by simp, rfl⟩
      · exact Or.inl earlier
    · exact Or.inr ⟨by simp [inside], own⟩

/-- A failed request is made again, for the same block of the chain. -/
theorem Sound.getAncestorsFailed {b : Bootstrapper B} (sound : Sound chain start b)
    (running : b.running = true) (env : Environment) (request : Request) :
    Sound chain start (b.getAncestorsFailed env request) := by
  unfold Bootstrapper.getAncestorsFailed
  split
  · exact sound
  · rename_i rest wanted deleted
    obtain ⟨without, names⟩ := sound.deleteKey running deleted
    exact without.fetch env names

/-- The timer keeps the invariant. -/
theorem Sound.timeout {b : Bootstrapper B} (sound : Sound chain start b) (env : Environment) :
    Sound chain start (b.timeout env) := by
  have woken : Sound chain start { b with awaitingTimeout := false } :=
    ⟨sound.begins, sound.continues, sound.durable, sound.live, sound.named, sound.requested⟩
  unfold Bootstrapper.timeout
  split
  · exact sound
  · simp only
    split
    · exact woken.restartBootstrapping env
    · exact ⟨sound.begins, sound.continues, sound.durable, sound.live, sound.named,
        sound.requested⟩

section Handlers

variable [LawfulBTreeG Pointer B]

/-- `process` of a block of the chain. -/
theorem Sound.process {b : Bootstrapper B} (sound : Sound chain start b)
    (running : b.running = true) (env : Environment) {height : UInt64} (below : height ≤ chain.tip)
    (ancestors : GoMap ID Block)
    (authentic : ∀ id parent, ancestors.lookup id = some parent →
      parent.id = id ∧ chain.Authentic parent) :
    Sound chain start (b.process env (chain.block height) ancestors) := by
  unfold Bootstrapper.process
  cases callable : b.missingBlockIDs.callable with
  | false =>
    have panics : BlockStorage.process b.getLastAccepted.height ancestors
        (ancestors.keys.card + 2) ⟨b.tree, BatchOps.new, b.missingBlockIDs⟩
        (chain.block height) = none := process_of_not_callable _ callable _
    rw [panics]
    exact sound.fail
  | true =>
    have synced : Synced chain b.getLastAccepted.height b.tree (BatchOps.new.write b.db)
        (fun id => id ∈ b.missingBlockIDs.elements ∨ id = (chain.block height).id) :=
      (sound.live running).imp (fun id member => Or.inl member)
    have few : (unstored chain ancestors (BatchOps.new.write b.db)).card + 1 <
        ancestors.keys.card + 2 := by
      have subset : unstored chain ancestors (BatchOps.new.write b.db) ⊆ ancestors.keys :=
        fun id member => (mem_unstored.mp member).1
      have bound := Finset.card_le_card subset
      omega
    obtain ⟨after, found, result, syncedAfter, names⟩ :=
      Synced.process authentic (ancestors.keys.card + 2) ⟨b.tree, BatchOps.new, b.missingBlockIDs⟩
        below callable synced (Or.inl few)
    obtain ⟨_, _, callableAfter, subset⟩ := process_missing _ result
    have namedAfter : ∀ id ∈ after.missingBlockIDs.elements, chain.Names id :=
      fun id member => sound.named running id (Finset.mem_of_mem_erase (subset member))
    rw [result]
    simp only
    split
    · exact ⟨sound.begins, sound.continues, sound.durable, by simp [Bootstrapper.fail],
        by simp [Bootstrapper.fail], by simp [Bootstrapper.fail]⟩
    · have durable : ∃ tree : IntervalTree.Tree B, Synced chain b.getLastAccepted.height tree
          (after.batch.write b.db) (fun _ => True) :=
        ⟨after.tree, syncedAfter.imp (fun _ _ => trivial)⟩
      cases found with
      | none =>
        refine ⟨sound.begins, sound.continues, durable, fun _ => ?_, fun _ => namedAfter,
          sound.requested⟩
        apply syncedAfter.imp
        rintro id (member | impossible)
        · exact member
        · cases impossible
      | some missing =>
        have added : after.missingBlockIDs.add missing = some { after.missingBlockIDs with
            value := some (insert missing after.missingBlockIDs.elements) } := if_pos callableAfter
        simp only
        rw [added]
        apply Sound.fetch _ env (names missing rfl)
        refine ⟨sound.begins, sound.continues, durable, fun _ => ?_, fun _ => ?_, sound.requested⟩
        · apply syncedAfter.imp
          rintro id (member | same)
          · exact Finset.mem_insert_of_mem member
          · rw [Option.some.inj same]
            exact Finset.mem_insert_self _ _
        · intro id member
          rcases Finset.mem_insert.mp member with rfl | inside
          · exact names id rfl
          · exact namedAfter id inside

/-- An execution accepts the blocks that follow in the chain. -/
theorem Sound.tryStartExecuting {b : Bootstrapper B} (sound : Sound chain start b)
    (running : b.running = true) (env : Environment) :
    Sound chain start (b.tryStartExecuting parse env) := by
  unfold Bootstrapper.tryStartExecuting
  cases counted : b.missingBlockIDs.len with
  | none => exact sound.fail
  | some count =>
    simp only
    split
    · exact sound
    · rename_i nothing
      have empty : b.missingBlockIDs.elements = ∅ :=
        SetVariable.elements_of_len_eq_zero (counted.trans (congrArg some (not_not.mp nothing)))
      split
      · exact sound
      · have synced : Synced chain b.getLastAccepted.height b.tree b.db (fun _ => False) := by
          apply (sound.live running).imp
          intro id member
          rw [empty] at member
          exact absurd member (Finset.notMem_empty id)
        obtain ⟨⟨final, error⟩, executed, left, result, ends, _⟩ := execute_ends synced.stored
          b.getLastAccepted.height env.outcomes b.accepted (Nat.lt_succ_self _)
        rw [result]
        simp only
        have split : getBlockIterator b.db = executed ++ left := ends.split
        have accepted : final.accepted = b.accepted ++
          executable parse b.getLastAccepted.height executed := ends.accepted
        have continues : Continues chain b.start.height.toNat final.accepted := by
          rw [accepted]
          apply sound.continues.append
          rw [← sound.last_height.1]
          exact synced.continues split
        obtain ⟨within, begins⟩ := sound.begins
        have reached : (final.accepted.getLastD b.start).height.toNat =
            b.getLastAccepted.height.toNat +
              (executable parse b.getLastAccepted.height executed).length := by
          have last := Continues.last within
            (by rw [begins, chain.height_block start within] at continues; exact continues)
          rw [sound.last_height.1, begins, last.1, chain.height_block start within, accepted,
            List.length_append]
          omega
        have durable : ∃ tree : IntervalTree.Tree B, Synced chain
            (final.accepted.getLastD b.start).height tree final.db (fun _ => True) := by
          obtain ⟨tree, stored⟩ := ends.durable
          exact ⟨tree, stored, fun height bytes found => synced.ofChain _ _ (ends.old _ _ found),
            fun _ _ _ => Or.inr trivial⟩
        cases error with
        | some error =>
          exact ⟨⟨within, begins⟩, continues, durable, by simp [Bootstrapper.fail],
            by simp [Bootstrapper.fail], by simp [Bootstrapper.fail]⟩
        | none =>
          obtain ⟨stored, rest⟩ := ends.finished rfl
          apply Sound.afterExecution
          refine ⟨⟨within, begins⟩, continues, durable, fun _ => ?_, ?_, sound.requested⟩
          · exact (synced.after_execution split stored rest reached).imp (fun _ none => none.elim)
          · intro _ id member
            rw [empty] at member
            exact absurd member (Finset.notMem_empty id)

/-- Processing blocks of the chain one after the other. -/
theorem Sound.processAll {b : Bootstrapper B} (sound : Sound chain start b) (env : Environment)
    {blocks : List Block} (ofChain : ∀ blk ∈ blocks, ∃ height, height ≤ chain.tip ∧
      blk = chain.block height) :
    Sound chain start (blocks.foldl (fun b blk => b.andThen (fun b => b.process env blk ∅)) b) := by
  induction blocks generalizing b with
  | nil => exact sound
  | cons blk rest inductionHypothesis =>
    rw [List.foldl_cons]
    apply inductionHypothesis _ (fun other member => ofChain other (by simp [member]))
    obtain ⟨height, below, rfl⟩ := ofChain blk (by simp)
    exact sound.andThen (fun running => sound.process running env below ∅ (by simp))

/-- Starting to fetch the accepted blocks keeps the invariant when they are blocks of the chain. -/
theorem Sound.startSyncing {b : Bootstrapper B} (sound : Sound chain start b)
    (running : b.running = true) {env : Environment} {acceptedBlockIDs : Finset ID}
    (names : ∀ id ∈ acceptedBlockIDs, chain.Names id)
    (answers : ∀ id blk, env.getBlock id = some blk → blk.id = id ∧ chain.Authentic blk) :
    Sound chain start (b.startSyncing parse env acceptedBlockIDs) := by
  unfold Bootstrapper.startSyncing
  cases joined : b.missingBlockIDs.union acceptedBlockIDs with
  | none => exact sound.fail
  | some missing =>
    obtain ⟨_, _, elements⟩ := SetVariable.union_eq_some joined
    have wanted : ∀ id ∈ missing.elements, chain.Names id := by
      rw [elements]
      intro id member
      rcases Finset.mem_union.mp member with inside | inside
      · exact sound.named running id inside
      · exact names id inside
    have more : Sound chain start { b with missingBlockIDs := missing, syncing := true } := by
      refine ⟨sound.begins, sound.continues, sound.durable, fun _ => ?_, fun _ => wanted,
        sound.requested⟩
      apply (sound.live running).imp
      intro id member
      change id ∈ missing.elements
      rw [elements]
      exact Finset.mem_union_left _ member
    have all := more.fetchMissing env
      (fun id member => wanted id ((env.order.mem_arrange _ _).mp member))
    have ofChain : ∀ blk ∈ (env.order.arrange missing.elements).filterMap env.getBlock,
        ∃ height, height ≤ chain.tip ∧ blk = chain.block height := by
      intro blk member
      obtain ⟨id, arranged, answer⟩ := List.mem_filterMap.mp member
      obtain ⟨own, authentic⟩ := answers id blk answer
      obtain ⟨height, below, same⟩ := wanted id ((env.order.mem_arrange _ _).mp arranged)
      exact ⟨height, below, authentic height below (own.trans same)⟩
    exact (all.processAll env ofChain).andThen
      (fun still => (all.processAll env ofChain).tryStartExecuting still env)

/-- Blocks of the chain that are received keep the invariant, whether or not they were requested. -/
theorem Sound.ancestors {b : Bootstrapper B} (sound : Sound chain start b)
    (running : b.running = true)
    (env : Environment) (request : Request) {blocks : Option (List Block)}
    (authentic : ∀ supplied, blocks = some supplied → ∀ blk ∈ supplied, chain.Authentic blk) :
    Sound chain start (b.ancestors parse env request blocks) := by
  unfold Bootstrapper.ancestors
  split
  · exact sound
  · rename_i rest wanted deleted
    obtain ⟨without, names⟩ := sound.deleteKey running deleted
    simp only
    split
    · exact without.fetch env names
    · exact without.fetch env names
    · rename_i requestedBlock others
      split
      · exact without.fetch env names
      · rename_i same
        have own : requestedBlock.id = wanted := not_not.mp same
        obtain ⟨height, below, name⟩ := names
        have exactly : requestedBlock = chain.block height :=
          authentic _ rfl requestedBlock (by simp) height below (own.trans name)
        rw [exactly]
        have processed := without.process running env below
          (others.foldl (fun blocks blk => blocks.insert blk.id blk) ∅) (by
            intro id parent found
            rcases lookup_supplied others ∅ found with empty | ⟨inside, ownID⟩
            · simp at empty
            · exact ⟨ownID, authentic _ rfl parent (by simp [inside])⟩)
        exact processed.andThen (fun still => processed.tryStartExecuting still env)

/-- A node starts from any database that a run left behind, or panics there. -/
theorem Sound.startNode {b : Bootstrapper B} (sound : Sound chain start b)
    (room : chain.tip < maxUint64) (startReqID : UInt32) :
    Sound chain start (b.startNode parse startReqID) := by
  obtain ⟨tree, synced⟩ := sound.durable
  obtain ⟨loaded, loading, ranges, count⟩ := synced.stored.inStep.newTree
  have again : Synced chain b.getLastAccepted.height loaded b.db (fun _ => True) :=
    ⟨synced.stored.congr ranges count, synced.ofChain, synced.frontier⟩
  unfold Bootstrapper.startNode
  rw [loading]
  simp only
  by_cases returns : b.missingBlockIDs.reading = .map ∨ Gapless b.getLastAccepted.height b.db
  · obtain ⟨missing, found, _, live, named⟩ :=
      again.getMissingBlockIDs (sound.last_height_lt room) returns
    rw [found]
    refine ⟨sound.begins, sound.continues, ⟨tree, synced⟩, fun _ => live,
      fun _ id member => (named id member).1, ?_⟩
    intro _ request id asked
    simp only [BiMap.getValue_new] at asked
    cases asked
  · obtain ⟨interface, gap⟩ := not_or.mp returns
    rw [SetReading.eq_interface_of_ne_map interface,
      again.getMissingBlockIDs_panics (sound.last_height_lt room) gap]
    exact sound.fail

/-- Every event keeps the invariant, as long as only blocks of the chain are named and supplied. -/
theorem Sound.step {b : Bootstrapper B} (sound : Sound chain start b) (room : chain.tip < maxUint64)
    {event : Event × Environment} (honest : Honest chain event) :
    Sound chain start (b.step parse event) := by
  obtain ⟨event, env⟩ := event
  cases event with
  | startNode startReqID => exact sound.startNode room startReqID
  | startBootstrapping => exact sound.andThen (fun _ => sound.startBootstrapping env)
  | startSyncing acceptedBlockIDs =>
    apply sound.andThen
    intro running
    exact sound.startSyncing running honest.1 honest.2
  | ancestors request blocks =>
    apply sound.andThen
    intro running
    apply sound.ancestors running
    rintro supplied rfl
    exact honest
  | getAncestorsFailed request =>
    apply sound.andThen
    intro running
    exact sound.getAncestorsFailed running env request
  | timeout => exact sound.andThen (fun _ => sound.timeout env)
  | crash => exact sound.fail

/-- The invariant holds before the first event. -/
theorem sound_initial (sets : SetReading) (within : start ≤ chain.tip) :
    Sound chain start (Bootstrapper.initial sets (chain.block start) : Bootstrapper B) := by
  refine ⟨⟨within, rfl⟩, continues_nil chain _, ⟨Tree.empty, stored_empty parse, ?_, ?_⟩,
    by simp [Bootstrapper.initial], by simp [Bootstrapper.initial],
    by simp [Bootstrapper.initial]⟩
  · intro height bytes found
    simp [Bootstrapper.initial] at found
  · intro height held
    simp [Bootstrapper.initial, HasBlock] at held

/-- The invariant holds in every run. -/
theorem sound_run (sets : SetReading) (room : chain.tip < maxUint64) (within : start ≤ chain.tip)
    {events : List (Event × Environment)} (honest : ∀ event ∈ events, Honest chain event) :
    Sound chain start (run (Bootstrapper.step parse)
      (Bootstrapper.initial sets (chain.block start) : Bootstrapper B) events) :=
  Along.invariant (Bootstrapper.step parse) (Sound chain start)
    (fun _ _ allowed sound => sound.step room allowed)
    (Along.of_forall _ _ honest) (sound_initial sets within)

end Handlers

section Readings

variable {sets : SetReading}

/-- No set is assigned to `missingBlockIDs`, and with the interface nothing was accepted. -/
structure Reads (sets : SetReading) (b : Bootstrapper B) : Prop where
  missing : b.missingBlockIDs.Unassigned sets
  idle : sets = .interface → b.accepted = []

omit [BTreeG Pointer B] in
/-- Requesting a block does not touch the set of the missing blocks. -/
theorem Reads.fetch {b : Bootstrapper B} (reads : Reads sets b) (env : Environment) (id : ID) :
    Reads sets (b.fetch env id) := by
  unfold Bootstrapper.fetch
  split
  · exact reads
  · exact ⟨reads.missing, reads.idle⟩

omit [BTreeG Pointer B] in
/-- Asking the beacons again does not touch the set. -/
theorem Reads.restartBootstrapping {b : Bootstrapper B} (reads : Reads sets b)
    (env : Environment) : Reads sets (b.restartBootstrapping env) := by
  unfold Bootstrapper.restartBootstrapping Bootstrapper.startBootstrapping
  split
  · exact ⟨reads.missing, reads.idle⟩
  · exact ⟨reads.missing, reads.idle⟩

/-- Processing blocks calls the methods of the set as it is read. -/
theorem Reads.process {b : Bootstrapper B} (reads : Reads sets b) (env : Environment) (blk : Block)
    (ancestors : GoMap ID Block) : Reads sets (b.process env blk ancestors) := by
  unfold Bootstrapper.process
  split
  · exact ⟨reads.missing, reads.idle⟩
  · rename_i after found result
    obtain ⟨callable, reading, callableAfter, _⟩ := process_missing _ result
    have unassigned : after.missingBlockIDs.Unassigned sets :=
      reads.missing.after_call callable reading
    simp only
    split
    · exact ⟨unassigned, reads.idle⟩
    · cases found with
      | none => exact ⟨unassigned, reads.idle⟩
      | some missing =>
        have added : after.missingBlockIDs.add missing = some { after.missingBlockIDs with
            value := some (insert missing after.missingBlockIDs.elements) } := if_pos callableAfter
        simp only
        rw [added]
        apply Reads.fetch
        exact ⟨unassigned.after_call callableAfter rfl, reads.idle⟩

/-- The execution does not touch the set. -/
theorem Reads.tryStartExecuting {b : Bootstrapper B} (reads : Reads sets b) (env : Environment) :
    Reads sets (b.tryStartExecuting parse env) := by
  unfold Bootstrapper.tryStartExecuting
  split
  · exact ⟨reads.missing, reads.idle⟩
  · rename_i count counted
    have map : sets = .map := reads.missing.callable_iff.mp (SetVariable.callable_of_len counted)
    have unaffected : ∀ after : Bootstrapper B, after.missingBlockIDs = b.missingBlockIDs →
        Reads sets after := by
      intro after same
      refine ⟨?_, fun interface => ?_⟩
      · rw [same]
        exact reads.missing
      · rw [map] at interface
        cases interface
    split
    · exact reads
    · split
      · exact reads
      · split
        · exact unaffected _ rfl
        · simp only
          split
          · exact unaffected _ rfl
          · unfold Bootstrapper.afterExecution
            split
            · exact unaffected _ rfl
            · simp only
              split
              · apply Reads.restartBootstrapping
                exact unaffected _ rfl
              · split
                · exact unaffected _ rfl
                · exact unaffected _ rfl

omit [BTreeG Pointer B] in
/-- Two steps that read the set in the same way, one after the other. -/
theorem Reads.andThen {b : Bootstrapper B} {next : Bootstrapper B → Bootstrapper B}
    (reads : Reads sets b) (kept : Reads sets (next b)) : Reads sets (b.andThen next) := by
  unfold Bootstrapper.andThen
  split
  · exact kept
  · exact reads

/-- The set is made from what the storage reports. -/
theorem Reads.startSyncing {b : Bootstrapper B} (reads : Reads sets b) (env : Environment)
    (acceptedBlockIDs : Finset ID) : Reads sets (b.startSyncing parse env acceptedBlockIDs) := by
  have fetched : ∀ (ids : List ID) {b : Bootstrapper B}, Reads sets b →
      Reads sets (b.fetchMissing env ids) := by
    intro ids
    unfold Bootstrapper.fetchMissing
    induction ids with
    | nil => exact fun reads => reads
    | cons id rest inductionHypothesis =>
      intro b reads
      rw [List.foldl_cons]
      apply inductionHypothesis
      split
      · exact reads.fetch env id
      · exact reads
  have processed : ∀ (blocks : List Block) {b : Bootstrapper B}, Reads sets b →
      Reads sets (blocks.foldl (fun b blk => b.andThen (fun b => b.process env blk ∅)) b) := by
    intro blocks
    induction blocks with
    | nil => exact fun reads => reads
    | cons blk rest inductionHypothesis =>
      intro b reads
      rw [List.foldl_cons]
      exact inductionHypothesis (reads.andThen (reads.process env blk ∅))
  unfold Bootstrapper.startSyncing
  split
  · exact ⟨reads.missing, reads.idle⟩
  · rename_i missing joined
    obtain ⟨callable, reading, _⟩ := SetVariable.union_eq_some joined
    have begun : Reads sets { b with missingBlockIDs := missing, syncing := true } :=
      ⟨reads.missing.after_call callable reading, reads.idle⟩
    have done := processed ((env.order.arrange missing.elements).filterMap env.getBlock)
      (fetched (env.order.arrange missing.elements) begun)
    exact done.andThen (done.tryStartExecuting env)

/-- Blocks that are received are processed with the set as it is read. -/
theorem Reads.ancestors {b : Bootstrapper B} (reads : Reads sets b) (env : Environment)
    (request : Request) (blocks : Option (List Block)) :
    Reads sets (b.ancestors parse env request blocks) := by
  unfold Bootstrapper.ancestors
  split
  · exact reads
  · rename_i rest wanted _
    have without : Reads sets { b with outstandingRequests := rest } :=
      ⟨reads.missing, reads.idle⟩
    simp only
    split
    · exact without.fetch env wanted
    · exact without.fetch env wanted
    · split
      · exact without.fetch env wanted
      · have done := without.process env ‹Block›
          ((‹List Block›).foldl (fun blocks blk => blocks.insert blk.id blk) ∅)
        exact done.andThen (done.tryStartExecuting env)

/-- A node that starts again has a set of the same reading. -/
theorem Reads.startNode {b : Bootstrapper B} (reads : Reads sets b) (startReqID : UInt32) :
    Reads sets (b.startNode parse startReqID) := by
  unfold Bootstrapper.startNode
  split
  · exact ⟨reads.missing, reads.idle⟩
  · split
    · exact ⟨reads.missing, reads.idle⟩
    · rename_i missing found
      rw [reads.missing.1] at found
      exact ⟨unassigned_of_getMissingBlockIDs found, reads.idle⟩

/-- Every event reads the set in the same way. -/
theorem Reads.step {b : Bootstrapper B} (reads : Reads sets b) (event : Event × Environment) :
    Reads sets (b.step parse event) := by
  obtain ⟨event, env⟩ := event
  cases event with
  | startNode startReqID => exact reads.startNode startReqID
  | startBootstrapping =>
    apply reads.andThen
    unfold Bootstrapper.startBootstrapping
    split
    · exact reads
    · exact ⟨reads.missing, reads.idle⟩
  | startSyncing acceptedBlockIDs =>
    apply reads.andThen
    exact reads.startSyncing env acceptedBlockIDs
  | ancestors request blocks =>
    apply reads.andThen
    exact reads.ancestors env request blocks
  | getAncestorsFailed request =>
    apply reads.andThen
    unfold Bootstrapper.getAncestorsFailed
    split
    · exact reads
    · apply Reads.fetch
      exact ⟨reads.missing, reads.idle⟩
  | timeout =>
    apply reads.andThen
    unfold Bootstrapper.timeout
    split
    · exact reads
    · simp only
      split
      · apply Reads.restartBootstrapping
        exact ⟨reads.missing, reads.idle⟩
      · exact ⟨reads.missing, reads.idle⟩
  | crash => exact ⟨reads.missing, reads.idle⟩

/-- The reading of the set does not change during a run. -/
theorem reads_run (sets : SetReading) (first : Block) (events : List (Event × Environment)) :
    Reads sets (run (Bootstrapper.step parse)
      (Bootstrapper.initial sets first : Bootstrapper B) events) := by
  have kept : ∀ {b : Bootstrapper B}, Reads sets b →
      Reads sets (run (Bootstrapper.step parse) b events) := by
    induction events with
    | nil => exact fun reads => reads
    | cons event rest inductionHypothesis =>
      intro b reads
      rw [run_cons]
      exact inductionHypothesis (reads.step event)
  exact kept ⟨⟨rfl, fun _ => rfl⟩, fun _ => rfl⟩

end Readings

end

section

variable {ε : Type*} {parse : Bytes → Except ε Block} {chain : Chain parse} {start : UInt64}
  {B : Type} [BTreeG Pointer B] [LawfulBTreeG Pointer B]

/-- Whatever the peers answer, whenever writes fail, executions halt or the node crashes and is
started again: the blocks that the virtual machine accepted are those of the chain, one after the
other from the block it started from, each the child of the one before it. As long as
`missingBlockIDs` is a nil interface there are none. -/
theorem accepted_blocks_continue_chain (sets : SetReading) (room : chain.tip < maxUint64)
    (within : start ≤ chain.tip) {events : List (Event × Environment)}
    (honest : ∀ event ∈ events, Honest chain event) :
    let b := run (Bootstrapper.step parse)
      (Bootstrapper.initial sets (chain.block start) : Bootstrapper B) events
    List.IsChain (fun parent child => child.parent = parent.id ∧
      child.height.toNat = parent.height.toNat + 1) (chain.block start :: b.accepted) ∧
      (∀ blk ∈ b.accepted, blk.height ≤ chain.tip ∧ blk = chain.block blk.height) ∧
      (sets = .interface → b.accepted = []) := by
  intro b
  have sound : Sound chain start b := sound_run sets room within honest
  have continues := sound.continues
  rw [sound.begins.2, chain.height_block start within] at continues
  exact ⟨continues.isChain within, continues.ofChain, (reads_run sets _ events).idle⟩

/-- In every state in which the node would execute, nothing being missing, `getMissingBlockIDs`
returns an empty set, as `execute` assumes. From every state whatsoever the node can be started
again, unless `set.Set` is the interface and a stored block above the next height to execute lacks
its parent. It then finds every block whose child is stored and which is not. -/
theorem missing_blocks_found_again (sets : SetReading) (room : chain.tip < maxUint64)
    (within : start ≤ chain.tip) {events : List (Event × Environment)}
    (honest : ∀ event ∈ events, Honest chain event) (startReqID : UInt32) :
    let b := run (Bootstrapper.step parse)
      (Bootstrapper.initial sets (chain.block start) : Bootstrapper B) events
    let again := b.startNode parse startReqID
    (b.running = true → b.missingBlockIDs.elements = ∅ →
      ∃ missing, getMissingBlockIDs sets parse b.db b.tree b.getLastAccepted.height = .ok missing ∧
        missing.elements = ∅) ∧
      again.db = b.db ∧
      (again.running = true ↔ sets = .map ∨ Gapless b.getLastAccepted.height b.db) ∧
      (again.running = true → ∀ height, HasBlock b.db height →
        b.getLastAccepted.height.toNat + 1 < height.toNat →
        HasBlock b.db (height - 1) ∨
          (chain.block (height - 1)).id ∈ again.missingBlockIDs.elements) := by
  intro b again
  have sound : Sound chain start b := sound_run sets room within honest
  have below := sound.last_height_lt room
  have reading : b.missingBlockIDs.reading = sets := (reads_run sets _ events).missing.1
  constructor
  · intro running empty
    have synced : Synced chain b.getLastAccepted.height b.tree b.db (fun _ => False) := by
      apply (sound.live running).imp
      intro id member
      rw [empty] at member
      exact absurd member (Finset.notMem_empty id)
    have gapless : Gapless b.getLastAccepted.height b.db := fun height held above =>
      (synced.frontier height held above).resolve_right id
    obtain ⟨missing, found, _, _, only⟩ := synced.getMissingBlockIDs below (Or.inr gapless)
    refine ⟨missing, found, Finset.eq_empty_iff_forall_notMem.mpr ?_⟩
    exact fun id member => (only id member).2
  · obtain ⟨tree, synced⟩ := sound.durable
    obtain ⟨loaded, loading, ranges, count⟩ := synced.stored.inStep.newTree
    have reloaded : Synced chain b.getLastAccepted.height loaded b.db (fun _ => True) :=
      ⟨synced.stored.congr ranges count, synced.ofChain, synced.frontier⟩
    have unfolded : again = b.startNode parse startReqID := rfl
    unfold Bootstrapper.startNode at unfolded
    rw [loading, reading] at unfolded
    by_cases returns : sets = .map ∨ Gapless b.getLastAccepted.height b.db
    · obtain ⟨missing, found, _, live, _⟩ := reloaded.getMissingBlockIDs below returns
      simp only [found] at unfolded
      rw [unfolded]
      exact ⟨rfl, iff_of_true rfl returns, fun _ => live.frontier⟩
    · obtain ⟨interface, gap⟩ := not_or.mp returns
      rw [SetReading.eq_interface_of_ne_map interface] at unfolded
      simp only [reloaded.getMissingBlockIDs_panics below gap] at unfolded
      rw [unfolded]
      refine ⟨rfl, iff_of_false Bool.false_ne_true returns, ?_⟩
      exact fun impossible => absurd impossible Bool.false_ne_true

end

/-- An identifier that begins with the bytes of a height. -/
def heightID (height : UInt64) : ID :=
  ⟨(packUInt64 height ++ List.replicate 24 0).toArray, by simp [packUInt64]⟩

/-- Different heights have different IDs. -/
theorem heightID_injective : Function.Injective heightID := by
  intro first second same
  have bytes := congrArg (fun id : ID => id.toArray.toList) same
  exact packUInt64_injective (List.append_inj_left' bytes rfl)

/-- The parser of a chain whose blocks are their heights. -/
def linkedParser (bytes : Bytes) : Except DbError Block :=
  match parseUInt64 bytes with
  | .error error => .error error
  | .ok height => .ok ⟨heightID height, heightID (height - 1), height, bytes⟩

/-- A chain of nine blocks. -/
def linkedChain : Chain linkedParser where
  tip := 8
  block height := ⟨heightID height, heightID (height - 1), height, packUInt64 height⟩
  height_block _ _ := rfl
  parent_block _ _ _ := rfl
  id_injective _ _ _ _ same := heightID_injective same
  recovers height _ := by simp [linkedParser]

/-- An environment without failures. -/
def calmEnvironment : Environment where
  order := byValue 32
  getBlock _ := none
  beacons := true
  selectPeer _ := Vector.replicate 20 0
  writes _ := true
  outcomes _ := ⟨false, true, true, true⟩
  halted := false
  subnetBootstrapped := true

/-- A peer is asked for the block of height 2 and answers with it and its parent. -/
def shortSync : List (Event × Environment) :=
  [(.startNode 0, calmEnvironment), (.startBootstrapping, calmEnvironment),
    (.startSyncing {heightID 2}, calmEnvironment),
    (.ancestors ⟨Vector.replicate 20 0, 2⟩ (some [linkedChain.block 2, linkedChain.block 1]),
      calmEnvironment)]

/-- The blocks of the chain are authentic. -/
theorem linkedChain_authentic (height : UInt64) :
    linkedChain.Authentic (linkedChain.block height) :=
  fun _ _ same => congrArg linkedChain.block (heightID_injective same)

/-- The polls name a block of the chain, and the virtual machine has none. -/
theorem honest_startSyncing :
    Honest linkedChain (.startSyncing {heightID 2}, calmEnvironment) := by
  refine ⟨?_, ?_⟩
  · intro id member
    rw [Finset.mem_singleton.mp member]
    exact ⟨2, by decide, rfl⟩
  · intro id blk answer
    cases answer

/-- The events of the short run name and supply blocks of the chain only. -/
theorem honest_shortSync : ∀ event ∈ shortSync, Honest linkedChain event := by
  simp only [shortSync, List.forall_mem_cons]
  refine ⟨trivial, trivial, honest_startSyncing, ?_, by simp⟩
  change ∀ blk ∈ [linkedChain.block 2, linkedChain.block 1], linkedChain.Authentic blk
  rw [List.forall_mem_cons, List.forall_mem_singleton]
  exact ⟨linkedChain_authentic 2, linkedChain_authentic 1⟩

/-- With plain sets both blocks are accepted. -/
theorem shortSync_continues_chain :
    let b := run (Bootstrapper.step linkedParser)
      (Bootstrapper.initial .map (linkedChain.block 0) : Bootstrapper (List Pointer)) shortSync
    b.accepted.map (fun blk => blk.height) = [1, 2] ∧
      List.IsChain (fun parent child => child.parent = parent.id ∧
        child.height.toNat = parent.height.toNat + 1) (linkedChain.block 0 :: b.accepted) :=
  ⟨by decide +kernel,
    (accepted_blocks_continue_chain .map (by decide) (by decide) honest_shortSync).1⟩

/-- The block of height 2 was stored and the node crashes before its parent comes. -/
def interruptedSync : List (Event × Environment) :=
  [(.startNode 0, calmEnvironment), (.startSyncing {heightID 2}, calmEnvironment),
    (.ancestors ⟨Vector.replicate 20 0, 1⟩ (some [linkedChain.block 2]), calmEnvironment),
    (.crash, calmEnvironment)]

/-- So do the events of the interrupted run. -/
theorem honest_interruptedSync : ∀ event ∈ interruptedSync, Honest linkedChain event := by
  simp only [interruptedSync, List.forall_mem_cons]
  refine ⟨trivial, honest_startSyncing, ?_, trivial, by simp⟩
  change ∀ blk ∈ [linkedChain.block 2], linkedChain.Authentic blk
  rw [List.forall_mem_singleton]
  exact linkedChain_authentic 2

/-- With plain sets the node starts again and finds the block of height 1. -/
theorem interruptedSync_found_again :
    let b := run (Bootstrapper.step linkedParser)
      (Bootstrapper.initial .map (linkedChain.block 0) : Bootstrapper (List Pointer))
      interruptedSync
    (b.startNode linkedParser 7).running = true ∧
      heightID 1 ∈ (b.startNode linkedParser 7).missingBlockIDs.elements := by
  intro b
  obtain ⟨_, _, starts, found⟩ := @missing_blocks_found_again _ _ linkedChain 0 (List Pointer) _ _
    .map (by decide) (by decide) _ honest_interruptedSync 7
  have running := starts.mpr (Or.inl rfl)
  have stored : HasBlock b.db 2 := by
    unfold HasBlock
    decide +kernel
  have gap : ¬ HasBlock b.db (2 - 1) := by
    unfold HasBlock
    decide +kernel
  exact ⟨running, (found running 2 stored (by decide +kernel)).resolve_left gap⟩

end AvalancheParallel.Bootstrap
