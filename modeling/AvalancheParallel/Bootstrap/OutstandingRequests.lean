import AvalancheParallel.Bootstrap.Bootstrapper

/-!
# No missing block is forgotten

While the bootstrapper is syncing, each block that it knows it misses is asked for by an
outstanding request, so that an answer or a timeout is still to come. A request is taken out
when it is answered or fails; then the block is requested again, or it was received and is no
longer missing.

Requests are numbered by a 32-bit word. A new request must not be mistaken for an outstanding
one, so the law holds as long as the numbers of one start do not come round again.
-/

namespace AvalancheParallel.Bootstrap

open AvalancheParallel.Ids
open AvalancheParallel.RangeLoop (GoMap)
open AvalancheParallel.Utils
open AvalancheParallel.Engine (Request asked_put asked_iff_hasValue)
open AvalancheParallel.Database
open AvalancheParallel.Runs
open AvalancheParallel.Bootstrap.IntervalTree (Pointer)
open AvalancheParallel.Bootstrap.BlockStorage

variable {B : Type}

/-- The outstanding requests carry numbers that were given out since the last start. -/
def Numbered (b : Bootstrapper B) : Prop :=
  Engine.Numbered b.requestID b.outstandingRequests

/-- The block is asked for. -/
def Asked (b : Bootstrapper B) (id : ID) : Prop := Engine.Asked b.outstandingRequests id

/-- Requests were only added, under new numbers. -/
structure Extends (before after : Bootstrapper B) : Prop where
  later : before.requestID ≤ after.requestID
  numbered : Numbered before → after.requestID < 2 ^ 32 → Numbered after
  asked : Numbered before → after.requestID < 2 ^ 32 → ∀ id, Asked before id → Asked after id

/-- Nothing is asked without a step. -/
theorem Extends.refl (b : Bootstrapper B) : Extends b b :=
  ⟨Nat.le_refl _, fun numbered _ => numbered, fun _ _ _ asked => asked⟩

/-- Two steps that only ask, one after the other. -/
theorem Extends.trans {first second third : Bootstrapper B} (one : Extends first second)
    (other : Extends second third) : Extends first third where
  later := Nat.le_trans one.later other.later
  numbered numbered bound :=
    other.numbered (one.numbered numbered (Nat.lt_of_le_of_lt other.later bound)) bound
  asked numbered bound id asked := by
    have between := Nat.lt_of_le_of_lt other.later bound
    exact other.asked (one.numbered numbered between) bound id (one.asked numbered between id asked)

/-- A request is added to those outstanding. -/
theorem extends_fetch (env : Environment) (b : Bootstrapper B) (blkID : ID) :
    Extends b (b.fetch env blkID) := by
  unfold Bootstrapper.fetch
  split
  · exact Extends.refl b
  · rename_i absent
    rw [asked_iff_hasValue] at absent
    refine ⟨Nat.le_succ _, ?_, ?_⟩
    · exact fun numbered _ => Engine.Numbered.put numbered _ blkID
    · exact fun numbered bound id asked => Engine.Asked.put numbered bound _ absent asked

/-- After `fetch` the block is asked for. -/
theorem asked_fetch (env : Environment) (b : Bootstrapper B) (blkID : ID) :
    Asked (b.fetch env blkID) blkID := by
  unfold Bootstrapper.fetch
  split
  · rename_i present
    exact (asked_iff_hasValue _ _).mp present
  · exact asked_put _ _ blkID

/-- A request changes neither the missing blocks nor what the node is doing. -/
theorem fetch_frame (env : Environment) (b : Bootstrapper B) (blkID : ID) :
    (b.fetch env blkID).missingBlockIDs = b.missingBlockIDs ∧
      (b.fetch env blkID).running = b.running ∧ (b.fetch env blkID).syncing = b.syncing := by
  unfold Bootstrapper.fetch
  split
  · exact ⟨rfl, rfl, rfl⟩
  · exact ⟨rfl, rfl, rfl⟩

/-- Requests that were not touched. -/
theorem Extends.of_same {before after : Bootstrapper B}
    (later : before.requestID ≤ after.requestID)
    (same : after.outstandingRequests = before.outstandingRequests) : Extends before after := by
  refine ⟨later, ?_, ?_⟩
  · intro numbered _ request id found
    rw [same] at found
    exact Engine.Numbered.mono numbered later request id found
  · rintro _ _ id ⟨request, found⟩
    exact ⟨request, by rw [same]; exact found⟩

/-- `Bootstrapper.process` asks for what it newly misses. -/
theorem process_asks [BTreeG Pointer B] (env : Environment) (b : Bootstrapper B) (blk : Block)
    (supplied : GoMap ID Block) :
    Extends b (b.process env blk supplied) ∧
      (b.process env blk supplied).syncing = b.syncing ∧
      ((b.process env blk supplied).running = true → ∀ id ∈
        (b.process env blk supplied).missingBlockIDs.elements,
        id ∈ b.missingBlockIDs.elements ∧ id ≠ blk.id ∨ Asked (b.process env blk supplied) id) := by
  unfold Bootstrapper.process
  split
  · exact ⟨Extends.of_same (Nat.le_refl _) rfl, rfl, by simp [Bootstrapper.fail]⟩
  · rename_i after found result
    obtain ⟨_, _, callable, subset⟩ := process_missing _ result
    simp only
    split
    · exact ⟨Extends.of_same (Nat.le_refl _) rfl, rfl, by simp [Bootstrapper.fail]⟩
    · cases found with
      | none =>
        refine ⟨Extends.of_same (Nat.le_refl _) rfl, rfl, fun _ id member => Or.inl ?_⟩
        have inside := Finset.mem_erase.mp (subset member)
        exact ⟨inside.2, inside.1⟩
      | some missing =>
        have added : after.missingBlockIDs.add missing = some { after.missingBlockIDs with
            value := some (insert missing after.missingBlockIDs.elements) } := if_pos callable
        simp only
        rw [added]
        refine ⟨Extends.trans ?_ (extends_fetch env _ missing), (fetch_frame env _ missing).2.2, ?_⟩
        · exact Extends.of_same (Nat.le_refl _) rfl
        intro _ id member
        rw [(fetch_frame env _ missing).1] at member
        rcases Finset.mem_insert.mp member with rfl | inside
        · exact Or.inr (asked_fetch env _ id)
        · have before := Finset.mem_erase.mp (subset inside)
          exact Or.inl ⟨before.2, before.1⟩

/-- While the node is syncing every missing block is asked for, under numbers given out. -/
structure Fetching (b : Bootstrapper B) : Prop where
  numbered : Numbered b
  all : b.running = true → b.syncing = true → ∀ id ∈ b.missingBlockIDs.elements, Asked b id

/-- Without missing blocks nothing has to be asked for. -/
theorem Fetching.of_empty {b : Bootstrapper B} (numbered : Numbered b)
    (empty : b.missingBlockIDs.elements = ∅) : Fetching b := by
  refine ⟨numbered, fun _ _ id member => ?_⟩
  rw [empty] at member
  exact absurd member (Finset.notMem_empty id)

/-- Without outstanding requests the numbers are in order. -/
theorem numbered_of_new {b : Bootstrapper B} (none : b.outstandingRequests = BiMap.new) :
    Numbered b := by
  unfold Numbered
  rw [none]
  exact Engine.numbered_new _

/-- The polls only take the next number. -/
theorem Fetching.startBootstrapping {b : Bootstrapper B} (fetching : Fetching b)
    (env : Environment) : Fetching (b.startBootstrapping env) := by
  unfold Bootstrapper.startBootstrapping
  split
  · exact fetching
  · exact ⟨Engine.Numbered.mono fetching.numbered (Nat.le_succ _), fetching.all⟩

/-- Once bootstrapping starts over, nothing is asked for and nothing has to be. -/
theorem fetching_restartBootstrapping (env : Environment) (b : Bootstrapper B) :
    Fetching (b.restartBootstrapping env) := by
  apply Fetching.startBootstrapping
  exact ⟨numbered_of_new rfl, fun _ syncing => absurd syncing Bool.false_ne_true⟩

/-- A node that stops has nothing to ask for. -/
theorem Fetching.fail {b : Bootstrapper B} (fetching : Fetching b) : Fetching b.fail :=
  ⟨fetching.numbered, fun running => absurd running Bool.false_ne_true⟩

section

variable {ε : Type*} (parse : Bytes → Except ε Block) [BTreeG Pointer B]

/-- `tryStartExecuting` does something only when nothing is missing; it makes no request, and at
most forgets them all. -/
theorem Fetching.tryStartExecuting {b : Bootstrapper B} (fetching : Fetching b)
    (env : Environment) : Fetching (b.tryStartExecuting parse env) := by
  unfold Bootstrapper.tryStartExecuting
  split
  · exact fetching.fail
  · rename_i count counted
    split
    · exact fetching
    · rename_i nothing
      have empty : b.missingBlockIDs.elements = ∅ :=
        SetVariable.elements_of_len_eq_zero (counted.trans (congrArg some (not_not.mp nothing)))
      split
      · exact fetching
      · split
        · exact fetching.fail
        · simp only
          split
          · exact Fetching.of_empty fetching.numbered empty
          · unfold Bootstrapper.afterExecution
            split
            · exact Fetching.of_empty fetching.numbered empty
            · simp only
              split
              · exact fetching_restartBootstrapping env _
              · split
                · exact Fetching.of_empty fetching.numbered empty
                · exact Fetching.of_empty fetching.numbered empty

/-- `tryStartExecuting` gives out at most one number. -/
theorem requestID_le_tryStartExecuting (env : Environment) (b : Bootstrapper B) :
    b.requestID ≤ (b.tryStartExecuting parse env).requestID := by
  unfold Bootstrapper.tryStartExecuting
  split
  · exact Nat.le_refl _
  · split
    · exact Nat.le_refl _
    · split
      · exact Nat.le_refl _
      · split
        · exact Nat.le_refl _
        · simp only
          split
          · exact Nat.le_refl _
          · unfold Bootstrapper.afterExecution
            split
            · exact Nat.le_refl _
            · simp only
              split
              · unfold Bootstrapper.restartBootstrapping Bootstrapper.startBootstrapping
                split
                · exact Nat.le_refl _
                · exact Nat.le_succ _
              · split
                · exact Nat.le_refl _
                · exact Nat.le_refl _

/-- The rest of a handler after blocks were processed. -/
theorem Fetching.andThen {b : Bootstrapper B} (env : Environment)
    (fetching : b.requestID < 2 ^ 32 → Fetching b)
    (bound : (b.andThen (Bootstrapper.tryStartExecuting parse env)).requestID < 2 ^ 32) :
    Fetching (b.andThen (Bootstrapper.tryStartExecuting parse env)) := by
  have later := requestID_le_tryStartExecuting parse env b
  unfold Bootstrapper.andThen at bound ⊢
  split at bound
  · rename_i running
    rw [if_pos running]
    exact (fetching (Nat.lt_of_le_of_lt later bound)).tryStartExecuting parse env
  · rename_i stopped
    rw [if_neg stopped]
    exact fetching bound

end

/-- The loop of `startSyncing` asks for the blocks that the virtual machine does not have. -/
theorem fetchMissing_asks (env : Environment) (b : Bootstrapper B) (ids : List ID) :
    Extends b (b.fetchMissing env ids) ∧
      (b.fetchMissing env ids).missingBlockIDs = b.missingBlockIDs ∧
      (Numbered b → (b.fetchMissing env ids).requestID < 2 ^ 32 →
        ∀ id ∈ ids, env.getBlock id = none → Asked (b.fetchMissing env ids) id) := by
  induction ids generalizing b with
  | nil => exact ⟨Extends.refl b, rfl, by simp⟩
  | cons first rest inductionHypothesis =>
    have step : ∀ next : Bootstrapper B, (if (env.getBlock first).isNone then b.fetch env first
        else b) = next → Extends b next ∧ next.missingBlockIDs = b.missingBlockIDs ∧
          (env.getBlock first = none → Asked next first) := by
      rintro next rfl
      split
      · exact ⟨extends_fetch env b first, (fetch_frame env b first).1,
          fun _ => asked_fetch env b first⟩
      · rename_i known
        exact ⟨Extends.refl b, rfl, fun none => absurd (by simp [none]) known⟩
    obtain ⟨extended, missing, asked⟩ := step _ rfl
    obtain ⟨later, missingLater, askedLater⟩ := inductionHypothesis
      (if (env.getBlock first).isNone then b.fetch env first else b)
    change Extends _ (b.fetchMissing env (first :: rest)) at later
    refine ⟨extended.trans later, missingLater.trans missing, ?_⟩
    intro numbered bound id member none
    have between := Nat.lt_of_le_of_lt later.later bound
    rcases List.mem_cons.mp member with rfl | inside
    · exact later.asked (extended.numbered numbered between) bound id (asked none)
    · exact askedLater (extended.numbered numbered between) bound id inside none

/-- After an error no further block is processed. -/
theorem foldl_andThen_of_failed [BTreeG Pointer B] (env : Environment) {b : Bootstrapper B}
    (blocks : List Block) (failed : ¬ b.running = true) :
    blocks.foldl (fun b blk => b.andThen (fun b => b.process env blk ∅)) b = b := by
  induction blocks with
  | nil => rfl
  | cons blk rest inductionHypothesis =>
    have stays : b.andThen (fun b => b.process env blk ∅) = b := if_neg failed
    rw [List.foldl_cons, stays]
    exact inductionHypothesis

/-- Blocks processed one after the other: what is still missing afterwards was missing before and
was none of them, or it is asked for. -/
theorem processAll_asks [BTreeG Pointer B] (env : Environment) (b : Bootstrapper B)
    (blocks : List Block) :
    let after := blocks.foldl (fun b blk => b.andThen (fun b => b.process env blk ∅)) b
    Extends b after ∧
      (Numbered b → after.requestID < 2 ^ 32 → after.running = true →
        ∀ id ∈ after.missingBlockIDs.elements,
          id ∈ b.missingBlockIDs.elements ∧ (∀ blk ∈ blocks, id ≠ blk.id) ∨ Asked after id) := by
  induction blocks generalizing b with
  | nil => exact ⟨Extends.refl b, fun _ _ _ id member => Or.inl ⟨member, by simp⟩⟩
  | cons blk rest inductionHypothesis =>
    rw [List.foldl_cons]
    by_cases running : b.running = true
    · have processed : b.andThen (fun b => b.process env blk ∅) = b.process env blk ∅ :=
        if_pos running
      rw [processed]
      obtain ⟨later, asks⟩ := inductionHypothesis (b.process env blk ∅)
      obtain ⟨extended, _, asked⟩ := process_asks env b blk ∅
      refine ⟨extended.trans later, ?_⟩
      intro numbered bound still id member
      have between := Nat.lt_of_le_of_lt later.later bound
      have numberedNext := extended.numbered numbered between
      have runningNext : (b.process env blk ∅).running = true := by
        by_contra failed
        rw [foldl_andThen_of_failed env rest failed] at still
        exact failed still
      rcases asks numberedNext bound still id member with ⟨before, others⟩ | done
      · rcases asked runningNext id before with ⟨first, different⟩ | done
        · exact Or.inl ⟨first, List.forall_mem_cons.mpr ⟨different, others⟩⟩
        · exact Or.inr (later.asked numberedNext bound id done)
      · exact Or.inr done
    · have stays : b.andThen (fun b => b.process env blk ∅) = b := if_neg running
      rw [stays, foldl_andThen_of_failed env rest running]
      exact ⟨Extends.refl b, fun _ _ still => absurd still running⟩

/-- Without the request that was answered, only the block it asked for may be left unasked. -/
theorem Fetching.deleteKey {b : Bootstrapper B} (fetching : Fetching b) {request : Request}
    {rest : BiMap Request ID} {wanted : ID}
    (deleted : b.outstandingRequests.deleteKey request = (rest, some wanted)) :
    let after := { b with outstandingRequests := rest }
    Numbered after ∧ ∀ id, id ≠ wanted → Asked b id → Asked after id :=
  Engine.Numbered.deleteKey fetching.numbered deleted

/-- A block that is requested again. -/
theorem Fetching.fetchAgain {b : Bootstrapper B} (env : Environment) {request : Request}
    {rest : BiMap Request ID} {wanted : ID} (fetching : Fetching b)
    (deleted : b.outstandingRequests.deleteKey request = (rest, some wanted))
    (bound : (Bootstrapper.fetch env { b with outstandingRequests := rest } wanted).requestID <
      2 ^ 32) :
    Fetching (Bootstrapper.fetch env { b with outstandingRequests := rest } wanted) := by
  obtain ⟨numbered, others⟩ := fetching.deleteKey deleted
  have extended := extends_fetch env { b with outstandingRequests := rest } wanted
  obtain ⟨missing, sameRunning, sameSyncing⟩ :=
    fetch_frame env { b with outstandingRequests := rest } wanted
  refine ⟨extended.numbered numbered bound, fun running syncing id member => ?_⟩
  by_cases same : id = wanted
  · rw [same]
    exact asked_fetch env _ wanted
  · rw [missing] at member
    rw [sameRunning] at running
    rw [sameSyncing] at syncing
    exact extended.asked numbered bound id
      (others id same (fetching.all running syncing id member))

/-- A failed request is replaced by a new one for the same block. -/
theorem Fetching.getAncestorsFailed {b : Bootstrapper B} (fetching : Fetching b) (env : Environment)
    (request : Request) (bound : (b.getAncestorsFailed env request).requestID < 2 ^ 32) :
    Fetching (b.getAncestorsFailed env request) := by
  unfold Bootstrapper.getAncestorsFailed at bound ⊢
  rcases deleted : b.outstandingRequests.deleteKey request with ⟨rest, _ | wanted⟩
  · exact fetching
  · rw [deleted] at bound
    exact fetching.fetchAgain env deleted bound

/-- The timer leaves nothing unrequested. -/
theorem Fetching.timeout {b : Bootstrapper B} (fetching : Fetching b) (env : Environment) :
    Fetching (b.timeout env) := by
  unfold Bootstrapper.timeout
  split
  · exact fetching
  · simp only
    split
    · exact fetching_restartBootstrapping env _
    · exact ⟨fetching.numbered, fetching.all⟩

section

variable {ε : Type*} {parse : Bytes → Except ε Block} [BTreeG Pointer B]

/-- When fetching starts, every missing block is requested. -/
theorem Fetching.startSyncing {b : Bootstrapper B} (fetching : Fetching b) (env : Environment)
    (acceptedBlockIDs : Finset ID)
    (answers : ∀ id blk, env.getBlock id = some blk → blk.id = id)
    (bound : (b.startSyncing parse env acceptedBlockIDs).requestID < 2 ^ 32) :
    Fetching (b.startSyncing parse env acceptedBlockIDs) := by
  unfold Bootstrapper.startSyncing at bound ⊢
  cases joined : b.missingBlockIDs.union acceptedBlockIDs with
  | none => exact fetching.fail
  | some missingIDs =>
    rw [joined] at bound
    simp only at bound ⊢
    refine Fetching.andThen parse env ?_ bound
    intro room
    obtain ⟨extended, missing, asks⟩ := fetchMissing_asks env
      { b with missingBlockIDs := missingIDs, syncing := true }
      (env.order.arrange missingIDs.elements)
    obtain ⟨later, asked⟩ := processAll_asks env
      (Bootstrapper.fetchMissing env { b with missingBlockIDs := missingIDs, syncing := true }
        (env.order.arrange missingIDs.elements))
      ((env.order.arrange missingIDs.elements).filterMap env.getBlock)
    have between := Nat.lt_of_le_of_lt later.later room
    have numbered := extended.numbered fetching.numbered between
    refine ⟨later.numbered numbered room, fun running _ id member => ?_⟩
    rcases asked numbered room running id member with ⟨before, others⟩ | done
    · rw [missing] at before
      have arranged := (env.order.mem_arrange _ _).mpr before
      cases answer : env.getBlock id with
      | none =>
        exact later.asked numbered room id (asks fetching.numbered between id arranged answer)
      | some blk =>
        have processed := List.mem_filterMap.mpr ⟨id, arranged, answer⟩
        exact absurd (answers id blk answer).symm (others blk processed)
    · exact done

/-- When blocks arrive, what they leave missing is requested. -/
theorem Fetching.ancestors {b : Bootstrapper B} (fetching : Fetching b) (running : b.running = true)
    (env : Environment) (request : Request) (blocks : Option (List Block))
    (bound : (b.ancestors parse env request blocks).requestID < 2 ^ 32) :
    Fetching (b.ancestors parse env request blocks) := by
  unfold Bootstrapper.ancestors at bound ⊢
  rcases deleted : b.outstandingRequests.deleteKey request with ⟨rest, _ | wanted⟩
  · exact fetching
  · rw [deleted] at bound
    simp only at bound ⊢
    match blocks with
    | none => exact fetching.fetchAgain env deleted bound
    | some [] => exact fetching.fetchAgain env deleted bound
    | some (requestedBlock :: others) =>
      simp only at bound ⊢
      by_cases same : requestedBlock.id ≠ wanted
      · rw [if_pos same] at bound ⊢
        exact fetching.fetchAgain env deleted bound
      · rw [if_neg same] at bound ⊢
        have own : requestedBlock.id = wanted := not_not.mp same
        refine Fetching.andThen parse env ?_ bound
        intro room
        obtain ⟨numbered, unaffected⟩ := fetching.deleteKey deleted
        obtain ⟨extended, same, asks⟩ := process_asks env { b with outstandingRequests := rest }
          requestedBlock (others.foldl (fun blocks blk => blocks.insert blk.id blk) ∅)
        refine ⟨extended.numbered numbered room, fun still syncing id member => ?_⟩
        rcases asks still id member with ⟨before, different⟩ | done
        · rw [same] at syncing
          rw [own] at different
          exact extended.asked numbered room id
            (unaffected id different (fetching.all running syncing id before))
        · exact done

/-- A node that starts again fetches nothing yet. -/
theorem Fetching.startNode {b : Bootstrapper B} (fetching : Fetching b) (startReqID : UInt32) :
    Fetching (b.startNode parse startReqID) := by
  unfold Bootstrapper.startNode
  split
  · exact fetching.fail
  · split
    · exact fetching.fail
    · exact ⟨numbered_of_new rfl, fun _ syncing => by simp at syncing⟩

/-- The virtual machine answers `GetBlock` with the block of that identifier. -/
def AnswersByID : Event × Environment → Prop
  | (.startSyncing _, env) => ∀ id blk, env.getBlock id = some blk → blk.id = id
  | _ => True

/-- After every event, every missing block is requested. -/
theorem Fetching.step {b : Bootstrapper B} (fetching : Fetching b) {event : Event × Environment}
    (answers : AnswersByID event) (bound : (b.step parse event).requestID < 2 ^ 32) :
    Fetching (b.step parse event) := by
  have guarded : ∀ next : Bootstrapper B → Bootstrapper B,
      (b.running = true → (next b).requestID < 2 ^ 32 → Fetching (next b)) →
      (b.andThen next).requestID < 2 ^ 32 → Fetching (b.andThen next) := by
    intro next kept room
    unfold Bootstrapper.andThen at room ⊢
    split at room
    · rename_i running
      rw [if_pos running]
      exact kept running room
    · rename_i stopped
      rw [if_neg stopped]
      exact fetching
  obtain ⟨event, env⟩ := event
  cases event with
  | startNode startReqID => exact fetching.startNode startReqID
  | startBootstrapping =>
    apply guarded _ _ bound
    intro _ _
    exact fetching.startBootstrapping env
  | startSyncing acceptedBlockIDs =>
    apply guarded _ _ bound
    intro _ room
    exact fetching.startSyncing env acceptedBlockIDs answers room
  | ancestors request blocks =>
    apply guarded _ _ bound
    intro running room
    exact fetching.ancestors running env request blocks room
  | getAncestorsFailed request =>
    apply guarded _ _ bound
    intro _ room
    exact fetching.getAncestorsFailed env request room
  | timeout =>
    apply guarded _ _ bound
    intro _ _
    exact fetching.timeout env
  | crash => exact fetching.fail

/-- In every run in which the request numbers of one start do not come round: while the node is
syncing, every block it misses is asked for by exactly one outstanding request. -/
theorem missing_blocks_are_requested (sets : SetReading) (start : Block)
    {events : List (Event × Environment)}
    (answers : Along (Bootstrapper.step parse)
      (fun b event => AnswersByID event ∧ (b.step parse event).requestID < 2 ^ 32)
      (Bootstrapper.initial sets start : Bootstrapper B) events) :
    let b := run (Bootstrapper.step parse) (Bootstrapper.initial sets start : Bootstrapper B) events
    b.running = true → b.syncing = true → ∀ id ∈ b.missingBlockIDs.elements,
      ∃! request, b.outstandingRequests.getValue request = some id := by
  intro b running syncing id member
  have fetching : Fetching b := Along.invariant (Bootstrapper.step parse) Fetching
    (fun _ _ allowed fetching => fetching.step allowed.1 allowed.2) answers
    (Fetching.of_empty (numbered_of_new rfl) rfl)
  obtain ⟨request, asked⟩ := fetching.all running syncing id member
  exact ⟨request, asked, fun other same => b.outstandingRequests.getValue_injective same asked⟩

end

/-- The node of `shortSync`, before the peer answers. -/
theorem shortSync_requested :
    let b := run (Bootstrapper.step linkedParser)
      (Bootstrapper.initial .map (linkedChain.block 0) : Bootstrapper (List Pointer))
      (shortSync.take 3)
    heightID 2 ∈ b.missingBlockIDs.elements ∧
      ∃! request, b.outstandingRequests.getValue request = some (heightID 2) := by
  intro b
  have missing : heightID 2 ∈ b.missingBlockIDs.elements := by decide +kernel
  refine ⟨missing, missing_blocks_are_requested .map (linkedChain.block 0) ?_ (by decide +kernel)
    (by decide +kernel) _ missing⟩
  refine ⟨⟨trivial, by decide +kernel⟩, ⟨trivial, by decide +kernel⟩, ⟨?_, by decide +kernel⟩,
    trivial⟩
  intro id blk answer
  cases answer

end AvalancheParallel.Bootstrap
