import AvalancheParallel.Bootstrap.BlockStorage

/-!
# The execution of the fetched blocks

`execute` visits the stored blocks through a database iterator, which is in the order of
their heights, takes each one out of the tree and the store, and verifies and accepts those
above the last accepted height. The removals are collected in a batch that is written every
`batchWritePeriod` blocks; every `iteratorReleasePeriod` blocks the iterator is replaced by a
new one that starts above the last height. The loop ends when the iterator is exhausted or
the engine is told to halt, and at the first error.

What the environment answers in a pass, whether to halt, whether the block verifies and is
accepted and whether a write succeeds, is an `Outcome`; the laws hold for every sequence of
them. The counters of the two periods are machine integers far from their bounds.
-/

namespace AvalancheParallel.Bootstrap.BlockStorage

open AvalancheParallel.Database
open AvalancheParallel.ByteOrder
open AvalancheParallel.SortedStore (Ascending Store)
open AvalancheParallel.SeparatedRanges
open AvalancheParallel.Bootstrap.IntervalTree

/-- The `batchWritePeriod` of the source. -/
def batchWritePeriod : ℕ := 64

/-- The `iteratorReleasePeriod` of the source. -/
def iteratorReleasePeriod : ℕ := 1024

/-- What the environment answers in one pass through the loop. -/
structure Outcome where
  shouldHalt : Bool
  verifies : Bool
  accepts : Bool
  writes : Bool

/-- The variables of `execute`, with the database and the blocks the virtual machine accepted. -/
structure Executing (B : Type) where
  db : MemDb
  tree : IntervalTree.Tree B
  batch : BatchOps
  processedSinceBatchWrite : ℕ
  iterator : List (Bytes × Bytes)
  processedSinceIteratorRelease : ℕ
  accepted : List Block

/-- The errors with which `execute` returns. -/
inductive ExecuteError (ε : Type*)
  | parse (error : ε)
  | write
  | verify (blk : Block)
  | accept (blk : Block)

section Passes

variable {B : Type}

/-- `writeBatch`, with whether it succeeded. -/
def writeBatch (outcome : Outcome) (state : Executing B) : Executing B × Bool :=
  if state.processedSinceBatchWrite = 0 then (state, true)
  else if outcome.writes = false then ({ state with processedSinceBatchWrite := 0 }, false)
  else
    ({ state with
        processedSinceBatchWrite := 0
        db := state.batch.write state.db
        batch := state.batch.reset }, true)

variable [BTreeG Pointer B]

/-- The start of a pass: the block leaves the tree and the store. -/
def takeOut (state : Executing B) (height : UInt64) : Executing B :=
  let after := remove state.batch state.tree height
  { state with
    tree := after.1
    batch := after.2
    processedSinceBatchWrite := state.processedSinceBatchWrite + 1 }

/-- The periodic write of the batch. -/
def writePeriodically (outcome : Outcome) (state : Executing B) : Executing B × Bool :=
  if batchWritePeriod ≤ state.processedSinceBatchWrite then writeBatch outcome state
  else (state, true)

/-- The periodic release of the iterator. The batch is written before the new iterator is made. -/
def releasePeriodically (outcome : Outcome) (height : UInt64) (state : Executing B) :
    Executing B × Bool :=
  let counted :=
    { state with processedSinceIteratorRelease := state.processedSinceIteratorRelease + 1 }
  if iteratorReleasePeriod ≤ counted.processedSinceIteratorRelease then
    let (written, succeeded) := writeBatch outcome counted
    if succeeded = false then (written, false)
    else
      ({ written with
          processedSinceIteratorRelease := 0
          iterator := getBlockIteratorWithStart written.db (height + 1) }, true)
  else (counted, true)

/-- The end of a pass: a block above the last accepted height is verified and accepted. -/
def verifyAndAccept {ε : Type*} (lastAcceptedHeight : UInt64) (outcome : Outcome) (blk : Block)
    (state : Executing B) : Executing B × Option (ExecuteError ε) :=
  if blk.height ≤ lastAcceptedHeight then (state, none)
  else if outcome.verifies = false then (state, some (.verify blk))
  else if outcome.accepts = false then (state, some (.accept blk))
  else ({ state with accepted := state.accepted ++ [blk] }, none)

/-- The body of the loop in `execute`, for the bytes that the iterator returned. -/
def executeBlock {ε : Type*} (parse : Bytes → Except ε Block) (lastAcceptedHeight : UInt64)
    (outcome : Outcome) (blkBytes : Bytes) (state : Executing B) :
    Executing B × Option (ExecuteError ε) :=
  match parse blkBytes with
  | .error error => (state, some (.parse error))
  | .ok blk =>
    let (written, succeeded) := writePeriodically outcome (takeOut state blk.height)
    if succeeded = false then (written, some .write)
    else
      let (released, succeeded) := releasePeriodically outcome blk.height written
      if succeeded = false then (released, some .write)
      else verifyAndAccept lastAcceptedHeight outcome blk released

/-- The loop of `execute` and what follows it; `none` stands for too little fuel. -/
def executeLoop {ε : Type*} (parse : Bytes → Except ε Block) (lastAcceptedHeight : UInt64)
    (outcomes : ℕ → Outcome) :
    ℕ → ℕ → Executing B → Option (Executing B × Option (ExecuteError ε))
  | 0, _, _ => none
  | fuel + 1, pass, state =>
    if (outcomes pass).shouldHalt = true then
      let (written, succeeded) := writeBatch (outcomes pass) state
      some (written, if succeeded then none else some .write)
    else
      match state.iterator with
      | [] =>
        let (written, succeeded) := writeBatch (outcomes pass) state
        some (written, if succeeded then none else some .write)
      | (_, blkBytes) :: rest =>
        let (after, error) := executeBlock parse lastAcceptedHeight (outcomes pass) blkBytes
          { state with iterator := rest }
        match error with
        | some error => some (after, some error)
        | none => executeLoop parse lastAcceptedHeight outcomes fuel (pass + 1) after

/-- `execute`, with `accepted` as the blocks accepted before. -/
def execute {ε : Type*} (parse : Bytes → Except ε Block) (lastAcceptedHeight : UInt64)
    (outcomes : ℕ → Outcome) (fuel : ℕ) (db : MemDb) (tree : IntervalTree.Tree B)
    (accepted : List Block) : Option (Executing B × Option (ExecuteError ε)) :=
  executeLoop parse lastAcceptedHeight outcomes fuel 0
    { db := db, tree := tree, batch := BatchOps.new, processedSinceBatchWrite := 0
      iterator := getBlockIterator db, processedSinceIteratorRelease := 0, accepted := accepted }

end Passes

/-! ## What one pass preserves -/

section

variable {ε : Type*} (parse : Bytes → Except ε Block) {B : Type} [BTreeG Pointer B]

/-- The database as it will be once the batch is written. -/
def Executing.view (state : Executing B) : MemDb := state.batch.write state.db

/-- No block of the first database is missing from the second. -/
def BlocksWithin (first second : MemDb) : Prop :=
  ∀ height bytes, first.get (makeBlockKey height) = some bytes →
    second.get (makeBlockKey height) = some bytes

/-- The store is consistent with the batch and without it; the batch only takes blocks out, and
holds nothing that is not written once the counter is back at zero. -/
structure Consistent (state : Executing B) : Prop where
  stored : Stored parse state.tree state.view
  durable : ∃ tree : IntervalTree.Tree B, Stored parse tree state.db
  within : BlocksWithin state.view state.db
  clean : state.processedSinceBatchWrite = 0 → state.view = state.db

/-- Between two passes the iterator is about to visit exactly the blocks that are left. -/
structure Running (state : Executing B) : Prop where
  consistent : Consistent parse state
  visits : state.iterator = getBlockIterator state.view

variable {parse}

/-- An entry of the iterator is a stored block under its height. -/
theorem Stored.mem_iterator {tree : IntervalTree.Tree B} {db : MemDb}
    (stored : Stored parse tree db) {key bytes : Bytes}
    (visited : (key, bytes) ∈ getBlockIterator db) :
    ∃ blk, parse bytes = .ok blk ∧ key = makeBlockKey blk.height ∧
      db.get (makeBlockKey blk.height) = some bytes := by
  obtain ⟨own, found⟩ := (mem_newIteratorWithPrefix _ _ _ _).mp visited
  obtain ⟨height, rfl⟩ := stored.keys key bytes own found
  obtain ⟨blk, recovered, rfl⟩ := stored.parsed height bytes found
  exact ⟨blk, recovered, rfl, found⟩

/-- A successful `writeBatch` changes nothing but where the blocks are. -/
theorem writeBatch_succeeds {state after : Executing B} {outcome : Outcome}
    (consistent : Consistent parse state) (wrote : writeBatch outcome state = (after, true)) :
    Consistent parse after ∧ after.view = state.view ∧ after.db = state.view ∧
      after.iterator = state.iterator ∧ after.accepted = state.accepted := by
  unfold writeBatch at wrote
  split at wrote
  · rename_i none
    obtain ⟨rfl, -⟩ := (Prod.mk.injEq _ _ _ _).mp wrote
    exact ⟨consistent, rfl, (consistent.clean none).symm, rfl, rfl⟩
  · split at wrote
    · cases wrote
    · obtain ⟨rfl, -⟩ := (Prod.mk.injEq _ _ _ _).mp wrote
      have same : state.batch.reset.write (state.batch.write state.db) = state.view := by
        rw [BatchOps.write_reset, BatchOps.write_write]
        rfl
      refine ⟨⟨?_, ⟨state.tree, consistent.stored⟩, ?_, fun _ => same⟩, same, rfl, rfl, rfl⟩
      · change Stored parse state.tree (state.batch.reset.write (state.batch.write state.db))
        rw [same]
        exact consistent.stored
      · change BlocksWithin (state.batch.reset.write (state.batch.write state.db)) state.view
        rw [same]
        exact fun height bytes found => found

omit [BTreeG Pointer B] in
/-- A failed `writeBatch` leaves the database as it is. -/
theorem writeBatch_fails {state after : Executing B} {outcome : Outcome}
    (wrote : writeBatch outcome state = (after, false)) :
    after.db = state.db ∧ after.accepted = state.accepted := by
  unfold writeBatch at wrote
  split at wrote
  · cases wrote
  · split at wrote
    · obtain ⟨rfl, -⟩ := (Prod.mk.injEq _ _ _ _).mp wrote
      exact ⟨rfl, rfl⟩
    · cases wrote

/-- The first block leaves: what is left is what the iterator visits next. -/
theorem takeOut_law [LawfulBTreeG Pointer B] {state : Executing B} {bytes : Bytes}
    {rest : List (Bytes × Bytes)} {blk : Block} (running : Running parse state)
    (next : state.iterator = (makeBlockKey blk.height, bytes) :: rest) :
    let after := takeOut { state with iterator := rest } blk.height
    Consistent parse after ∧ getBlockIterator after.view = rest ∧ after.iterator = rest ∧
      after.db = state.db ∧ after.accepted = state.accepted := by
  intro after
  obtain ⟨⟨stored, durable, within, clean⟩, visits⟩ := running
  have ordered : Ascending ((makeBlockKey blk.height, bytes) :: rest) := by
    rw [← next, visits]
    exact ascending_newIteratorWithPrefix _ _
  have first : (makeBlockKey blk.height, bytes) ∈ getBlockIterator state.view := by
    rw [← visits, next]
    exact List.mem_cons_self
  have held : Holds state.tree.flatten blk.height := by
    rw [stored.holds, ((mem_newIteratorWithPrefix _ _ _ _).mp first).2]
    rfl
  obtain ⟨storedAfter, gets⟩ := remove_of_stored stored held
  change ∀ key, [1] <+: key → after.view.get key = if key = makeBlockKey blk.height then none
    else state.view.get key at gets
  have shrinks : BlocksWithin after.view state.view := by
    intro height found got
    rw [gets _ (own_makeBlockKey height)] at got
    split at got
    · cases got
    · exact got
  refine ⟨⟨storedAfter, durable, ?_, ?_⟩, ?_, rfl, rfl, rfl⟩
  · intro height found got
    exact within height found (shrinks height found got)
  · intro zero
    cases zero
  · apply (ascending_newIteratorWithPrefix _ _).ext (List.pairwise_cons.mp ordered).2
    rintro ⟨key, value⟩
    have among : (key, value) ∈ (makeBlockKey blk.height, bytes) :: rest ↔
        [1] <+: key ∧ state.view.get key = some value := by
      rw [← next, visits]
      exact mem_newIteratorWithPrefix _ _ _ _
    rw [List.mem_cons] at among
    refine (mem_newIteratorWithPrefix _ _ _ _).trans ?_
    constructor
    · rintro ⟨own, found⟩
      rw [gets key own] at found
      split at found
      · cases found
      · rename_i different
        rcases among.mpr ⟨own, found⟩ with same | later
        · exact absurd (congrArg Prod.fst same) different
        · exact later
    · intro later
      obtain ⟨own, found⟩ := among.mp (Or.inr later)
      have beyond := (List.pairwise_cons.mp ordered).1 _ later
      refine ⟨own, ?_⟩
      rw [gets key own, if_neg (ne_of_gt beyond)]
      exact found

/-- What outlives an error: the database is consistent, nothing was added to it, and what was left
to execute is still there. -/
structure Survives (B : Type) [BTreeG Pointer B] (parse : Bytes → Except ε Block)
    (left before after : MemDb) : Prop where
  durable : ∃ tree : IntervalTree.Tree B, Stored parse tree after
  old : BlocksWithin after before
  kept : BlocksWithin left after

/-- Nothing is lost without a step. -/
theorem BlocksWithin.refl (db : MemDb) : BlocksWithin db db := fun _ _ found => found

/-- What outlives two parts of a pass. -/
theorem Survives.trans {left before between after : MemDb}
    (first : Survives B parse left before between) (second : Survives B parse left between after) :
    Survives B parse left before after :=
  ⟨second.durable, fun height bytes found => first.old height bytes (second.old height bytes found),
    second.kept⟩

/-- What the view of a consistent state shows can be loaded from its database. -/
theorem Consistent.survives {state : Executing B} (consistent : Consistent parse state) :
    Survives B parse state.view state.db state.db :=
  ⟨consistent.durable, BlocksWithin.refl _, consistent.within⟩

/-- A part of a pass that changes neither the blocks that are left nor the accepted ones. -/
structure Keeps (parse : Bytes → Except ε Block) (state : Executing B)
    (after : Executing B × Bool) : Prop where
  survives : Survives B parse state.view state.db after.1.db
  accepted : after.1.accepted = state.accepted
  consistent : after.2 = true → Consistent parse after.1
  view : after.2 = true → after.1.view = state.view

/-- Writing the batch keeps the state consistent, whether or not the write succeeds. -/
theorem keeps_writeBatch {state : Executing B} (outcome : Outcome)
    (consistent : Consistent parse state) : Keeps parse state (writeBatch outcome state) := by
  rcases wrote : writeBatch outcome state with ⟨after, succeeded⟩
  cases succeeded with
  | true =>
    obtain ⟨consistentAfter, view, db, _, accepted⟩ := writeBatch_succeeds consistent wrote
    refine ⟨?_, accepted, fun _ => consistentAfter, fun _ => view⟩
    change Survives B parse state.view state.db after.db
    rw [db]
    exact ⟨⟨state.tree, consistent.stored⟩, consistent.within, BlocksWithin.refl _⟩
  | false =>
    obtain ⟨db, accepted⟩ := writeBatch_fails wrote
    refine ⟨?_, accepted, by simp, by simp⟩
    change Survives B parse state.view state.db after.db
    rw [db]
    exact consistent.survives

/-- The periodic write keeps the state consistent, and the iterator with it if it succeeds. -/
theorem writePeriodically_law {state : Executing B} (outcome : Outcome)
    (consistent : Consistent parse state) :
    Keeps parse state (writePeriodically outcome state) ∧
      ((writePeriodically outcome state).2 = true →
        (writePeriodically outcome state).1.iterator = state.iterator) := by
  unfold writePeriodically
  split
  · refine ⟨keeps_writeBatch outcome consistent, ?_⟩
    intro succeeded
    rcases wrote : writeBatch outcome state with ⟨after, result⟩
    obtain rfl : result = true := by simpa [wrote] using succeeded
    exact (writeBatch_succeeds consistent wrote).2.2.2.1
  · exact ⟨⟨consistent.survives, rfl, fun _ => consistent, fun _ => rfl⟩, fun _ => rfl⟩

/-- The new iterator visits what the old one had left to visit. -/
theorem iterator_withStart {tree : IntervalTree.Tree B} {db : MemDb} (stored : Stored parse tree db)
    {height : UInt64}
    (above : ∀ entry ∈ getBlockIterator db, makeBlockKey height < entry.1) :
    getBlockIteratorWithStart db (height + 1) = getBlockIterator db := by
  apply (ascending_newIteratorWithStartAndPrefix _ _ _).ext (ascending_newIteratorWithPrefix _ _)
  rintro ⟨key, value⟩
  rw [mem_newIteratorWithStartAndPrefix, mem_newIteratorWithPrefix]
  constructor
  · rintro ⟨⟨own, _⟩, found⟩
    exact ⟨own, found⟩
  · rintro ⟨own, found⟩
    have visited := (mem_newIteratorWithPrefix _ _ _ _).mpr ⟨own, found⟩
    obtain ⟨blk, _, rfl, _⟩ := stored.mem_iterator visited
    have higher := (makeBlockKey_lt_iff _ _).mp (above _ visited)
    rw [UInt64.lt_iff_toNat_lt] at higher
    refine ⟨⟨own, not_lt.mp ?_⟩, found⟩
    rw [makeBlockKey_lt_iff, UInt64.lt_iff_toNat_lt,
      toNat_add_one (by have := blk.height.toNat_lt; omega)]
    omega

/-- The periodic renewal of the iterator keeps the state consistent. If it succeeds, the new
iterator goes on where the old one was. -/
theorem releasePeriodically_law {state : Executing B} (outcome : Outcome) {height : UInt64}
    (consistent : Consistent parse state) (visits : state.iterator = getBlockIterator state.view)
    (above : ∀ entry ∈ getBlockIterator state.view, makeBlockKey height < entry.1) :
    Keeps parse state (releasePeriodically outcome height state) ∧
      ((releasePeriodically outcome height state).2 = true →
        (releasePeriodically outcome height state).1.iterator = getBlockIterator state.view) := by
  have counted : Consistent parse { state with
      processedSinceIteratorRelease := state.processedSinceIteratorRelease + 1 } :=
    ⟨consistent.stored, consistent.durable, consistent.within, consistent.clean⟩
  have keeps := keeps_writeBatch outcome counted
  unfold releasePeriodically
  simp only
  split
  · rcases wrote : writeBatch outcome { state with
      processedSinceIteratorRelease := state.processedSinceIteratorRelease + 1 }
      with ⟨written, succeeded⟩
    rw [wrote] at keeps
    simp only
    cases succeeded with
    | false =>
      rw [if_pos rfl]
      exact ⟨⟨keeps.survives, keeps.accepted, by simp, by simp⟩, by simp⟩
    | true =>
      rw [if_neg (by simp)]
      obtain ⟨_, view, db, _, accepted⟩ := writeBatch_succeeds counted wrote
      have after := keeps.consistent rfl
      refine ⟨⟨keeps.survives, accepted, fun _ => ?_, fun _ => view⟩, fun _ => ?_⟩
      · exact ⟨after.stored, after.durable, after.within, after.clean⟩
      · change getBlockIteratorWithStart written.db (height + 1) = _
        rw [db]
        exact iterator_withStart counted.stored above
  · exact ⟨⟨counted.survives, rfl, fun _ => counted, fun _ => rfl⟩, fun _ => visits⟩

/-- The blocks among the entries that are above the last accepted height. -/
def executable (parse : Bytes → Except ε Block) (lastAcceptedHeight : UInt64)
    (entries : List (Bytes × Bytes)) : List Block :=
  entries.filterMap (fun entry =>
    (parse entry.2).toOption.filter (fun blk => decide (lastAcceptedHeight < blk.height)))

omit [BTreeG Pointer B] in
/-- Verifying and accepting touches only the accepted blocks. -/
theorem verifyAndAccept_law (lastAcceptedHeight : UInt64) (outcome : Outcome) {bytes : Bytes}
    {blk : Block} (recovered : parse bytes = .ok blk) (key : Bytes) (state : Executing B) :
    let after : Executing B × Option (ExecuteError ε) :=
      verifyAndAccept lastAcceptedHeight outcome blk state
    (∃ accepted, after.1 = { state with accepted := accepted }) ∧
      (after.2 = none → after.1.accepted =
        state.accepted ++ executable parse lastAcceptedHeight [(key, bytes)]) ∧
      (after.2 ≠ none → after.1.accepted = state.accepted) := by
  have alone : executable parse lastAcceptedHeight [(key, bytes)] =
      if blk.height ≤ lastAcceptedHeight then [] else [blk] := by
    have read : (parse bytes).toOption = some blk := by
      rw [recovered]
      rfl
    rw [executable, List.filterMap_cons, List.filterMap_nil, read, Option.filter_some]
    by_cases low : blk.height ≤ lastAcceptedHeight
    · rw [if_neg (by simpa using low), if_pos low]
    · rw [if_pos (by simpa using low), if_neg low]
  unfold verifyAndAccept
  rw [alone]
  split
  · exact ⟨⟨state.accepted, rfl⟩, by simp, by simp⟩
  · split
    · exact ⟨⟨state.accepted, rfl⟩, by simp, by simp⟩
    · split
      · exact ⟨⟨state.accepted, rfl⟩, by simp, by simp⟩
      · exact ⟨⟨_, rfl⟩, by simp, by simp⟩

/-- What one pass does with the next block of the iterator. -/
structure Passes (parse : Bytes → Except ε Block) (lastAcceptedHeight : UInt64)
    (state : Executing B) (entry : Bytes × Bytes) (rest : List (Bytes × Bytes))
    (after : Executing B × Option (ExecuteError ε)) : Prop where
  survives : ∃ left, Survives B parse left state.db after.1.db ∧ getBlockIterator left = rest
  running : after.2 = none → Running parse after.1 ∧ after.1.iterator = rest
  accepted : after.2 = none → after.1.accepted =
    state.accepted ++ executable parse lastAcceptedHeight [entry]
  unaccepted : after.2 ≠ none → after.1.accepted = state.accepted

/-- The body of the loop deletes the next block, accepts it if it is above the last accepted height,
and keeps the state consistent. -/
theorem executeBlock_law [LawfulBTreeG Pointer B] {state : Executing B} {key bytes : Bytes}
    {rest : List (Bytes × Bytes)} (lastAcceptedHeight : UInt64) (outcome : Outcome)
    (running : Running parse state)
    (next : state.iterator = (key, bytes) :: rest) :
    Passes parse lastAcceptedHeight state (key, bytes) rest
      (executeBlock parse lastAcceptedHeight outcome bytes { state with iterator := rest }) := by
  have visited : (key, bytes) ∈ getBlockIterator state.view := by
    rw [← running.visits, next]
    exact List.mem_cons_self
  obtain ⟨blk, recovered, rfl, _⟩ := running.consistent.stored.mem_iterator visited
  obtain ⟨taken, left, same, db, accepted⟩ := takeOut_law running next
  have above : ∀ entry ∈ rest, makeBlockKey blk.height < entry.1 := by
    have ordered : Ascending ((makeBlockKey blk.height, bytes) :: rest) := by
      rw [← next, running.visits]
      exact ascending_newIteratorWithPrefix _ _
    exact (List.pairwise_cons.mp ordered).1
  unfold executeBlock
  rw [recovered]
  simp only
  generalize takeOut { state with iterator := rest } blk.height = started at *
  obtain ⟨keeps, sameIterator⟩ := writePeriodically_law outcome taken
  rcases wrote : writePeriodically outcome started with ⟨written, succeeded⟩
  rw [wrote] at keeps sameIterator
  have survives := keeps.survives
  rw [db] at survives
  simp only
  cases succeeded with
  | false =>
    rw [if_pos rfl]
    exact ⟨⟨_, survives, left⟩, by simp, by simp, fun _ => keeps.accepted.trans accepted⟩
  | true =>
    rw [if_neg (by simp)]
    have consistent := keeps.consistent rfl
    have view : written.view = started.view := keeps.view rfl
    have visits : written.iterator = getBlockIterator written.view := by
      rw [view, left]
      exact (sameIterator rfl).trans same
    rw [← view] at left
    obtain ⟨alsoKeeps, renewed⟩ :=
      releasePeriodically_law outcome consistent visits (by rw [left]; exact above)
    rcases freed : releasePeriodically outcome blk.height written with ⟨released, succeeded⟩
    rw [freed] at alsoKeeps renewed
    rw [← view] at survives
    have alsoSurvives := survives.trans alsoKeeps.survives
    have unchanged := (alsoKeeps.accepted.trans keeps.accepted).trans accepted
    simp only
    cases succeeded with
    | false =>
      rw [if_pos rfl]
      exact ⟨⟨_, alsoSurvives, left⟩, by simp, by simp, fun _ => unchanged⟩
    | true =>
      rw [if_neg (by simp)]
      obtain ⟨⟨final, only⟩, gained, lost⟩ := verifyAndAccept_law lastAcceptedHeight outcome
        recovered (makeBlockKey blk.height) released
      have releasedView : released.view = written.view := alsoKeeps.view rfl
      have after := alsoKeeps.consistent rfl
      refine ⟨⟨_, ?_, left⟩, ?_, ?_, ?_⟩
      · rw [only]
        exact alsoSurvives
      · intro _
        rw [only]
        refine ⟨⟨⟨after.stored, after.durable, after.within, after.clean⟩, ?_⟩, ?_⟩
        · change released.iterator = getBlockIterator released.view
          rw [releasedView]
          exact renewed rfl
        · exact (renewed rfl).trans left
      · intro fine
        rw [gained fine]
        exact congrArg (· ++ _) unchanged
      · intro failed
        rw [lost failed]
        exact unchanged

/-! ## What a whole execution does -/

/-- The blocks to execute are selected one by one. -/
theorem executable_cons (lastAcceptedHeight : UInt64) (entry : Bytes × Bytes)
    (rest : List (Bytes × Bytes)) :
    executable parse lastAcceptedHeight (entry :: rest) =
      executable parse lastAcceptedHeight [entry] ++ executable parse lastAcceptedHeight rest := by
  rw [executable, executable, executable, ← List.filterMap_append, List.singleton_append]

/-- How an execution ends: the blocks it took out in order, those it accepted, and the store it
leaves. -/
structure Ends (parse : Bytes → Except ε Block) (lastAcceptedHeight : UInt64) (state : Executing B)
    (executed left : List (Bytes × Bytes)) (final : Executing B × Option (ExecuteError ε)) :
    Prop where
  split : state.iterator = executed ++ left
  accepted : final.1.accepted = state.accepted ++ executable parse lastAcceptedHeight executed
  durable : ∃ tree : IntervalTree.Tree B, Stored parse tree final.1.db
  old : BlocksWithin final.1.db state.db
  finished : final.2 = none → Stored parse final.1.tree final.1.db ∧
    getBlockIterator final.1.db = left
  kept : final.2 ≠ none → ∀ entry ∈ left.tail, final.1.db.get entry.1 = some entry.2

/-- The write that ends an execution. -/
theorem ends_writeBatch {state : Executing B} (lastAcceptedHeight : UInt64) (outcome : Outcome)
    (running : Running parse state) :
    Ends parse lastAcceptedHeight state [] state.iterator
      ((writeBatch outcome state).1, if (writeBatch outcome state).2 then none
        else some .write) := by
  have keeps := keeps_writeBatch outcome running.consistent
  rcases wrote : writeBatch outcome state with ⟨after, succeeded⟩
  rw [wrote] at keeps
  refine ⟨rfl, ?_, keeps.survives.durable, keeps.survives.old, ?_, ?_⟩
  · rw [executable, List.filterMap_nil, List.append_nil]
    exact keeps.accepted
  · intro fine
    obtain rfl : succeeded = true := by
      cases succeeded with
      | true => rfl
      | false => simp at fine
    obtain ⟨consistent, view, db, _, _⟩ := writeBatch_succeeds running.consistent wrote
    have stored : Stored parse after.tree after.db := by
      rw [db, ← view]
      exact consistent.stored
    refine ⟨stored, ?_⟩
    change getBlockIterator after.db = state.iterator
    rw [db, running.visits]
  · intro _ entry member
    have visited := List.mem_of_mem_tail member
    rw [running.visits] at visited
    obtain ⟨blk, _, own, found⟩ := running.consistent.stored.mem_iterator visited
    rw [own]
    exact keeps.survives.kept _ _ found

/-- With more fuel than blocks the execution ends. It takes a front of the stored blocks out in
the order of their heights and accepts those of them that are above the last accepted height; it
takes out all of them unless it halts or fails. -/
theorem executeLoop_law [LawfulBTreeG Pointer B] (lastAcceptedHeight : UInt64)
    (outcomes : ℕ → Outcome) (fuel pass : ℕ)
    {state : Executing B} (running : Running parse state) (enough : state.iterator.length < fuel) :
    ∃ final executed left,
      executeLoop parse lastAcceptedHeight outcomes fuel pass state = some final ∧
      Ends parse lastAcceptedHeight state executed left final ∧
      (final.2 = none → (∀ later, (outcomes later).shouldHalt = false) → left = []) := by
  induction fuel generalizing pass state with
  | zero => exact absurd enough (Nat.not_lt_zero _)
  | succ fuel inductionHypothesis =>
    have written := ends_writeBatch lastAcceptedHeight (outcomes pass) running
    by_cases halts : (outcomes pass).shouldHalt = true
    · refine ⟨_, [], state.iterator, ?_, written, ?_⟩
      · simp only [executeLoop, halts, if_true]
      · intro _ never
        rw [never pass] at halts
        cases halts
    · cases next : state.iterator with
      | nil =>
        rw [next] at written
        refine ⟨_, [], [], ?_, written, fun _ _ => rfl⟩
        simp only [executeLoop, halts, next]
        rfl
      | cons entry rest =>
        obtain ⟨key, bytes⟩ := entry
        have passes := executeBlock_law lastAcceptedHeight (outcomes pass) running next
        rcases ran : executeBlock parse lastAcceptedHeight (outcomes pass) bytes
          { state with iterator := rest } with ⟨after, error⟩
        rw [ran] at passes
        obtain ⟨left, survives, remaining⟩ := passes.survives
        cases error with
        | some error =>
          refine ⟨(after, some error), [], (key, bytes) :: rest, ?_, ?_, by simp⟩
          · simp [executeLoop, halts, next, ran]
          · refine ⟨next, ?_, survives.durable, survives.old, by simp, ?_⟩
            · rw [executable, List.filterMap_nil, List.append_nil]
              exact passes.unaccepted (by simp)
            · intro _ entry member
              have visited : entry ∈ getBlockIterator state.view := by
                rw [← running.visits, next]
                exact List.mem_cons_of_mem _ member
              obtain ⟨blk, _, own, _⟩ := running.consistent.stored.mem_iterator visited
              have waiting : entry ∈ getBlockIterator left := by
                rw [remaining]
                exact member
              have found := ((mem_newIteratorWithPrefix _ _ _ _).mp waiting).2
              rw [own] at found ⊢
              exact survives.kept _ _ found
        | none =>
          obtain ⟨runningAfter, sameRest⟩ := passes.running rfl
          change after.iterator = rest at sameRest
          have shorter : after.iterator.length < fuel := by
            rw [sameRest]
            rw [next, List.length_cons] at enough
            omega
          obtain ⟨final, executed, left, result, ends, drained⟩ :=
            inductionHypothesis (pass + 1) runningAfter shorter
          refine ⟨final, (key, bytes) :: executed, left, ?_, ?_, drained⟩
          · simp only [executeLoop, halts, next, ran]
            exact result
          · refine ⟨?_, ?_, ends.durable, ?_, ends.finished, ends.kept⟩
            · rw [next, List.cons_append, ← ends.split, sameRest]
            · rw [ends.accepted, executable_cons, ← List.append_assoc]
              exact congrArg (· ++ _) (passes.accepted rfl)
            · exact fun height bytes found => survives.old _ _ (ends.old height bytes found)

/-- Blocks are visited in the order of their heights. -/
theorem executable_ascending {tree : IntervalTree.Tree B} {db : MemDb}
    (stored : Stored parse tree db)
    (lastAcceptedHeight : UInt64) {entries : List (Bytes × Bytes)} (ordered : Ascending entries)
    (visited : ∀ entry ∈ entries, entry ∈ getBlockIterator db) :
    (executable parse lastAcceptedHeight entries).Pairwise
      (fun first second => first.height < second.height) := by
  have heights : ∀ entry ∈ entries, ∀ blk, (parse entry.2).toOption.filter
      (fun blk => decide (lastAcceptedHeight < blk.height)) = some blk →
      entry.1 = makeBlockKey blk.height := by
    intro entry member blk selected
    obtain ⟨own, recovered, key, _⟩ := stored.mem_iterator (visited entry member)
    have read : (parse entry.2).toOption = some own := by
      rw [recovered]
      rfl
    rw [read] at selected
    obtain ⟨same, _⟩ := Option.filter_eq_some_iff.mp selected
    rw [← Option.some.inj same, key]
  unfold executable
  rw [List.pairwise_filterMap]
  apply List.Pairwise.imp_of_mem _ ordered
  intro first second member alsoMember before blk selected other alsoSelected
  rw [heights first member blk selected, heights second alsoMember other alsoSelected] at before
  exact (makeBlockKey_lt_iff _ _).mp before

/-- An execution from a consistent store ends. -/
theorem execute_ends [LawfulBTreeG Pointer B] {tree : IntervalTree.Tree B} {db : MemDb}
    (stored : Stored parse tree db) (lastAcceptedHeight : UInt64) (outcomes : ℕ → Outcome)
    (accepted : List Block) {fuel : ℕ} (enough : (getBlockIterator db).length < fuel) :
    ∃ final executed left,
      execute parse lastAcceptedHeight outcomes fuel db tree accepted = some final ∧
      Ends parse lastAcceptedHeight ⟨db, tree, BatchOps.new, 0, getBlockIterator db, 0, accepted⟩
        executed left final ∧
      (final.2 = none → (∀ pass, (outcomes pass).shouldHalt = false) → left = []) :=
  executeLoop_law lastAcceptedHeight outcomes fuel 0
    ⟨⟨stored, ⟨tree, stored⟩, BlocksWithin.refl db, fun _ => rfl⟩, rfl⟩ enough

/-- From a consistent store, for every answer of the environment: `execute` ends with more fuel
than stored blocks, accepts in strictly increasing order of height exactly the blocks above the
last accepted height among a front of the stored blocks, and leaves a store from which the tree
can be loaded. Without an error the store and the tree hold exactly the other blocks, and none if
the execution was never told to halt. After an error the blocks behind the one in which it
happened are still stored. -/
theorem execute_takes_front [LawfulBTreeG Pointer B] {tree : IntervalTree.Tree B} {db : MemDb}
    (stored : Stored parse tree db) (lastAcceptedHeight : UInt64) (outcomes : ℕ → Outcome)
    (accepted : List Block) {fuel : ℕ} (enough : (getBlockIterator db).length < fuel) :
    ∃ final error executed left,
      execute parse lastAcceptedHeight outcomes fuel db tree accepted = some (final, error) ∧
      getBlockIterator db = executed ++ left ∧
      final.accepted = accepted ++ executable parse lastAcceptedHeight executed ∧
      (executable parse lastAcceptedHeight executed).Pairwise
        (fun first second => first.height < second.height) ∧
      (∃ loaded : IntervalTree.Tree B, Tree.newTree final.db = .ok loaded ∧
        Stored parse loaded final.db ∧
        (error = none → loaded.flatten = final.tree.flatten ∧ loaded.len = final.tree.len)) ∧
      (error = none → getBlockIterator final.db = left ∧
        ((∀ pass, (outcomes pass).shouldHalt = false) → left = [])) ∧
      (error ≠ none → ∀ entry ∈ left.tail, final.db.get entry.1 = some entry.2) := by
  obtain ⟨⟨final, error⟩, executed, left, result, ends, drained⟩ :=
    execute_ends stored lastAcceptedHeight outcomes accepted enough
  have split : getBlockIterator db = executed ++ left := ends.split
  refine ⟨final, error, executed, left, result, split, ends.accepted, ?_, ?_, ?_, ends.kept⟩
  · apply executable_ascending stored lastAcceptedHeight
    · have ordered : Ascending (getBlockIterator db) := ascending_newIteratorWithPrefix db [1]
      rw [split] at ordered
      exact (List.pairwise_append.mp ordered).1
    · intro entry member
      rw [split]
      exact List.mem_append_left left member
  · obtain ⟨tree, storedAfter⟩ := ends.durable
    obtain ⟨loaded, loading, ranges, count⟩ := storedAfter.inStep.newTree
    refine ⟨loaded, loading, storedAfter.congr ranges count, ?_⟩
    intro fine
    -- The tree of the execution is in step with the store too, and the store has one tree.
    obtain ⟨again, alsoLoading, alsoRanges, alsoCount⟩ := (ends.finished fine).1.inStep.newTree
    obtain rfl : again = loaded := Except.ok.inj (alsoLoading.symm.trans loading)
    exact ⟨alsoRanges, alsoCount⟩
  · intro fine
    exact ⟨(ends.finished fine).2, drained fine⟩

end

/-- A block that is its height. -/
def heightBlock (height : UInt64) : Block :=
  ⟨Vector.replicate 32 0, Vector.replicate 32 0, height, packUInt64 height⟩

/-- A parser that takes the bytes for the height. -/
def heightParser (bytes : Bytes) : Except DbError Block :=
  match parseUInt64 bytes with
  | .error error => .error error
  | .ok height => .ok (heightBlock height)

/-- The tree and the batch after storing a block of height 4. -/
def oneBlock : IntervalTree.Tree (List Pointer) × BatchOps :=
  (add BatchOps.new Tree.empty 1 4 (packUInt64 4)).1

/-- The tree and the batch after storing a block of height 2 as well. -/
def twoBlocks : IntervalTree.Tree (List Pointer) × BatchOps :=
  (add oneBlock.2 oneBlock.1 1 2 (packUInt64 2)).1

/-- Both blocks are accepted in the order of their heights, and none is left. -/
theorem execute_takes_front_two_blocks :
    ∃ final error executed left,
      execute heightParser 1 (fun _ => ⟨false, true, true, true⟩) 3 (twoBlocks.2.write Store.empty)
        twoBlocks.1 [] = some (final, error) ∧
      final.accepted.map (fun blk => blk.height) = [2, 4] ∧
      getBlockIterator (twoBlocks.2.write Store.empty) = executed ++ left ∧
      final.accepted = executable heightParser 1 executed ∧ left = [] := by
  have recovered :
      ∀ height, heightParser (heightBlock height).bytes = .ok (heightBlock height) := by
    intro height
    simp [heightParser, heightBlock]
  have fresh : ∀ {tree : IntervalTree.Tree (List Pointer)} {height : UInt64},
      Canonical tree.flatten → tree.contains height = false → 1 < height →
      Fresh tree 1 height := by
    intro tree height canonical absent above
    refine ⟨above, ?_⟩
    rw [← Tree.contains_iff canonical, absent]
    exact Bool.false_ne_true
  have first : Stored heightParser oneBlock.1 (oneBlock.2.write Store.empty) :=
    (add_of_fresh (stored_empty heightParser) (recovered 4)
      (fresh separated_nil (by decide) (by decide))).1
  have second : Stored heightParser twoBlocks.1 (twoBlocks.2.write Store.empty) :=
    (add_of_fresh first (recovered 2)
      (fresh first.inStep.canonical (by decide +kernel) (by decide))).1
  have enough : (getBlockIterator (twoBlocks.2.write Store.empty)).length < 3 := by decide +kernel
  obtain ⟨final, error, executed, left, result, split, accepted, _, _, fine, _⟩ :=
    execute_takes_front second 1 (fun _ => ⟨false, true, true, true⟩) [] enough
  have evaluated : (execute heightParser 1 (fun _ => ⟨false, true, true, true⟩) 3
      (twoBlocks.2.write Store.empty) twoBlocks.1 []).map (fun final =>
        (final.1.accepted.map (fun blk => blk.height), final.2.isNone)) =
      some ([2, 4], true) := by
    decide +kernel
  rw [result, Option.map_some, Option.some.injEq, Prod.mk.injEq] at evaluated
  exact ⟨final, error, executed, left, result, evaluated.1, split, accepted,
    (fine (Option.isNone_iff_eq_none.mp evaluated.2)).2 (fun _ => rfl)⟩

end AvalancheParallel.Bootstrap.BlockStorage
