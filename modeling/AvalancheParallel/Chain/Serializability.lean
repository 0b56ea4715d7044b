import AvalancheParallel.Chain.Outlook
import Mathlib.Data.List.Permutation

/-!
# Serializability of block creation

When one request creates its block while another holds a block that is not yet
submitted, the height of its block is computed from a current height that the
submission has yet to raise. The result is then that of a sequential execution only
if the height comes out the same anyway, or if the two requests could as well have
been served in the opposite order. The comparison is made on ledgers: the lists of
the heights show which contents an execution has created, the stored blocks and the
tips show in which order.
-/

namespace AvalancheParallel.Chain

open AvalancheParallel.RangeLoop AvalancheParallel.Ids

/-- The blocks with these headers are the same, if the second takes its transactions after
the first. -/
def Header.Alike (first second : Header) : Prop := first = second ∧ first.txCount = 0

/-- Stored in either order, the blocks leave the same maps. -/
def Header.StoresCommute (first second : Header) : Prop :=
  (first.id = second.id → first.Alike second) ∧ (first.height = second.height → first.Alike second)

/-- Submitted in either order, the blocks leave the same tips. -/
def Header.SubmitsCommute (first second : Header) : Prop :=
  (first.id = second.id → first.Alike second) ∧
    (first.id ≠ second.id → first.id ∉ second.parentIDs ∧ second.id ∉ first.parentIDs)

instance (first second : Header) : Decidable (first.Alike second) :=
  inferInstanceAs (Decidable (_ ∧ _))

instance (first second : Header) : Decidable (first.StoresCommute second) :=
  inferInstanceAs (Decidable (_ ∧ _))

instance (first second : Header) : Decidable (first.SubmitsCommute second) :=
  inferInstanceAs (Decidable (_ ∧ _))

namespace Outlook

variable (sha256 : List UInt8 → ID)

/-- The header of the follower's block when the follower comes before the leader has
submitted. -/
def following (leader follower : CreateRequest) (outlook : Outlook) : Header :=
  (outlook.store (outlook.header sha256 leader)).header sha256 follower

/-- The submission of the leader's block does not change the follower's height: it does not
raise the current height, or the follower's parents reach the leader's height. -/
def Undisturbed (leader follower : CreateRequest) (outlook : Outlook) : Prop :=
  let first := outlook.header sha256 leader
  outlook.currentHeight < first.height →
    first.height ≤ (outlook.store first).baseHeight follower.parentIDs

/-- The follower could have been served first: its parents are there already, both heights
come out the same, the pool has enough transactions for both, and neither block replaces
the other or shares its height. -/
def Exchangeable (leader follower : CreateRequest) (outlook : Outlook) : Prop :=
  let first := outlook.header sha256 leader
  let second := outlook.following sha256 leader follower
  outlook.Builds follower ∧
    outlook.nextHeight follower.parentIDs = second.height ∧
    ((outlook.store second).submit second).nextHeight leader.parentIDs = first.height ∧
    outlook.taken follower.maxTxs = second.txCount ∧
    (outlook.store second).taken leader.maxTxs = first.txCount ∧
    first.StoresCommute second

/-- The overlap leaves what a sequential execution leaves; `inOrder` tells whether the leader
also submits first. -/
def Harmless (leader follower : CreateRequest) (inOrder : Bool) (outlook : Outlook) : Prop :=
  let first := outlook.header sha256 leader
  let second := outlook.following sha256 leader follower
  outlook.Builds leader → (outlook.store first).Builds follower →
    (outlook.Undisturbed sha256 leader follower ∧
      (inOrder = true ∨ first.SubmitsCommute second)) ∨
    (outlook.Exchangeable sha256 leader follower ∧
      (inOrder = false ∨ first.SubmitsCommute second))

instance (leader follower : CreateRequest) (outlook : Outlook) :
    Decidable (outlook.Undisturbed sha256 leader follower) :=
  inferInstanceAs (Decidable (_ → _))

instance (leader follower : CreateRequest) (outlook : Outlook) :
    Decidable (outlook.Exchangeable sha256 leader follower) :=
  inferInstanceAs (Decidable (_ ∧ _ ∧ _ ∧ _ ∧ _ ∧ _))

instance (leader follower : CreateRequest) (inOrder : Bool) (outlook : Outlook) :
    Decidable (outlook.Harmless sha256 leader follower inOrder) :=
  inferInstanceAs (Decidable (_ → _ → _))

end Outlook

namespace Ledger

variable (sha256 : List UInt8 → ID)

/-- A request served without interruption. -/
def serveAll (request : CreateRequest) (ledger : Ledger) : Ledger :=
  if ledger.Builds request then
    (ledger.store (ledger.create sha256 request)).submit (ledger.create sha256 request)
  else ledger

/-- The content the follower creates before the leader has submitted. -/
def following (leader follower : CreateRequest) (ledger : Ledger) : Content :=
  (ledger.store (ledger.create sha256 leader)).create sha256 follower

/-- The follower creates its block while the leader holds one. -/
def overlapped (leader follower : CreateRequest) (inOrder : Bool) (ledger : Ledger) : Ledger :=
  if ledger.Builds leader then
    let first := ledger.create sha256 leader
    if (ledger.store first).Builds follower then
      let second := ledger.following sha256 leader follower
      let stored := (ledger.store first).store second
      if inOrder then (stored.submit first).submit second
      else (stored.submit second).submit first
    else (ledger.store first).submit first
  else ledger.serveAll sha256 follower

variable {sha256}

/-- Submissions touch neither the pool nor what `Builds` looks at. -/
theorem submit_builds (content : Content) (request : CreateRequest) (ledger : Ledger) :
    (ledger.submit content).Builds request ↔ ledger.Builds request := Iff.rfl

/-- The tips after submissions do not depend on what was stored. -/
theorem store_submits_latest (one two first second : Content) (ledger : Ledger) :
    ((((ledger.store one).store two).submit first).submit second).latestBlocks =
      ((ledger.submit first).submit second).latestBlocks := by
  simp only [submit, store]

/-- With the contents they create, `serveAll` and `overlapped` are stores and submissions. -/
theorem serveAll_eq {request : CreateRequest} {ledger : Ledger} {content : Content}
    (builds : ledger.Builds request) (created : ledger.create sha256 request = content) :
    ledger.serveAll sha256 request = (ledger.store content).submit content := by
  rw [serveAll, if_pos builds, created]

/-- A request that builds no block changes nothing. -/
theorem serveAll_stuck {request : CreateRequest} {ledger : Ledger}
    (stuck : ¬ ledger.Builds request) : ledger.serveAll sha256 request = ledger := by
  rw [serveAll, if_neg stuck]

/-- Two requests in a row, when both create a block. -/
theorem serveAll_serveAll {one two : CreateRequest} {ledger : Ledger} {first second : Content}
    (builds : ledger.Builds one) (created : ledger.create sha256 one = first)
    (buildsNext : (ledger.store first).Builds two)
    (createdNext : ((ledger.store first).submit first).create sha256 two = second) :
    (ledger.serveAll sha256 one).serveAll sha256 two =
      (((ledger.store first).store second).submit first).submit second := by
  rw [serveAll_eq builds created]
  exact serveAll_eq ((submit_builds first two (ledger.store first)).mpr buildsNext) createdNext

/-- Two sequential requests that have stored as much as an overlap have stored the same
contents. -/
theorem serveAll_inverts {one two : CreateRequest} {ledger : Ledger} {first second : Content}
    (same : ((ledger.store first).store second).blocksByHeight =
      ((ledger.serveAll sha256 one).serveAll sha256 two).blocksByHeight) :
    ∃ earlier later, ledger.Builds one ∧ ledger.create sha256 one = earlier ∧
      ((ledger.store earlier).submit earlier).create sha256 two = later ∧
      (ledger.serveAll sha256 one).serveAll sha256 two =
        (((ledger.store earlier).store later).submit earlier).submit later ∧
      ((earlier = first ∧ later = second) ∨ (earlier = second ∧ later = first)) := by
  by_cases builds : ledger.Builds one
  · rw [serveAll_eq builds rfl] at same ⊢
    by_cases buildsNext : ((ledger.store (ledger.create sha256 one)).submit
        (ledger.create sha256 one)).Builds two
    · rw [serveAll_eq buildsNext rfl] at same ⊢
      exact ⟨_, _, builds, rfl, rfl, rfl, stores_determine same⟩
    · rw [serveAll_stuck buildsNext] at same
      exact absurd same (stores_twice [ledger.create sha256 one] (by simp))
  · rw [serveAll, serveAll, if_neg builds] at same
    split at same
    · exact absurd same (stores_twice [ledger.create sha256 two] (by simp))
    · exact absurd same (stores_twice [] (by simp))

/-- The order of iteration changes the transactions of a new content, not its ID. -/
theorem create_visiting_id {ledger : Ledger} (keyed : IDKeyed ledger.txPool)
    (order : IterationOrder ID) (request : CreateRequest) :
    (ledger.create sha256 (request.visiting order)).id = (ledger.create sha256 request).id := by
  unfold create sealed CreateRequest.visiting
  simp only [selectTxs_length keyed]

/-- Storing a block keeps the keys of the pool right. -/
theorem store_keyed (content : Content) {ledger : Ledger} (keyed : IDKeyed ledger.txPool) :
    IDKeyed (ledger.store content).txPool := by
  intro id tx found
  exact keyed id tx ((lookup_foldl_erase_some _ _ id tx).mp found).1

/-- No block disappears in a store. -/
theorem store_builds {request : CreateRequest} {ledger : Ledger} (content : Content)
    (builds : ledger.Builds request) : (ledger.store content).Builds request := by
  refine ⟨?_, builds.2⟩
  intro parentID named
  by_cases same : parentID = content.id
  · simp [store, same]
  · simpa [store, Function.update_of_ne same] using builds.1 parentID named

/-- A new content takes as many transactions as the pool gives. -/
theorem create_count {ledger : Ledger} (keyed : IDKeyed ledger.txPool) (request : CreateRequest) :
    (ledger.create sha256 request).transactions.length =
      takenCount request.maxTxs ledger.txPool :=
  selectTxs_length keyed request.order request.maxTxs

section Headers

variable {leader follower : CreateRequest} {ledger : Ledger} (keyed : IDKeyed ledger.txPool)
include keyed

/-- The outlook after the first block is stored. -/
theorem leading_outlook : (ledger.store (ledger.create sha256 leader)).outlook =
    ledger.outlook.store (ledger.outlook.header sha256 leader) := by
  rw [store_outlook (create_drawn sha256 keyed leader), create_header sha256 keyed]

/-- The follower takes what the leader has left in the pool. -/
theorem following_apart : ∀ tx ∈ (ledger.following sha256 leader follower).transactions,
    ledger.txPool.lookup tx.id = some tx ∧
      tx.id ∉ (ledger.create sha256 leader).transactions.map Transaction.id := by
  intro tx taken
  have drawn := create_drawn sha256 (store_keyed (ledger.create sha256 leader) keyed) follower
  exact (lookup_foldl_erase_some _ _ tx.id tx).mp (drawn.pooled tx taken)

/-- The second block draws its transactions from the pool. -/
theorem following_drawn : Drawn (ledger.following sha256 leader follower) ledger := by
  have drawn := create_drawn sha256 (store_keyed (ledger.create sha256 leader) keyed) follower
  exact ⟨drawn.distinct, fun tx taken => (following_apart keyed tx taken).1⟩

/-- The outlook foretells the header of the second block. -/
theorem following_header : (ledger.following sha256 leader follower).header =
    ledger.outlook.following sha256 leader follower := by
  unfold following Outlook.following
  rw [create_header sha256 (store_keyed _ keyed), leading_outlook keyed]

/-- The outlook after the second block alone is stored. -/
theorem following_outlook : (ledger.store (ledger.following sha256 leader follower)).outlook =
    ledger.outlook.store (ledger.outlook.following sha256 leader follower) := by
  rw [store_outlook (following_drawn keyed), following_header keyed]

/-- Both requests create the same content exactly if the headers are the same and there is no
transaction to take. -/
theorem alike_iff : (ledger.outlook.header sha256 leader).Alike
      (ledger.outlook.following sha256 leader follower) ↔
    ledger.create sha256 leader = ledger.following sha256 leader follower := by
  rw [← create_header sha256 keyed, ← following_header keyed]
  constructor
  · rintro ⟨headers, none⟩
    have empty := List.length_eq_zero_iff.mp none
    have emptyToo := List.length_eq_zero_iff.mp ((congrArg Header.txCount headers).symm.trans none)
    exact Content.eq_of_header headers (empty.trans emptyToo.symm)
  · intro same
    refine ⟨congrArg Content.header same, List.length_eq_zero_iff.mpr ?_⟩
    apply List.eq_nil_iff_forall_not_mem.mpr
    intro tx taken
    have takenToo : tx ∈ (ledger.following sha256 leader follower).transactions := same ▸ taken
    exact (following_apart keyed tx takenToo).2 (List.mem_map_of_mem taken)

/-- The headers decide whether the two blocks may be stored in either order. -/
theorem storesCommute_iff : (ledger.outlook.header sha256 leader).StoresCommute
      (ledger.outlook.following sha256 leader follower) ↔
    StoresCommute (ledger.create sha256 leader) (ledger.following sha256 leader follower) := by
  unfold Header.StoresCommute StoresCommute
  rw [alike_iff keyed, ← create_header sha256 keyed, ← following_header keyed]
  rfl

/-- The headers decide whether the two blocks may be submitted in either order. -/
theorem submitsCommute_iff : (ledger.outlook.header sha256 leader).SubmitsCommute
      (ledger.outlook.following sha256 leader follower) ↔
    SubmitsCommute (ledger.create sha256 leader) (ledger.following sha256 leader follower) := by
  unfold Header.SubmitsCommute SubmitsCommute
  rw [alike_iff keyed, ← create_header sha256 keyed, ← following_header keyed]
  rfl

/-- The headers decide whether the first submission changes the height of the second block. -/
theorem undisturbed_iff : ledger.outlook.Undisturbed sha256 leader follower ↔
    ((ledger.store (ledger.create sha256 leader)).submit
        (ledger.create sha256 leader)).nextHeight follower.parentIDs =
      (ledger.store (ledger.create sha256 leader)).nextHeight follower.parentIDs := by
  rw [← nextHeight_outlook, ← nextHeight_outlook, submit_outlook,
    Outlook.submit_nextHeight_iff, leading_outlook keyed, create_header sha256 keyed]
  rfl

/-- The headers decide whether the second request, served first, leads to the same two blocks. -/
theorem exchangeable_iff : ledger.outlook.Exchangeable sha256 leader follower ↔
    ledger.Builds follower ∧
      ledger.nextHeight follower.parentIDs = (ledger.following sha256 leader follower).height ∧
      ((ledger.store (ledger.following sha256 leader follower)).submit
          (ledger.following sha256 leader follower)).nextHeight leader.parentIDs =
        (ledger.create sha256 leader).height ∧
      takenCount follower.maxTxs ledger.txPool =
        (ledger.following sha256 leader follower).transactions.length ∧
      takenCount leader.maxTxs (ledger.store (ledger.following sha256 leader follower)).txPool =
        (ledger.create sha256 leader).transactions.length ∧
      StoresCommute (ledger.create sha256 leader) (ledger.following sha256 leader follower) := by
  rw [Outlook.Exchangeable, builds_outlook, storesCommute_iff keyed, ← following_outlook keyed,
    ← following_header keyed, ← create_header sha256 keyed, ← submit_outlook, nextHeight_outlook,
    nextHeight_outlook]
  rfl

end Headers

section Overlap

variable {leader follower : CreateRequest} {ledger : Ledger} (inOrder : Bool)

/-- Both blocks are stored before the first submission. -/
theorem overlapped_eq (builds : ledger.Builds leader)
    (buildsNext : (ledger.store (ledger.create sha256 leader)).Builds follower) :
    ledger.overlapped sha256 leader follower inOrder =
      let first := ledger.create sha256 leader
      let second := ledger.following sha256 leader follower
      let stored := (ledger.store first).store second
      if inOrder then (stored.submit first).submit second
      else (stored.submit second).submit first := by
  simp only [overlapped, builds, buildsNext, if_true]

/-- The second request builds no block once the first block is stored. -/
theorem overlapped_alone (builds : ledger.Builds leader)
    (stuck : ¬ (ledger.store (ledger.create sha256 leader)).Builds follower) :
    ledger.overlapped sha256 leader follower inOrder =
      (ledger.store (ledger.create sha256 leader)).submit (ledger.create sha256 leader) := by
  simp only [overlapped, builds, stuck, if_true, if_false]

/-- The first request builds no block. -/
theorem overlapped_stuck (stuck : ¬ ledger.Builds leader) :
    ledger.overlapped sha256 leader follower inOrder = ledger.serveAll sha256 follower := by
  simp only [overlapped, stuck, if_false]

/-- What an overlap has stored and which tips it leaves. -/
theorem overlapped_fields (builds : ledger.Builds leader)
    (buildsNext : (ledger.store (ledger.create sha256 leader)).Builds follower) :
    let first := ledger.create sha256 leader
    let second := ledger.following sha256 leader follower
    (ledger.overlapped sha256 leader follower inOrder).blocksByHeight =
        ((ledger.store first).store second).blocksByHeight ∧
      (ledger.overlapped sha256 leader follower inOrder).blocks =
        ((ledger.store first).store second).blocks ∧
      (ledger.overlapped sha256 leader follower inOrder).latestBlocks =
        if inOrder then ((ledger.submit first).submit second).latestBlocks
        else ((ledger.submit second).submit first).latestBlocks := by
  rw [overlapped_eq _ builds buildsNext]
  cases inOrder with
  | true => exact ⟨rfl, rfl, store_submits_latest _ _ _ _ ledger⟩
  | false => exact ⟨rfl, rfl, store_submits_latest _ _ _ _ ledger⟩

/-- What an overlap must have stored, and in which order submitted, if it looks like two
requests in a row. -/
theorem overlapped_inverts (builds : ledger.Builds leader)
    (buildsNext : (ledger.store (ledger.create sha256 leader)).Builds follower)
    {one two : CreateRequest} (same : ledger.overlapped sha256 leader follower inOrder =
      (ledger.serveAll sha256 one).serveAll sha256 two) :
    let first := ledger.create sha256 leader
    let second := ledger.following sha256 leader follower
    ∃ earlier later, ledger.Builds one ∧ ledger.create sha256 one = earlier ∧
      ((ledger.store earlier).submit earlier).create sha256 two = later ∧
      ((ledger.store first).store second).blocks =
        ((ledger.store earlier).store later).blocks ∧
      ((ledger.store first).store second).blocksByHeight =
        ((ledger.store earlier).store later).blocksByHeight ∧
      (if inOrder then ((ledger.submit first).submit second).latestBlocks
        else ((ledger.submit second).submit first).latestBlocks) =
        ((ledger.submit earlier).submit later).latestBlocks ∧
      ((earlier = first ∧ later = second) ∨ (earlier = second ∧ later = first)) := by
  intro first second
  obtain ⟨lists, blocks, latest⟩ := overlapped_fields inOrder builds buildsNext
  obtain ⟨earlier, later, buildsFirst, createdFirst, createdSecond, serial, contents⟩ :=
    serveAll_inverts (lists.symm.trans (congrArg blocksByHeight same))
  rw [same, serial] at lists blocks latest
  rw [store_submits_latest] at latest
  exact ⟨earlier, later, buildsFirst, createdFirst, createdSecond, blocks.symm, lists.symm,
    latest.symm, contents⟩

/-- The tips tell the order of the submissions unless these commute. -/
theorem commute_of_tips {first second : Content}
    (tips : (if inOrder then ((ledger.submit first).submit second).latestBlocks
      else ((ledger.submit second).submit first).latestBlocks) =
        ((ledger.submit first).submit second).latestBlocks) :
    inOrder = true ∨ SubmitsCommute first second := by
  cases inOrder with
  | true => exact Or.inl rfl
  | false => exact Or.inr ((submit_latest_iff _ _ _).mp tips.symm)

/-- Tips that are the same in the other order were submitted in it, or their order does not matter.
-/
theorem commute_of_reversed_tips {first second : Content}
    (tips : (if inOrder then ((ledger.submit first).submit second).latestBlocks
      else ((ledger.submit second).submit first).latestBlocks) =
        ((ledger.submit second).submit first).latestBlocks) :
    inOrder = false ∨ SubmitsCommute first second := by
  cases inOrder with
  | true => exact Or.inr ((submit_latest_iff _ _ _).mp tips)
  | false => exact Or.inl rfl

/-- An overlap that looks like the leader followed by the follower is undisturbed. -/
theorem undisturbed_of_eq (keyed : IDKeyed ledger.txPool) (builds : ledger.Builds leader)
    (buildsNext : (ledger.store (ledger.create sha256 leader)).Builds follower)
    (orderOne orderTwo : IterationOrder ID)
    (same : ledger.overlapped sha256 leader follower inOrder =
      (ledger.serveAll sha256 (leader.visiting orderOne)).serveAll sha256
        (follower.visiting orderTwo)) :
    ledger.outlook.Undisturbed sha256 leader follower ∧
      (inOrder = true ∨ SubmitsCommute (ledger.create sha256 leader)
        (ledger.following sha256 leader follower)) := by
  obtain ⟨earlier, later, _, createdFirst, createdSecond, blocks, _, tips, contents⟩ :=
    overlapped_inverts inOrder builds buildsNext same
  have straight : earlier = ledger.create sha256 leader ∧
      later = ledger.following sha256 leader follower := by
    rcases contents with straight | ⟨rfl, rfl⟩
    · exact straight
    · -- both contents have the ID of the leader's, and each is the one stored last
      have ids : (ledger.create sha256 leader).id =
          (ledger.following sha256 leader follower).id := by
        rw [← createdFirst]
        exact (create_visiting_id keyed orderOne leader).symm
      have equal := stores_id blocks ids
      exact ⟨equal.symm, equal⟩
  obtain ⟨rfl, rfl⟩ := straight
  have height := congrArg Content.height createdSecond
  exact ⟨(undisturbed_iff keyed).mpr height, commute_of_tips inOrder tips⟩

/-- An overlap that looks like the follower followed by the leader is undisturbed, if the two
requests are alike, or exchangeable. -/
theorem exchangeable_of_eq (keyed : IDKeyed ledger.txPool) (builds : ledger.Builds leader)
    (buildsNext : (ledger.store (ledger.create sha256 leader)).Builds follower)
    (orderOne orderTwo : IterationOrder ID)
    (same : ledger.overlapped sha256 leader follower inOrder =
      (ledger.serveAll sha256 (follower.visiting orderTwo)).serveAll sha256
        (leader.visiting orderOne)) :
    (ledger.outlook.Undisturbed sha256 leader follower ∧
      (inOrder = true ∨ SubmitsCommute (ledger.create sha256 leader)
        (ledger.following sha256 leader follower))) ∨
    (ledger.outlook.Exchangeable sha256 leader follower ∧
      (inOrder = false ∨ SubmitsCommute (ledger.create sha256 leader)
        (ledger.following sha256 leader follower))) := by
  obtain ⟨earlier, later, buildsFirst, createdFirst, createdSecond, blocks, lists, tips,
    contents⟩ := overlapped_inverts inOrder builds buildsNext same
  rcases contents with ⟨rfl, rfl⟩ | ⟨rfl, rfl⟩
  · -- the follower creates the leader's block, so both have the same parents
    have parents : follower.parentIDs = leader.parentIDs := congrArg Content.parentIDs createdFirst
    have height := congrArg Content.height createdSecond
    have undisturbed : ledger.outlook.Undisturbed sha256 leader follower := by
      rw [undisturbed_iff keyed, parents]
      rw [following] at height
      simpa only [create, sealed, CreateRequest.visiting, parents] using height
    exact Or.inl ⟨undisturbed, commute_of_tips inOrder tips⟩
  · have takenFirst : takenCount follower.maxTxs ledger.txPool =
        (ledger.following sha256 leader follower).transactions.length := by
      rw [← createdFirst]
      exact (create_count keyed (follower.visiting orderTwo)).symm
    have keyedThen : IDKeyed ((ledger.store (ledger.following sha256 leader follower)).submit
        (ledger.following sha256 leader follower)).txPool := store_keyed _ keyed
    have takenSecond : takenCount leader.maxTxs
        (ledger.store (ledger.following sha256 leader follower)).txPool =
        (ledger.create sha256 leader).transactions.length := by
      rw [← createdSecond]
      exact (create_count keyedThen (leader.visiting orderOne)).symm
    have exchangeable : ledger.outlook.Exchangeable sha256 leader follower :=
      (exchangeable_iff keyed).mpr ⟨buildsFirst, congrArg Content.height createdFirst,
        congrArg Content.height createdSecond, takenFirst, takenSecond, stores_id blocks,
        stores_height lists⟩
    exact Or.inr ⟨exchangeable, commute_of_reversed_tips inOrder tips⟩

/-- Undisturbed, the leader and the follower create the same contents one after the other. -/
theorem serial_of_undisturbed (keyed : IDKeyed ledger.txPool) (builds : ledger.Builds leader)
    (buildsNext : (ledger.store (ledger.create sha256 leader)).Builds follower)
    (undisturbed : ledger.outlook.Undisturbed sha256 leader follower) :
    let first := ledger.create sha256 leader
    let second := ledger.following sha256 leader follower
    (ledger.serveAll sha256 leader).serveAll sha256 follower =
      (((ledger.store first).store second).submit first).submit second := by
  intro first second
  have created : ((ledger.store first).submit first).create sha256 follower = second := by
    unfold create
    rw [(undisturbed_iff keyed).mp undisturbed]
    rfl
  exact serveAll_serveAll builds rfl buildsNext created

/-- Exchangeable requests create the same contents in the opposite order, if the pool is
visited accordingly. -/
theorem serial_of_exchangeable (keyed : IDKeyed ledger.txPool) (builds : ledger.Builds leader)
    (exchangeable : ledger.outlook.Exchangeable sha256 leader follower) :
    let first := ledger.create sha256 leader
    let second := ledger.following sha256 leader follower
    ∃ orderOne orderTwo, (ledger.serveAll sha256 (follower.visiting orderTwo)).serveAll sha256
        (leader.visiting orderOne) =
      (((ledger.store first).store second).submit second).submit first := by
  intro first second
  obtain ⟨buildsFirst, ownHeight, otherHeight, ownCount, otherCount, commute⟩ :=
    (exchangeable_iff keyed).mp exchangeable
  have drawn : Drawn second ledger := following_drawn keyed
  obtain ⟨orderTwo, takenSecond⟩ := exists_order_selecting keyed follower.maxTxs
    second.transactions drawn.distinct drawn.pooled ownCount.symm
  have drawnFirst : Drawn first ledger := create_drawn sha256 keyed leader
  have left : ∀ tx ∈ first.transactions,
      (ledger.store second).txPool.lookup tx.id = some tx := by
    intro tx taken
    refine (lookup_foldl_erase_some _ _ tx.id tx).mpr ⟨drawnFirst.pooled tx taken, ?_⟩
    intro shared
    obtain ⟨other, takenToo, sameID⟩ := List.mem_map.mp shared
    have outside := (following_apart keyed other takenToo).2
    rw [sameID] at outside
    exact outside (List.mem_map_of_mem taken)
  obtain ⟨orderOne, takenFirst⟩ := exists_order_selecting (store_keyed second keyed) leader.maxTxs
    first.transactions drawnFirst.distinct left otherCount.symm
  have createdSecond : ledger.create sha256 (follower.visiting orderTwo) = second := by
    unfold create CreateRequest.visiting
    rw [ownHeight, takenSecond]
    rfl
  have createdFirst : ((ledger.store second).submit second).create sha256
      (leader.visiting orderOne) = first := by
    unfold create CreateRequest.visiting
    rw [otherHeight]
    exact congrArg (sealed sha256 leader.parentIDs first.height) takenFirst
  refine ⟨orderOne, orderTwo, ?_⟩
  have buildsBefore : ledger.Builds (follower.visiting orderTwo) := buildsFirst
  have buildsThen : (ledger.store second).Builds (leader.visiting orderOne) :=
    store_builds second builds
  have serial := serveAll_serveAll buildsBefore createdSecond buildsThen createdFirst
  rw [← store_comm commute] at serial
  exact serial

/-- An overlap leaves what a sequential execution leaves exactly if it is harmless. -/
theorem overlapped_harmless_iff (keyed : IDKeyed ledger.txPool) :
    (∃ orderOne orderTwo : IterationOrder ID,
      ledger.overlapped sha256 leader follower inOrder =
          (ledger.serveAll sha256 (leader.visiting orderOne)).serveAll sha256
            (follower.visiting orderTwo) ∨
        ledger.overlapped sha256 leader follower inOrder =
          (ledger.serveAll sha256 (follower.visiting orderTwo)).serveAll sha256
            (leader.visiting orderOne)) ↔
      ledger.outlook.Harmless sha256 leader follower inOrder := by
  have buildsFirst := builds_outlook ledger leader
  have buildsSecond := builds_outlook (ledger.store (ledger.create sha256 leader)) follower
  rw [leading_outlook keyed] at buildsSecond
  simp only [Outlook.Harmless, buildsFirst, buildsSecond, submitsCommute_iff keyed]
  constructor
  · rintro ⟨orderOne, orderTwo, straight | reversed⟩ builds buildsNext
    · exact Or.inl (undisturbed_of_eq inOrder keyed builds buildsNext orderOne orderTwo straight)
    · exact exchangeable_of_eq inOrder keyed builds buildsNext orderOne orderTwo reversed
  · intro harmless
    by_cases builds : ledger.Builds leader
    · by_cases buildsNext : (ledger.store (ledger.create sha256 leader)).Builds follower
      · rcases harmless builds buildsNext with ⟨undisturbed, submits⟩ | ⟨exchangeable, submits⟩
        · refine ⟨leader.order, follower.order, Or.inl ?_⟩
          rw [overlapped_eq _ builds buildsNext]
          refine Eq.trans ?_ (serial_of_undisturbed keyed builds buildsNext undisturbed).symm
          cases inOrder with
          | true => rfl
          | false =>
            have commute := submits.resolve_left (by simp)
            exact (submit_comm commute _).symm
        · obtain ⟨orderOne, orderTwo, serial⟩ := serial_of_exchangeable keyed builds exchangeable
          refine ⟨orderOne, orderTwo, Or.inr ?_⟩
          rw [overlapped_eq _ builds buildsNext]
          refine Eq.trans ?_ serial.symm
          cases inOrder with
          | true =>
            have commute := submits.resolve_left (by simp)
            exact submit_comm commute _
          | false => rfl
      · refine ⟨leader.order, follower.order, Or.inl ?_⟩
        have serial : (ledger.serveAll sha256 leader).serveAll sha256 follower =
            (ledger.store (ledger.create sha256 leader)).submit (ledger.create sha256 leader) := by
          rw [serveAll_eq builds rfl]
          exact serveAll_stuck buildsNext
        exact (overlapped_alone inOrder builds buildsNext).trans serial.symm
    · refine ⟨leader.order, follower.order, Or.inl ?_⟩
      rw [overlapped_stuck inOrder builds]
      exact congrArg (serveAll sha256 follower) (serveAll_stuck builds).symm

end Overlap

end Ledger

/-- The other request. -/
def Party.other : Party → Party
  | .first => .second
  | .second => .first

/-- The names of the requests do not matter. -/
theorem execute_other {σ β : Type} (serve : CreateRequest → Stage β → σ → σ × Stage β)
    (one two : CreateRequest) (state : σ) (schedule : List Party) :
    execute serve one two state schedule =
      execute serve two one state (schedule.map Party.other) := by
  have mirrored := Runs.run_simulates (takeTurn serve one two)
    (fun handlers party => takeTurn serve two one handlers party.other)
    (fun handlers image => image = ⟨handlers.state, handlers.second, handlers.first⟩)
    (by
      rintro handlers image party rfl
      cases party with
      | first => rfl
      | second => rfl)
    ⟨state, .waiting, .waiting⟩ ⟨state, .waiting, .waiting⟩ schedule rfl
  unfold execute Runs.run
  rw [List.foldl_map]
  exact (congrArg Handlers.state mirrored).symm

section Schedules

variable (sha256 : List UInt8 → ID) (one two : CreateRequest) (ledger : Ledger)

/-- The first turn of a handler stores its block. -/
theorem serve_builds {request : CreateRequest} {ledger : Ledger} (builds : ledger.Builds request) :
    ledger.serve sha256 request .waiting =
      (ledger.store (ledger.create sha256 request), .holding (ledger.create sha256 request)) :=
  if_pos builds

/-- A handler whose request builds no block is finished after its first turn. -/
theorem serve_stuck {request : CreateRequest} {ledger : Ledger} (stuck : ¬ ledger.Builds request) :
    ledger.serve sha256 request .waiting = (ledger, .finished) :=
  if_neg stuck

/-- Two turns without interruption. -/
theorem serve_twice (request : CreateRequest) (ledger : Ledger) :
    (ledger.serve sha256 request .waiting).1.serve sha256 request
        (ledger.serve sha256 request .waiting).2 =
      (ledger.serveAll sha256 request, .finished) := by
  by_cases builds : ledger.Builds request
  · rw [serve_builds sha256 builds, Ledger.serveAll_eq builds rfl]
    rfl
  · rw [serve_stuck sha256 builds, Ledger.serveAll_stuck builds]
    rfl

/-- One handler after the other serves the two requests in order. -/
theorem execute_sequential :
    execute (Ledger.serve sha256) one two ledger [.first, .first, .second, .second] =
      (ledger.serveAll sha256 one).serveAll sha256 two := by
  simp only [execute, Runs.run_cons, Runs.run_nil, takeTurn, serve_twice]

/-- The second request creates its block between the two turns of the first. -/
theorem execute_overlapped :
    execute (Ledger.serve sha256) one two ledger [.first, .second, .first, .second] =
      ledger.overlapped sha256 one two true := by
  by_cases builds : ledger.Builds one
  · simp only [execute, Runs.run_cons, Runs.run_nil, takeTurn, serve_builds sha256 builds]
    by_cases buildsNext : (ledger.store (ledger.create sha256 one)).Builds two
    · rw [Ledger.overlapped_eq true builds buildsNext, serve_builds sha256 buildsNext]
      rfl
    · rw [Ledger.overlapped_alone true builds buildsNext, serve_stuck sha256 buildsNext]
      rfl
  · simp only [execute, Runs.run_cons, Runs.run_nil, takeTurn, serve_stuck sha256 builds]
    rw [Ledger.overlapped_stuck true builds]
    exact congrArg Prod.fst (serve_twice sha256 two ledger)

/-- The second request is served between the two turns of the first. -/
theorem execute_nested :
    execute (Ledger.serve sha256) one two ledger [.first, .second, .second, .first] =
      ledger.overlapped sha256 one two false := by
  by_cases builds : ledger.Builds one
  · simp only [execute, Runs.run_cons, Runs.run_nil, takeTurn, serve_builds sha256 builds,
      serve_twice]
    by_cases buildsNext : (ledger.store (ledger.create sha256 one)).Builds two
    · rw [Ledger.overlapped_eq false builds buildsNext, Ledger.serveAll_eq buildsNext rfl]
      rfl
    · rw [Ledger.overlapped_alone false builds buildsNext, Ledger.serveAll_stuck buildsNext]
      rfl
  · simp only [execute, Runs.run_cons, Runs.run_nil, takeTurn, serve_stuck sha256 builds,
      serve_twice]
    rw [Ledger.overlapped_stuck false builds]
    rfl

end Schedules

/-- The interleavings of two requests. -/
theorem schedule_cases {schedule : List Party} (isSchedule : IsSchedule schedule) :
    schedule ∈ [[Party.first, .first, .second, .second], [.second, .second, .first, .first],
      [.first, .second, .first, .second], [.first, .second, .second, .first],
      [.second, .first, .second, .first], [.second, .first, .first, .second]] := by
  have enumerated : ∀ other ∈ List.permutations' [Party.first, .first, .second, .second],
      other ∈ [[Party.first, .first, .second, .second], [.second, .second, .first, .first],
        [.first, .second, .first, .second], [.first, .second, .second, .first],
        [.second, .first, .second, .first], [.second, .first, .first, .second]] := by decide
  exact enumerated schedule (List.mem_permutations'.mpr isSchedule)

/-- The schedule is sequential or its overlap is harmless. -/
def Outlook.Tolerates (sha256 : List UInt8 → ID) (one two : CreateRequest)
    (schedule : List Party) (outlook : Outlook) : Prop :=
  match schedule with
  | [.first, .second, .first, .second] => outlook.Harmless sha256 one two true
  | [.first, .second, .second, .first] => outlook.Harmless sha256 one two false
  | [.second, .first, .second, .first] => outlook.Harmless sha256 two one true
  | [.second, .first, .first, .second] => outlook.Harmless sha256 two one false
  | _ => True

/-- The two sequential executions on the ledger. -/
theorem serializable_iff (sha256 : List UInt8 → ID) (one two : CreateRequest) (bc : Blockchain)
    (schedule : List Party) :
    Serializable sha256 one two bc schedule ↔ ∃ orderOne orderTwo : IterationOrder ID,
      execute (Ledger.serve sha256) one two bc.view schedule =
          (bc.view.serveAll sha256 (one.visiting orderOne)).serveAll sha256
            (two.visiting orderTwo) ∨
        execute (Ledger.serve sha256) one two bc.view schedule =
          (bc.view.serveAll sha256 (two.visiting orderTwo)).serveAll sha256
            (one.visiting orderOne) := by
  unfold Serializable
  apply exists_congr
  intro orderOne
  apply exists_congr
  intro orderTwo
  have mirrored := execute_other (Ledger.serve sha256) (one.visiting orderOne)
    (two.visiting orderTwo) bc.view [.second, .second, .first, .first]
  simp only [List.mem_cons, List.not_mem_nil, or_false, exists_eq_or_imp, exists_eq_left,
    execute_view, execute_sequential, mirrored, List.map_cons, List.map_nil, Party.other]

/-- The two handlers may exchange their names. -/
theorem serializable_other (sha256 : List UInt8 → ID) (one two : CreateRequest) (bc : Blockchain)
    (schedule : List Party) :
    Serializable sha256 one two bc schedule ↔
      Serializable sha256 two one bc (schedule.map Party.other) := by
  rw [serializable_iff, serializable_iff, execute_other, exists_comm]
  apply exists_congr
  intro orderTwo
  apply exists_congr
  intro orderOne
  exact or_comm

section Interleavings

variable {sha256 : List UInt8 → ID} {one two : CreateRequest} {bc : Blockchain}

/-- One handler after the other is serializable. -/
theorem sequential_serializable :
    Serializable sha256 one two bc [.first, .first, .second, .second] := by
  rw [serializable_iff]
  exact ⟨one.order, two.order, Or.inl (execute_sequential sha256 one two bc.view)⟩

/-- Overlapping handlers are serializable exactly when their blocks are harmless to each other,
submitted in order. -/
theorem overlap_serializable_iff (keyed : IDKeyed bc.txPool) :
    Serializable sha256 one two bc [.first, .second, .first, .second] ↔
      bc.view.outlook.Harmless sha256 one two true := by
  rw [serializable_iff, execute_overlapped]
  exact Ledger.overlapped_harmless_iff true keyed

/-- Nested handlers are serializable exactly when their blocks are harmless to each other, submitted
in the other order. -/
theorem nested_serializable_iff (keyed : IDKeyed bc.txPool) :
    Serializable sha256 one two bc [.first, .second, .second, .first] ↔
      bc.view.outlook.Harmless sha256 one two false := by
  rw [serializable_iff, execute_nested]
  exact Ledger.overlapped_harmless_iff false keyed

end Interleavings

/-- Two concurrent requests leave what a sequential execution leaves, for every schedule and
from every reachable state, exactly if the schedule does not let them overlap or the overlap
is harmless. -/
theorem block_creation_serializable_iff (sha256 : List UInt8 → ID) (now : ℤ)
    (actions : List Action) (one two : CreateRequest) (schedule : List Party)
    (isSchedule : IsSchedule schedule) :
    Serializable sha256 one two (runChain sha256 now actions) schedule ↔
      (runChain sha256 now actions).view.outlook.Tolerates sha256 one two schedule := by
  have keyed := (reachable_keyed sha256 now actions).pool.ids
  have cases := schedule_cases isSchedule
  simp only [List.mem_cons, List.not_mem_nil, or_false] at cases
  rcases cases with rfl | rfl | rfl | rfl | rfl | rfl
  · exact iff_of_true sequential_serializable trivial
  · rw [serializable_other]
    exact iff_of_true sequential_serializable trivial
  · exact overlap_serializable_iff keyed
  · exact nested_serializable_iff keyed
  · rw [serializable_other]
    exact overlap_serializable_iff keyed
  · rw [serializable_other]
    exact nested_serializable_iff keyed

/-- A request that names a stored block above the current height is not disturbed by one that
names the genesis block. -/
theorem block_creation_serializable_above :
    let bc := runChain positionalHash 0
      [.submitBlock lowerBlock, .createBlock (byValue 32) [lowerBlock.id] 0 0]
    let one : CreateRequest := ⟨[genesisID], 1, byValue 32, 0⟩
    let two : CreateRequest := ⟨[upperBlock.id], 1, byValue 32, 0⟩
    Serializable positionalHash one two bc [.first, .second, .first, .second] := by
  intro bc one two
  have harmless : bc.view.outlook.Harmless positionalHash one two true := by decide +kernel
  exact (block_creation_serializable_iff positionalHash 0 _ one two
    [.first, .second, .first, .second] (by decide)).mpr harmless

/-- Two requests that name the genesis block both create a block of height 1, and both blocks
have the same ID; one after the other, the second block would have height 2. -/
theorem parallel_creation_not_serializable :
    let bc := runChain positionalHash 0
      [.addTransaction (sampleTx 1), .addTransaction (sampleTx 2)]
    let request : CreateRequest := ⟨[genesisID], 1, byValue 32, 0⟩
    let schedule := [.first, .second, .first, .second]
    IsSchedule schedule ∧
      (execute (handleCreateBlock positionalHash) request request bc schedule).currentHeight = 1 ∧
      ¬ Serializable positionalHash request request bc schedule := by
  intro bc request schedule
  have keyed := (reachable_keyed positionalHash 0
    [.addTransaction (sampleTx 1), .addTransaction (sampleTx 2)]).pool.ids
  have height : (execute (handleCreateBlock positionalHash) request request bc
      schedule).currentHeight = 1 := by decide +kernel
  have harmful : ¬ bc.view.outlook.Harmless positionalHash request request true := by
    decide +kernel
  exact ⟨by decide, height, mt (overlap_serializable_iff keyed).mp harmful⟩

end AvalancheParallel.Chain
