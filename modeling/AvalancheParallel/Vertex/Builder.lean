import AvalancheParallel.Foundation.EarlyExits
import AvalancheParallel.Utils.Sorting

/-!
# Building vertices

`Build` of `default/snow/engine/avalanche/vertex`. The parents are sorted by their bytes
and the transactions by their hashes, and the result has to pass the check that every
parsed vertex has to pass. The codec is a function of the version and the vertex, and
`sort.Slice` a sorting function.

The order in which parents and transactions are given does not matter: the vertex, its
bytes and its ID are determined by the two collections, which are accepted exactly when
they are small enough and have no duplicates.
-/

namespace AvalancheParallel.Vertex

open AvalancheParallel.EarlyExits AvalancheParallel.Ids AvalancheParallel.SliceSort
open AvalancheParallel.Utils

/-- `CodecVersion`. -/
def codecVersion : UInt16 := 0

/-- `CodecVersionWithStopVtx`. -/
def codecVersionWithStopVtx : UInt16 := 1

/-- `maxNumParents`. -/
def maxNumParents : ℕ := 128

/-- `maxTxsPerVtx`. -/
def maxTxsPerVtx : ℕ := 128

/-- The errors of the checks. -/
inductive VertexError where
  | badVersion
  | badEpoch
  | tooManyParentIDs
  | noOperations
  | tooManyTxs
  | invalidParents
  | invalidTxs
deriving DecidableEq, Repr

/-- `innerStatelessVertex`. -/
structure InnerStatelessVertex where
  version : UInt16
  chainID : ID
  height : UInt64
  epoch : UInt32
  parentIDs : List ID
  txs : List (List UInt8)
deriving DecidableEq

variable (slice : SortFunction) (sha256 : List UInt8 → ID)
  (marshal : UInt16 → InnerStatelessVertex → List UInt8)

namespace InnerStatelessVertex

/-- `verify`; `none` is the nil error. -/
def verify (v : InnerStatelessVertex) : Option VertexError :=
  if v.version ≠ codecVersion then some .badVersion
  else if v.epoch ≠ 0 then some .badEpoch
  else if v.parentIDs.length > maxNumParents then some .tooManyParentIDs
  else if v.txs.length = 0 then some .noOperations
  else if v.txs.length > maxTxsPerVtx then some .tooManyTxs
  else if !isSortedAndUnique ID.compare v.parentIDs then some .invalidParents
  else if !isSortedAndUniqueByHash sha256 v.txs then some .invalidTxs
  else none

end InnerStatelessVertex

/-- `statelessVertex`. -/
structure StatelessVertex where
  inner : InnerStatelessVertex
  id : ID
  bytes : List UInt8
deriving DecidableEq

/-- `buildVtx`. -/
def buildVtx (chainID : ID) (height : UInt64) (parentIDs : List ID) (txs : List (List UInt8))
    (verifyFunc : InnerStatelessVertex → Option VertexError) (stopVertex : Bool) :
    Except VertexError StatelessVertex :=
  let innerVtx : InnerStatelessVertex :=
    { version := if stopVertex then codecVersionWithStopVtx else codecVersion
      chainID := chainID
      height := height
      epoch := 0
      parentIDs := sort slice ID.compare parentIDs
      txs := sortByHash sha256 slice txs }
  match verifyFunc innerVtx with
  | some err => .error err
  | none =>
    let vtxBytes := marshal innerVtx.version innerVtx
    .ok ⟨innerVtx, sha256 vtxBytes, vtxBytes⟩

/-- `Build`. -/
def build (chainID : ID) (height : UInt64) (parentIDs : List ID) (txs : List (List UInt8)) :
    Except VertexError StatelessVertex :=
  buildVtx slice sha256 marshal chainID height parentIDs txs
    (InnerStatelessVertex.verify sha256) false

/-- The parents are strictly increasing. -/
def ParentsIncrease (parentIDs : List ID) : Prop :=
  parentIDs.Pairwise (fun earlier later => ID.compare earlier later < 0)

/-- The hashes of the transactions are strictly increasing. -/
def HashesIncrease (txs : List (List UInt8)) : Prop :=
  txs.Pairwise (fun earlier later =>
    bytesCompare (computeHash256 sha256 earlier) (computeHash256 sha256 later) < 0)

/-- The test of the parents is passed when they are strictly increasing. -/
theorem isSortedAndUnique_parents (parentIDs : List ID) :
    isSortedAndUnique ID.compare parentIDs = true ↔ ParentsIncrease parentIDs := by
  have increasing := isSortedAndUnique_iff (fun id : ID => id.toList) parentIDs
  simp only [keyLess, decide_eq_true_eq] at increasing
  exact increasing

/-- The test of the transactions is passed when their hashes are strictly increasing. -/
theorem isSortedAndUniqueByHash_txs (txs : List (List UInt8)) :
    isSortedAndUniqueByHash sha256 txs = true ↔ HashesIncrease sha256 txs := by
  have increasing := isSortedAndUnique_iff (computeHash256 sha256) txs
  simp only [keyLess, decide_eq_true_eq] at increasing
  rw [isSortedAndUniqueByHash_eq]
  exact increasing

/-- A vertex passes exactly when its parents and transactions are few and strictly increase. -/
theorem InnerStatelessVertex.verify_eq_none (v : InnerStatelessVertex) :
    v.verify sha256 = none ↔ v.version = codecVersion ∧ v.epoch = 0 ∧
      v.parentIDs.length ≤ maxNumParents ∧ 1 ≤ v.txs.length ∧ v.txs.length ≤ maxTxsPerVtx ∧
      ParentsIncrease v.parentIDs ∧ HashesIncrease sha256 v.txs := by
  simp only [verify, check_eq_none, Bool.not_eq_true', Bool.not_eq_false, not_not, Nat.not_lt,
    gt_iff_lt, and_true, isSortedAndUnique_parents, isSortedAndUniqueByHash_txs,
    Nat.one_le_iff_ne_zero, ne_eq]

/-- Different transactions of the list have different hashes. -/
def CollisionFree (txs : List (List UInt8)) : Prop :=
  ∀ first ∈ txs, ∀ second ∈ txs, sha256 first = sha256 second → first = second

/-- What sorting does to the parents. -/
theorem sort_parents (parentIDs : List ID) :
    (sort slice ID.compare parentIDs).Perm parentIDs ∧
      (ParentsIncrease (sort slice ID.compare parentIDs) ↔ parentIDs.Nodup) ∧
      ∀ others, others.Perm parentIDs →
        sort slice ID.compare others = sort slice ID.compare parentIDs := by
  have order := keyLess_order (fun id : ID => id.toList)
  have distinguishes : Distinguishes (keyLess (fun id : ID => id.toList)) parentIDs :=
    keyLess_distinguishes _ (fun _ _ _ _ same => Vector.toList_inj.mp same)
  have increasing := sort_increasing_iff slice order distinguishes
  simp only [keyLess, decide_eq_true_eq] at increasing
  exact ⟨slice.perm _ parentIDs, increasing,
    fun others rearranged => sort_eq_of_perm slice order distinguishes rearranged⟩

/-- What sorting does to transactions without collisions. -/
theorem sortByHash_txs {txs : List (List UInt8)} (collisionFree : CollisionFree sha256 txs) :
    (sortByHash sha256 slice txs).Perm txs ∧
      (HashesIncrease sha256 (sortByHash sha256 slice txs) ↔ txs.Nodup) ∧
      ∀ others, others.Perm txs →
        sortByHash sha256 slice others = sortByHash sha256 slice txs := by
  have order := keyLess_order (computeHash256 sha256)
  have distinguishes : Distinguishes (keyLess (computeHash256 sha256)) txs :=
    keyLess_distinguishes _ (fun first inFirst second inSecond same =>
      collisionFree first inFirst second inSecond (Vector.toList_inj.mp same))
  have increasing := sort_increasing_iff slice order distinguishes
  simp only [keyLess, decide_eq_true_eq] at increasing
  exact ⟨slice.perm _ txs, increasing,
    fun others rearranged => sort_eq_of_perm slice order distinguishes rearranged⟩

/-- A vertex that is built has passed the check, and its bytes and ID are those of its content. -/
theorem buildVtx_eq_ok {chainID : ID} {height : UInt64} {parentIDs : List ID}
    {txs : List (List UInt8)} {verifyFunc : InnerStatelessVertex → Option VertexError}
    {stopVertex : Bool} (vtx : StatelessVertex) :
    buildVtx slice sha256 marshal chainID height parentIDs txs verifyFunc stopVertex = .ok vtx ↔
      verifyFunc vtx.inner = none ∧ vtx.bytes = marshal vtx.inner.version vtx.inner ∧
      vtx.id = sha256 vtx.bytes ∧ vtx.inner =
        ⟨if stopVertex then codecVersionWithStopVtx else codecVersion, chainID, height, 0,
          sort slice ID.compare parentIDs, sortByHash sha256 slice txs⟩ := by
  unfold buildVtx
  dsimp only
  split
  · rename_i failed
    refine iff_of_false (fun impossible => nomatch impossible) ?_
    rintro ⟨passed, _, _, content⟩
    rw [content, failed] at passed
    cases passed
  · rename_i passed
    constructor
    · intro built
      obtain rfl := Except.ok.inj built
      exact ⟨passed, rfl, rfl, rfl⟩
    · rintro ⟨_, bytes, id, content⟩
      obtain ⟨inner, own, encoded⟩ := vtx
      dsimp only at bytes id content
      subst content bytes id
      rfl

/-- A vertex is built exactly when its sorted content passes the check. -/
theorem exists_buildVtx (chainID : ID) (height : UInt64) (parentIDs : List ID)
    (txs : List (List UInt8)) (verifyFunc : InnerStatelessVertex → Option VertexError)
    (stopVertex : Bool) :
    (∃ vtx, buildVtx slice sha256 marshal chainID height parentIDs txs verifyFunc stopVertex =
        .ok vtx) ↔
      verifyFunc ⟨if stopVertex then codecVersionWithStopVtx else codecVersion, chainID, height, 0,
        sort slice ID.compare parentIDs, sortByHash sha256 slice txs⟩ = none := by
  constructor
  · rintro ⟨vtx, built⟩
    obtain ⟨passed, _, _, content⟩ := (buildVtx_eq_ok slice sha256 marshal vtx).mp built
    rw [← content]
    exact passed
  · intro passed
    exact ⟨⟨_, sha256 (marshal _ _), marshal _ _⟩,
      (buildVtx_eq_ok slice sha256 marshal _).mpr ⟨passed, rfl, rfl, rfl⟩⟩

/-- Rearranged arguments lead to the same outcome. -/
theorem buildVtx_perm (chainID : ID) (height : UInt64) {parentIDs parentIDs' : List ID}
    {txs txs' : List (List UInt8)} (collisionFree : CollisionFree sha256 txs)
    (parents : parentIDs'.Perm parentIDs) (transactions : txs'.Perm txs)
    (verifyFunc : InnerStatelessVertex → Option VertexError) (stopVertex : Bool) :
    buildVtx slice sha256 marshal chainID height parentIDs' txs' verifyFunc stopVertex =
      buildVtx slice sha256 marshal chainID height parentIDs txs verifyFunc stopVertex := by
  unfold buildVtx
  rw [(sort_parents slice parentIDs).2.2 parentIDs' parents,
    (sortByHash_txs slice sha256 collisionFree).2.2 txs' transactions]

/-- Vertices are built canonically: exactly from few parents and transactions without
duplicates, to a vertex that passes its own check with both strictly increasing, and with the
same bytes and ID for every order of the arguments. -/
theorem build_canonical (chainID : ID) (height : UInt64) (parentIDs : List ID)
    (txs : List (List UInt8)) (collisionFree : CollisionFree sha256 txs) :
    ((∃ vtx, build slice sha256 marshal chainID height parentIDs txs = .ok vtx) ↔
      parentIDs.length ≤ 128 ∧ 1 ≤ txs.length ∧ txs.length ≤ 128 ∧ parentIDs.Nodup ∧
        txs.Nodup) ∧
    (∀ vtx, build slice sha256 marshal chainID height parentIDs txs = .ok vtx →
      vtx.inner.verify sha256 = none ∧
      vtx.inner.parentIDs.Perm parentIDs ∧ ParentsIncrease vtx.inner.parentIDs ∧
      vtx.inner.txs.Perm txs ∧ HashesIncrease sha256 vtx.inner.txs) ∧
    ∀ parentIDs' txs', parentIDs'.Perm parentIDs → txs'.Perm txs →
      build slice sha256 marshal chainID height parentIDs' txs' =
        build slice sha256 marshal chainID height parentIDs txs := by
  obtain ⟨sortedParents, parentsIncrease, _⟩ := sort_parents slice parentIDs
  obtain ⟨sortedTxs, hashesIncrease, _⟩ := sortByHash_txs slice sha256 collisionFree
  refine ⟨?_, ?_, ?_⟩
  · unfold build
    rw [exists_buildVtx, InnerStatelessVertex.verify_eq_none]
    dsimp only
    rw [sortedParents.length_eq, sortedTxs.length_eq, parentsIncrease, hashesIncrease]
    simp [maxNumParents, maxTxsPerVtx]
  · intro vtx built
    obtain ⟨passed, _, _, content⟩ := (buildVtx_eq_ok slice sha256 marshal vtx).mp built
    obtain ⟨_, _, _, _, _, parents, transactions⟩ :=
      (InnerStatelessVertex.verify_eq_none sha256 vtx.inner).mp passed
    refine ⟨passed, ?_, parents, ?_, transactions⟩
    · rw [content]
      exact sortedParents
    · rw [content]
      exact sortedTxs
  · intro parentIDs' txs' parents transactions
    exact buildVtx_perm slice sha256 marshal chainID height collisionFree parents transactions _ _

/-- For small inputs, the first byte alone may serve as the hash. -/
def firstByteHash (bytes : List UInt8) : ID := Vector.replicate 32 (bytes.headD 0)

/-- The content of the vertex in the order in which it is stored. -/
def concatenated (_ : UInt16) (v : InnerStatelessVertex) : List UInt8 :=
  (v.parentIDs.map Vector.toList).flatten ++ v.txs.flatten

/-- Two transactions on two parents, given in both orders. -/
theorem build_two_orders :
    let parents : List ID := [Vector.replicate 32 2, Vector.replicate 32 1]
    let txs : List (List UInt8) := [[7, 7], [3]]
    CollisionFree firstByteHash txs ∧
      (∃ vtx, build mergeSortFunction firstByteHash concatenated (Vector.replicate 32 0) 5 parents
        txs = .ok vtx) ∧
      build mergeSortFunction firstByteHash concatenated (Vector.replicate 32 0) 5 parents.reverse
          txs.reverse =
        build mergeSortFunction firstByteHash concatenated (Vector.replicate 32 0) 5 parents
          txs := by
  intro parents txs
  have collisionFree : CollisionFree firstByteHash txs := by
    unfold CollisionFree
    decide
  obtain ⟨succeeds, _, anyOrder⟩ := build_canonical mergeSortFunction firstByteHash concatenated
    (Vector.replicate 32 0) 5 parents txs collisionFree
  exact ⟨collisionFree, succeeds.mpr (by decide),
    anyOrder _ _ (List.reverse_perm parents) (List.reverse_perm txs)⟩

end AvalancheParallel.Vertex
