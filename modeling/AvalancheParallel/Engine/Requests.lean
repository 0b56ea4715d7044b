import AvalancheParallel.Ids
import AvalancheParallel.Utils.Collections

/-!
# Numbered requests

The engines ask peers for blocks and remember in a map, read in both directions, which request
asked for which block. A request carries the next value of a counter, as a 32-bit word. As
long as the counter does not come round, a new request is told apart from the outstanding ones,
and none of them is lost.
-/

namespace AvalancheParallel.Engine

open AvalancheParallel.Ids
open AvalancheParallel.Utils

/-- `common.Request`. -/
structure Request where
  nodeID : ShortID
  requestID : UInt32
  deriving DecidableEq

/-- The outstanding requests carry numbers that were given out. -/
def Numbered (count : ℕ) (requests : BiMap Request ID) : Prop :=
  ∀ request id, requests.getValue request = some id →
    ∃ n ≤ count, request.requestID = UInt32.ofNat n

/-- The block is asked for. -/
def Asked (requests : BiMap Request ID) (id : ID) : Prop :=
  ∃ request, requests.getValue request = some id

/-- `HasValue` is true of the requested blocks. -/
theorem asked_iff_hasValue (requests : BiMap Request ID) (id : ID) :
    requests.hasValue id = true ↔ Asked requests id := requests.hasValue_iff id

/-- Without requests the numbers are in order. -/
theorem numbered_new (count : ℕ) : Numbered count BiMap.new := by
  intro request id found
  rw [BiMap.getValue_new] at found
  cases found

/-- A block is requested once a request for it is put. -/
theorem asked_put (requests : BiMap Request ID) (request : Request) (id : ID) :
    Asked (requests.put request id) id := by
  refine ⟨request, ?_⟩
  rw [BiMap.getValue_put, if_pos rfl]

section

variable {count : ℕ} {requests : BiMap Request ID}

/-- Later numbers may be given. -/
theorem Numbered.mono (numbered : Numbered count requests) {later : ℕ} (le : count ≤ later) :
    Numbered later requests := by
  intro request id found
  obtain ⟨n, given, same⟩ := numbered request id found
  exact ⟨n, given.trans le, same⟩

/-- A new request has a number that no outstanding one has. -/
theorem Numbered.fresh (numbered : Numbered count requests) (bound : count + 1 < 2 ^ 32)
    (nodeID : ShortID) : requests.getValue ⟨nodeID, UInt32.ofNat (count + 1)⟩ = none := by
  rw [Option.eq_none_iff_forall_not_mem]
  intro id found
  obtain ⟨n, given, same⟩ := numbered _ id found
  have number := congrArg UInt32.toNat same
  rw [UInt32.toNat_ofNat_of_lt' bound, UInt32.toNat_ofNat_of_lt' (Nat.lt_of_le_of_lt given
    (Nat.lt_of_succ_lt bound))] at number
  omega

/-- A request with the next number keeps the numbers in order. -/
theorem Numbered.put (numbered : Numbered count requests) (nodeID : ShortID) (id : ID) :
    Numbered (count + 1) (requests.put ⟨nodeID, UInt32.ofNat (count + 1)⟩ id) := by
  intro request other found
  rw [BiMap.getValue_put] at found
  split at found
  · rename_i same
    exact ⟨count + 1, Nat.le_refl _, by rw [same]⟩
  · split at found
    · cases found
    · exact numbered.mono (Nat.le_succ _) request other found

/-- Blocks that were asked for still are after a new request for one that was not. -/
theorem Asked.put (numbered : Numbered count requests) (bound : count + 1 < 2 ^ 32)
    (nodeID : ShortID) {id : ID} (absent : ¬ Asked requests id) {other : ID}
    (asked : Asked requests other) :
    Asked (requests.put ⟨nodeID, UInt32.ofNat (count + 1)⟩ id) other := by
  obtain ⟨request, found⟩ := asked
  have different : request ≠ ⟨nodeID, UInt32.ofNat (count + 1)⟩ := by
    rintro rfl
    rw [numbered.fresh bound] at found
    cases found
  refine ⟨request, ?_⟩
  rw [BiMap.getValue_put, if_neg different, if_neg]
  · exact found
  · exact fun same => absent ⟨request, same⟩

/-- Without a request that was answered, only the block it asked for may be left unasked. -/
theorem Numbered.deleteKey (numbered : Numbered count requests) {request : Request}
    {rest : BiMap Request ID} {wanted : ID}
    (deleted : requests.deleteKey request = (rest, some wanted)) :
    Numbered count rest ∧ ∀ id, id ≠ wanted → Asked requests id → Asked rest id := by
  have asked : requests.getValue request = some wanted := by
    rw [← BiMap.deleteKey_snd, deleted]
  have left : ∀ other, rest.getValue other =
      if other = request then none else requests.getValue other := by
    intro other
    rw [← BiMap.getValue_deleteKey, deleted]
  refine ⟨?_, ?_⟩
  · intro other id found
    rw [left] at found
    split at found
    · cases found
    · exact numbered other id found
  · rintro id different ⟨other, found⟩
    refine ⟨other, ?_⟩
    rw [left, if_neg]
    · exact found
    · rintro rfl
      rw [asked] at found
      exact different (Option.some.inj found).symm

/-- Without the request for a block, the other blocks are still asked for. -/
theorem Numbered.deleteValue (numbered : Numbered count requests) (id : ID) :
    Numbered count (requests.deleteValue id).1 ∧
      ∀ other, other ≠ id → Asked requests other → Asked (requests.deleteValue id).1 other := by
  refine ⟨?_, ?_⟩
  · intro request other found
    rw [BiMap.getValue_deleteValue] at found
    split at found
    · cases found
    · exact numbered request other found
  · rintro other different ⟨request, found⟩
    refine ⟨request, ?_⟩
    rw [BiMap.getValue_deleteValue, if_neg]
    · exact found
    · rw [found]
      exact fun same => different (Option.some.inj same)

end

end AvalancheParallel.Engine
