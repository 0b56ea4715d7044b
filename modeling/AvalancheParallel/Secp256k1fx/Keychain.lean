import Mathlib.Data.List.Forall2
import AvalancheParallel.Foundation.RangeLoop
import AvalancheParallel.Secp256k1fx.Fx

/-!
# Keychains

`Keychain` of `vms/secp256k1fx`, with the index from addresses to keys that
`Match` reads. `Match` goes through the addresses in order, so the indices it
returns increase. `Input.Verify` refuses every increasing list of two or more.

The Ethereum addresses and the address sets are left out: no function here reads
them. `NewKeychain` leaves the sets nil, and `Add` panics on a nil set after it has
recorded the key.
-/

namespace AvalancheParallel.Secp256k1fx

open AvalancheParallel.RangeLoop AvalancheParallel.Ids AvalancheParallel.Utils

variable {Key E : Type}

/-- The keys, and for each address the position of its key. -/
structure Keychain (address : Key → ShortID) where
  avaxAddrToKeyIndex : GoMap ShortID ℕ
  keys : List Key
  indexed : ∀ addr index, avaxAddrToKeyIndex.lookup addr = some index →
    ∃ key, keys[index]? = some key ∧ address key = addr

namespace Keychain

variable {address : Key → ShortID}

/-- A keychain without keys. -/
def empty (address : Key → ShortID) : Keychain address where
  avaxAddrToKeyIndex := ∅
  keys := []
  indexed := by simp

/-- What `Add` records of a key before it updates the address sets. -/
def add (key : Key) (kc : Keychain address) : Keychain address :=
  if known : address key ∈ kc.avaxAddrToKeyIndex then kc
  else
    { avaxAddrToKeyIndex := kc.avaxAddrToKeyIndex.insert (address key) kc.keys.length
      keys := kc.keys ++ [key]
      indexed := by
        intro addr index found
        obtain ⟨rfl, rfl⟩ | ⟨_, recorded⟩ := lookup_insert_cases found
        · exact ⟨key, List.getElem?_concat_length, rfl⟩
        · obtain ⟨earlier, here, addressed⟩ := kc.indexed addr index recorded
          have bound : index < kc.keys.length := (List.getElem?_eq_some_iff.mp here).1
          exact ⟨earlier, by rw [List.getElem?_append_left bound, here], addressed⟩ }

/-- `get`. -/
def get (kc : Keychain address) (addr : ShortID) : Option Key :=
  (kc.avaxAddrToKeyIndex.lookup addr).bind (fun index => kc.keys[index]?)

/-- A key that is found belongs to the address. -/
theorem get_address (kc : Keychain address) (addr : ShortID) (key : Key)
    (found : kc.get addr = some key) : address key = addr := by
  obtain ⟨index, position, here⟩ := Option.bind_eq_some_iff.mp found
  obtain ⟨stored, there, addressed⟩ := kc.indexed addr index position
  have same : key = stored := Option.some.inj (here.symm.trans there)
  rw [same, addressed]

/-- The loop of `Match`, from position `i` on, with what has been collected so far. -/
def matchFrom (kc : Keychain address) (threshold : UInt32) :
    UInt32 → List ShortID → List UInt32 → List Key → List UInt32 × List Key
  | _, [], sigs, keys => (sigs, keys)
  | i, addr :: rest, sigs, keys =>
    if UInt32.ofNat keys.length < threshold then
      match kc.get addr with
      | some key => matchFrom kc threshold (i + 1) rest (sigs ++ [i]) (keys ++ [key])
      | none => matchFrom kc threshold (i + 1) rest sigs keys
    else (sigs, keys)

/-- `Match`. The loop runs over as many addresses as `uint32(len(owners.Addrs))` says. -/
def matchOwners (kc : Keychain address) (owners : OutputOwners) (time : UInt64) :
    List UInt32 × List Key × Bool :=
  if time < owners.locktime then ([], [], false)
  else
    let visited := owners.addrs.take (UInt32.ofNat owners.addrs.length).toNat
    let (sigs, keys) := matchFrom kc owners.threshold 0 visited [] []
    (sigs, keys, decide (UInt32.ofNat keys.length = owners.threshold))

end Keychain

/-- Each index names the address of the key at the same position. -/
abbrev NamesKeys (address : Key → ShortID) (addrs : List ShortID) (sigs : List UInt32)
    (keys : List Key) : Prop :=
  List.Forall₂ (fun index key => addrs[index.toNat]? = some (address key)) sigs keys

/-- What holds of the indices and keys collected from the addresses before position `i`. -/
structure Collected (address : Key → ShortID) (owners : OutputOwners) (i : ℕ)
    (sigs : List UInt32) (keys : List Key) : Prop where
  names : NamesKeys address owners.addrs sigs keys
  increasing : sigs.Pairwise (· < ·)
  below : ∀ index ∈ sigs, index.toNat < i
  atMost : keys.length ≤ owners.threshold.toNat

/-- Taking the key of the address at position `i`. -/
theorem Collected.take {address : Key → ShortID} {owners : OutputOwners} {i : UInt32}
    {sigs : List UInt32} {keys : List Key} (collected : Collected address owners i.toNat sigs keys)
    {key : Key} (here : owners.addrs[i.toNat]? = some (address key))
    (room : keys.length < owners.threshold.toNat) :
    Collected address owners (i.toNat + 1) (sigs ++ [i]) (keys ++ [key]) := by
  constructor
  · exact List.rel_append collected.names (List.Forall₂.cons here List.Forall₂.nil)
  · rw [List.pairwise_append]
    refine ⟨collected.increasing, List.pairwise_singleton _ _, ?_⟩
    intro earlier member last isLast
    rw [List.mem_singleton.mp isLast, UInt32.lt_iff_toNat_lt]
    exact collected.below earlier member
  · intro index member
    rcases List.mem_append.mp member with earlier | new
    · have := collected.below index earlier
      omega
    · rw [List.mem_singleton.mp new]
      omega
  · rw [List.length_append, List.length_singleton]
    omega

/-- What was collected up to one address is among what is collected later. -/
theorem Collected.later {address : Key → ShortID} {owners : OutputOwners} {i j : ℕ}
    {sigs : List UInt32} {keys : List Key} (collected : Collected address owners i sigs keys)
    (further : i ≤ j) : Collected address owners j sigs keys where
  names := collected.names
  increasing := collected.increasing
  below := fun index member => lt_of_lt_of_le (collected.below index member) further
  atMost := collected.atMost

/-- The length of a list of at most `2 ^ 32 - 1` elements is kept by `uint32`. -/
theorem toNat_ofNat_length {keys : List Key} {threshold : UInt32}
    (atMost : keys.length ≤ threshold.toNat) : (UInt32.ofNat keys.length).toNat = keys.length := by
  have bound : threshold.toNat < 2 ^ 32 := threshold.toNat_lt
  rw [UInt32.toNat_ofNat']
  exact Nat.mod_eq_of_lt (lt_of_le_of_lt atMost bound)

/-- The loop keeps what holds of its accumulators. -/
theorem matchFrom_collected {address : Key → ShortID} (kc : Keychain address)
    (owners : OutputOwners) (i : UInt32) (rest tail : List ShortID) (sigs : List UInt32)
    (keys : List Key) (left : owners.addrs.drop i.toNat = rest ++ tail)
    (bounded : i.toNat + rest.length < 2 ^ 32)
    (collected : Collected address owners i.toNat sigs keys) :
    Collected address owners (i.toNat + rest.length)
      (kc.matchFrom owners.threshold i rest sigs keys).1
      (kc.matchFrom owners.threshold i rest sigs keys).2 := by
  induction rest generalizing i sigs keys with
  | nil => exact collected
  | cons addr rest inductionHypothesis =>
    rw [List.length_cons] at bounded ⊢
    have next : (i + 1).toNat = i.toNat + 1 := by
      rw [UInt32.toNat_add, UInt32.toNat_one]
      exact Nat.mod_eq_of_lt (by omega)
    have here : owners.addrs[i.toNat]? = some addr := by
      have head := congrArg List.head? left
      rwa [List.head?_drop, List.cons_append, List.head?_cons] at head
    have remaining : owners.addrs.drop (i + 1).toNat = rest ++ tail := by
      rw [next, ← List.tail_drop, left, List.cons_append, List.tail_cons]
    have shifted : (i + 1).toNat + rest.length = i.toNat + (rest.length + 1) := by omega
    unfold Keychain.matchFrom
    by_cases room : UInt32.ofNat keys.length < owners.threshold
    · simp only [room, if_true]
      cases found : kc.get addr with
      | none =>
        have skipped := inductionHypothesis (i + 1) sigs keys remaining (by omega)
          (collected.later (by omega))
        rwa [shifted] at skipped
      | some key =>
        have addressed : owners.addrs[i.toNat]? = some (address key) := by
          rw [here, kc.get_address addr key found]
        have fewer : keys.length < owners.threshold.toNat := by
          rwa [UInt32.lt_iff_toNat_lt, toNat_ofNat_length collected.atMost] at room
        have taken := inductionHypothesis (i + 1) (sigs ++ [i]) (keys ++ [key]) remaining
          (by omega) (next ▸ collected.take addressed fewer)
        rwa [shifted] at taken
    · simp only [room, if_false]
      exact collected.later (by omega)

/-- What `Match` returns when it is able: exactly `Threshold` increasing indices, each
naming the address of its key. -/
theorem matchOwners_able {address : Key → ShortID} (kc : Keychain address) (owners : OutputOwners)
    (time : UInt64) (sigs : List UInt32) (keys : List Key)
    (able : kc.matchOwners owners time = (sigs, keys, true)) :
    NamesKeys address owners.addrs sigs keys ∧ sigs.Pairwise (· < ·) ∧
      sigs.length = owners.threshold.toNat := by
  unfold Keychain.matchOwners at able
  split at able
  · simp at able
  · have visited : (UInt32.ofNat owners.addrs.length).toNat < 2 ^ 32 := UInt32.toNat_lt _
    have loop := matchFrom_collected kc owners 0
      (owners.addrs.take (UInt32.ofNat owners.addrs.length).toNat)
      (owners.addrs.drop (UInt32.ofNat owners.addrs.length).toNat) [] []
      (by simp) (by rw [List.length_take, UInt32.toNat_zero]; omega)
      ⟨List.Forall₂.nil, List.Pairwise.nil, by simp, Nat.zero_le _⟩
    obtain ⟨rfl, rfl, complete⟩ : _ ∧ _ ∧ _ := by simpa only [Prod.mk.injEq] using able
    have count : UInt32.ofNat (kc.matchFrom owners.threshold 0
        (owners.addrs.take (UInt32.ofNat owners.addrs.length).toNat) [] []).2.length =
          owners.threshold := of_decide_eq_true complete
    refine ⟨loop.names, loop.increasing, ?_⟩
    rw [loop.names.length_eq, ← toNat_ofNat_length loop.atMost, count]

/-- The input that `Match` leads to passes `Input.Verify` exactly for thresholds of at
most one; its indices and keys are right in any case. -/
theorem matched_input_verifies_iff {address : Key → ShortID} (kc : Keychain address)
    (owners : OutputOwners) (time : UInt64) (sigs : List UInt32) (keys : List Key)
    (able : kc.matchOwners owners time = (sigs, keys, true)) :
    (Input.verify (E := E) (some ⟨sigs⟩) = none ∧ sigs.length = owners.threshold.toNat ∧
      NamesKeys address owners.addrs sigs keys) ↔ owners.threshold ≤ 1 := by
  obtain ⟨names, increasing, count⟩ := matchOwners_able kc owners time sigs keys able
  rw [Input.verify_eq_none, increasing_accepted_iff sigs increasing, count,
    UInt32.le_iff_toNat_le, UInt32.toNat_one]
  exact ⟨fun verified => verified.1, fun small => ⟨small, rfl, names⟩⟩

/-- An address for each sample key. -/
def sampleAddress (key : UInt8) : ShortID := Vector.replicate 20 key

/-- A keychain with two keys. -/
def sampleKeychain : Keychain sampleAddress := (Keychain.empty sampleAddress |>.add 1).add 2

/-- An output of both sample addresses. -/
def sampleOwners (threshold : UInt32) : OutputOwners :=
  ⟨0, threshold, [sampleAddress 1, sampleAddress 2]⟩

/-- With a threshold of two, `Match` is able and its input is refused. -/
theorem matched_pair_refused :
    OutputOwners.verify (E := Empty) (some (sampleOwners 2)) = none ∧
      sampleKeychain.matchOwners (sampleOwners 2) 0 = ([0, 1], [1, 2], true) ∧
      Input.verify (E := Empty) (some ⟨[0, 1]⟩) = some .inputIndicesNotSortedUnique := by
  decide +kernel

/-- With a threshold of one it is accepted. -/
theorem matched_single_accepted :
    sampleKeychain.matchOwners (sampleOwners 1) 0 = ([0], [1], true) ∧
      Input.verify (E := Empty) (some ⟨[0]⟩) = none := by
  have able : sampleKeychain.matchOwners (sampleOwners 1) 0 = ([0], [1], true) := by decide +kernel
  exact ⟨able, ((matched_input_verifies_iff sampleKeychain (sampleOwners 1) 0 [0] [1] able).mpr
    (by decide)).1⟩

end AvalancheParallel.Secp256k1fx
