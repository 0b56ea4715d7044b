import Mathlib.Data.Finset.Card
import Mathlib.Data.List.Forall2
import AvalancheParallel.Secp256k1fx.Fx

/-!
# How many owners assent

A permission that is granted comes with a signature for each index of the input,
and each signature recovers to the address the index names. The addresses are
pairwise different, so there are as many assenting owners as there are different
indices. `Input.Verify` does not make the indices different: it accepts lists
that never increase, repetitions included.
-/

namespace AvalancheParallel.Secp256k1fx

open AvalancheParallel.EarlyExits AvalancheParallel.Ids AvalancheParallel.Utils

variable {PublicKey E : Type}

/-- In two matched lists, each element on the left has a partner on the right. -/
theorem partner_right {α β : Type} {related : α → β → Prop} {left : List α} {right : List β}
    (matched : List.Forall₂ related left right) {element : α} (member : element ∈ left) :
    ∃ partner ∈ right, related element partner := by
  induction matched with
  | nil => simp at member
  | cons pair _ inductionHypothesis =>
    rcases List.mem_cons.mp member with rfl | later
    · exact ⟨_, List.mem_cons_self, pair⟩
    · obtain ⟨partner, inside, found⟩ := inductionHypothesis later
      exact ⟨partner, List.mem_cons_of_mem _ inside, found⟩

/-- Each element on the right has a partner on the left. -/
theorem partner_left {α β : Type} {related : α → β → Prop} {left : List α} {right : List β}
    (matched : List.Forall₂ related left right) {element : β} (member : element ∈ right) :
    ∃ partner ∈ left, related partner element :=
  partner_right (List.Forall₂.flip matched) member

/-- The signature recovers to the address the index names. -/
def Signs (fx : Fx PublicKey E) (txHash : List UInt8) (addrs : List ShortID) (index : UInt32)
    (sig : Signature) : Prop :=
  ∃ pk, fx.recoverPublicKeyFromHash txHash sig = .ok pk ∧
    addrs[index.toNat]? = some (fx.address pk)

/-- The address belongs to an owner and is recovered from a signature of the credential. -/
def Assents (fx : Fx PublicKey E) (txHash : List UInt8) (cred : Credential) (owners : OutputOwners)
    (address : ShortID) : Prop :=
  address ∈ owners.addrs ∧ ∃ sig ∈ cred.sigs, ∃ pk,
    fx.recoverPublicKeyFromHash txHash sig = .ok pk ∧ fx.address pk = address

/-- At least `Threshold` different owners assent. -/
def ThresholdMet (fx : Fx PublicKey E) (txHash : List UInt8) (cred : Credential)
    (owners : OutputOwners) : Prop :=
  ∃ assenting : Finset ShortID, owners.threshold.toNat ≤ assenting.card ∧
    ∀ address ∈ assenting, Assents fx txHash cred owners address

/-- A passed signature loop matches the indices with the signatures. -/
theorem checkSignatures_none (fx : Fx PublicKey E) (txHash : List UInt8) (addrs : List ShortID)
    (indices : List UInt32) (sigs : List Signature) (sameLength : indices.length = sigs.length)
    (passed : checkSignatures fx txHash addrs indices sigs = none) :
    List.Forall₂ (Signs fx txHash addrs) indices sigs := by
  induction indices generalizing sigs with
  | nil =>
    rw [List.length_eq_zero_iff.mp sameLength.symm]
    exact List.Forall₂.nil
  | cons index rest inductionHypothesis =>
    cases sigs with
    | nil => simp at sameLength
    | cons sig others =>
      unfold checkSignatures at passed
      split at passed
      · simp at passed
      · split at passed
        · simp at passed
        · simp at passed
        · rename_i pk expectedAddress recovered named
          split at passed
          · simp at passed
          · rename_i agrees
            have expected : expectedAddress = fx.address pk := not_not.mp agrees
            apply List.Forall₂.cons
            · exact ⟨pk, recovered, expected ▸ named⟩
            · exact inductionHypothesis others (by simpa using sameLength) passed

/-- Addresses in strictly increasing order are not repeated. -/
theorem shortID_compare_nodup (addrs : List ShortID)
    (sorted : isSortedAndUnique ShortID.compare addrs = true) : addrs.Nodup :=
  isSortedAndUnique_nodup ShortID.compare (fun _ => bytesCompare_refl _)
    (fun _ _ _ => bytesCompare_trans _ _ _) addrs sorted

/-- What a granted permission has checked, on an `Fx` that is bootstrapped. -/
structure Granted (fx : Fx PublicKey E) (tx : List UInt8) (input : Input) (cred : Credential)
    (owners : OutputOwners) : Prop where
  addrs : owners.addrs.Nodup
  count : UInt32.ofNat input.sigIndices.length = owners.threshold
  signs : List.Forall₂ (Signs fx (fx.computeHash256 tx) owners.addrs) input.sigIndices cred.sigs

/-- What a granted permission has checked. -/
theorem verifyPermission_granted (fx : Fx PublicKey E) (tx : List UInt8) (input : Input)
    (cred : Credential) (owners : OutputOwners) (bootstrapped : fx.bootstrapped = true)
    (granted : verifyPermission fx (.unsignedTx tx) (.input (some input)) (.credential (some cred))
      (.outputOwners (some owners)) = none) : Granted fx tx input cred owners := by
  simp only [verifyPermission, verifyArguments] at granted
  cases verified : verifyAll (E := E) (some input) (some cred) (some owners) with
  | some error => simp [verified] at granted
  | none =>
    simp only [verified] at granted
    obtain ⟨_, _, ownersVerified⟩ := (verifyAll_eq_none _ _ _).mp verified
    have addresses := ((OutputOwners.verify_eq_none owners).mp ownersVerified).2.2
    simp only [verifyCredentials, check_eq_none, bootstrapped, Bool.not_true, Bool.false_eq_true,
      if_false, UInt32.not_lt, ne_eq, not_not] at granted
    obtain ⟨_, tooMany, tooFew, sameLength, signed⟩ := granted
    refine ⟨shortID_compare_nodup _ addresses, UInt32.le_antisymm tooMany tooFew, ?_⟩
    exact checkSignatures_none fx _ _ _ _ sameLength signed

/-- The address an index names; the default is not used for indices in range. -/
def named (owners : OutputOwners) (index : UInt32) : ShortID :=
  owners.addrs.getD index.toNat (Vector.replicate 20 0)

/-- A signature was made with the key of the owner that its index names. -/
theorem named_of_signs {fx : Fx PublicKey E} {txHash : List UInt8} {owners : OutputOwners}
    {index : UInt32} {sig : Signature} (signs : Signs fx txHash owners.addrs index sig) :
    ∃ pk, fx.recoverPublicKeyFromHash txHash sig = .ok pk ∧ fx.address pk = named owners index ∧
      ∃ bound : index.toNat < owners.addrs.length,
        owners.addrs.get ⟨index.toNat, bound⟩ = named owners index := by
  obtain ⟨pk, recovered, here⟩ := signs
  obtain ⟨bound, value⟩ := List.getElem?_eq_some_iff.mp here
  have same : named owners index = fx.address pk := by
    simp [named, List.getD_eq_getElem?_getD, here]
  exact ⟨pk, recovered, same.symm, bound, value.trans same.symm⟩

/-- Different indices of a granted permission name different addresses. -/
theorem Granted.named_injective {fx : Fx PublicKey E} {tx : List UInt8} {input : Input}
    {cred : Credential} {owners : OutputOwners} (granted : Granted fx tx input cred owners) :
    Set.InjOn (named owners) ↑input.sigIndices.toFinset := by
  intro first firstIn second secondIn same
  rw [List.coe_toFinset] at firstIn secondIn
  obtain ⟨_, _, firstSigns⟩ := partner_right granted.signs firstIn
  obtain ⟨_, _, secondSigns⟩ := partner_right granted.signs secondIn
  obtain ⟨_, _, _, firstBound, firstValue⟩ := named_of_signs firstSigns
  obtain ⟨_, _, _, secondBound, secondValue⟩ := named_of_signs secondSigns
  have samePosition : first.toNat = second.toNat := by
    have values := firstValue.trans (same.trans secondValue.symm)
    simpa using granted.addrs.get_inj_iff.mp values
  exact UInt32.toNat_inj.mp samePosition

/-- The named addresses are those of assenting owners, and there are no others. -/
theorem Granted.assents_iff {fx : Fx PublicKey E} {tx : List UInt8} {input : Input}
    {cred : Credential} {owners : OutputOwners} (granted : Granted fx tx input cred owners)
    (address : ShortID) :
    Assents fx (fx.computeHash256 tx) cred owners address ↔
      address ∈ input.sigIndices.toFinset.image (named owners) := by
  rw [Finset.mem_image]
  constructor
  · rintro ⟨_, sig, member, pk, recovered, rfl⟩
    obtain ⟨index, inside, signs⟩ := partner_left granted.signs member
    obtain ⟨other, otherRecovered, same, _⟩ := named_of_signs signs
    have samePk : other = pk := Except.ok.inj (otherRecovered.symm.trans recovered)
    exact ⟨index, List.mem_toFinset.mpr inside, samePk ▸ same.symm⟩
  · rintro ⟨index, member, rfl⟩
    obtain ⟨sig, inside, signs⟩ := partner_right granted.signs (List.mem_toFinset.mp member)
    obtain ⟨pk, recovered, same, bound, value⟩ := named_of_signs signs
    refine ⟨?_, sig, inside, pk, recovered, same⟩
    rw [← value]
    exact List.get_mem owners.addrs _

/-- There are as many assenting owners as different indices. -/
theorem Granted.thresholdMet_iff {fx : Fx PublicKey E} {tx : List UInt8} {input : Input}
    {cred : Credential} {owners : OutputOwners} (granted : Granted fx tx input cred owners) :
    ThresholdMet fx (fx.computeHash256 tx) cred owners ↔
      owners.threshold.toNat ≤ input.sigIndices.toFinset.card := by
  have distinct : (input.sigIndices.toFinset.image (named owners)).card =
      input.sigIndices.toFinset.card := Finset.card_image_of_injOn granted.named_injective
  constructor
  · rintro ⟨assenting, enough, assents⟩
    have within : assenting ⊆ input.sigIndices.toFinset.image (named owners) :=
      fun address member => (granted.assents_iff address).mp (assents address member)
    calc owners.threshold.toNat ≤ assenting.card := enough
      _ ≤ (input.sigIndices.toFinset.image (named owners)).card := Finset.card_le_card within
      _ = input.sigIndices.toFinset.card := distinct
  · intro enough
    exact ⟨input.sigIndices.toFinset.image (named owners), distinct.symm ▸ enough,
      fun address member => (granted.assents_iff address).mpr member⟩

/-- A granted permission has `Threshold` different assenting owners exactly when its input
has at least `Threshold` different indices. -/
theorem threshold_met_iff (fx : Fx PublicKey E) (tx : List UInt8) (input : Input)
    (cred : Credential) (owners : OutputOwners) (bootstrapped : fx.bootstrapped = true)
    (granted : verifyPermission fx (.unsignedTx tx) (.input (some input)) (.credential (some cred))
      (.outputOwners (some owners)) = none) :
    ThresholdMet fx (fx.computeHash256 tx) cred owners ↔
      owners.threshold.toNat ≤ input.sigIndices.toFinset.card :=
  (verifyPermission_granted fx tx input cred owners bootstrapped granted).thresholdMet_iff

/-- An `Fx` for concrete runs. Each signature names its signer by its first byte. -/
def sampleFx : Fx UInt8 Empty where
  bootstrapped := true
  unixTime := 0
  computeHash256 := fun bytes => bytes.take 32
  recoverPublicKeyFromHash := fun _ sig => .ok sig[0]
  address := fun pk => Vector.replicate 20 pk

/-- Two owners, both of whom have to sign. -/
def twoOwners : OutputOwners := ⟨0, 2, [Vector.replicate 20 1, Vector.replicate 20 2]⟩

def signedBy (signers : List UInt8) : Credential := ⟨signers.map (fun pk => Vector.replicate 65 pk)⟩

/-- Two signatures of the first owner are enough for a threshold of two. -/
theorem repeated_index_accepted :
    verifyPermission sampleFx (.unsignedTx [7]) (.input (some ⟨[0, 0]⟩))
        (.credential (some (signedBy [1, 1]))) (.outputOwners (some twoOwners)) = none ∧
      ¬ ThresholdMet sampleFx (sampleFx.computeHash256 [7]) (signedBy [1, 1]) twoOwners := by
  have granted : verifyPermission sampleFx (.unsignedTx [7]) (.input (some ⟨[0, 0]⟩))
      (.credential (some (signedBy [1, 1]))) (.outputOwners (some twoOwners)) = none := by decide
  refine ⟨granted, ?_⟩
  rw [(verifyPermission_granted sampleFx [7] _ _ _ rfl granted).thresholdMet_iff]
  decide

/-- With the indices in decreasing order both owners have signed. -/
theorem decreasing_indices_threshold_met :
    ThresholdMet sampleFx (sampleFx.computeHash256 [7]) (signedBy [2, 1]) twoOwners :=
  (threshold_met_iff sampleFx [7] ⟨[1, 0]⟩ (signedBy [2, 1]) twoOwners rfl (by decide)).mpr
    (by decide)

end AvalancheParallel.Secp256k1fx
