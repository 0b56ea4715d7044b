import AvalancheParallel.Foundation.EarlyExits
import AvalancheParallel.Ids
import AvalancheParallel.Utils.Sorting

/-!
# Spending rights of the secp256k1 feature extension

`Input`, `OutputOwners`, `Credential` and the permission check of
`vms/secp256k1fx`. A pointer that may be nil is an option. Hashing and public key
recovery are parameters; the recover cache returns what recovery returns. The
arguments of `VerifyPermission` are interface values, so each may be of the wrong
type.
-/

namespace AvalancheParallel.Secp256k1fx

open AvalancheParallel.EarlyExits AvalancheParallel.Ids AvalancheParallel.Utils

/-- `[secp256k1.SignatureLen]byte`. -/
abbrev Signature := Vector UInt8 65

/-- The indices of the owners that sign. -/
structure Input where
  sigIndices : List UInt32
deriving DecidableEq

/-- Who may spend an output, and from which time on. -/
structure OutputOwners where
  locktime : UInt64
  threshold : UInt32
  addrs : List ShortID
deriving DecidableEq

/-- The signatures for the signing owners. -/
structure Credential where
  sigs : List Signature
deriving DecidableEq

/-- The errors of the permission check. `E` are the errors of public key recovery. -/
inductive FxError (E : Type) where
  | wrongTxType
  | wrongInputType
  | wrongCredentialType
  | wrongOwnerType
  | nilInput
  | inputIndicesNotSortedUnique
  | nilCredential
  | nilOutput
  | outputUnspendable
  | outputUnoptimized
  | addrsNotSortedUnique
  | timelocked
  | tooManySigners
  | tooFewSigners
  | inputCredentialSignersMismatch
  | inputOutputIndexOutOfBounds
  | recovery (cause : E)
  | wrongSig (expectedAddress address : ShortID)
deriving DecidableEq

variable {E : Type}

/-- `Input.Verify`; `none` is the nil error. -/
def Input.verify : Option Input → Option (FxError E)
  | none => some .nilInput
  | some input =>
    if !isSortedAndUniqueOrdered input.sigIndices then some .inputIndicesNotSortedUnique else none

/-- `Credential.Verify`. -/
def Credential.verify : Option Credential → Option (FxError E)
  | none => some .nilCredential
  | some _ => none

/-- `OutputOwners.Verify`. Lengths are converted to `uint32`. -/
def OutputOwners.verify : Option OutputOwners → Option (FxError E)
  | none => some .nilOutput
  | some out =>
    if UInt32.ofNat out.addrs.length < out.threshold then some .outputUnspendable
    else if out.threshold = 0 ∧ 0 < out.addrs.length then some .outputUnoptimized
    else if !isSortedAndUnique ShortID.compare out.addrs then some .addrsNotSortedUnique
    else none

/-- An input passes when its indices pass the test for order. -/
theorem Input.verify_eq_none (input : Input) :
    Input.verify (E := E) (some input) = none ↔
      isSortedAndUniqueOrdered input.sigIndices = true := by
  cases sorted : isSortedAndUniqueOrdered input.sigIndices <;> simp [Input.verify, sorted]

/-- Owners pass when the threshold can be met, is not idle, and the addresses are in order. -/
theorem OutputOwners.verify_eq_none (out : OutputOwners) :
    OutputOwners.verify (E := E) (some out) = none ↔
      out.threshold ≤ UInt32.ofNat out.addrs.length ∧
        (out.threshold = 0 → out.addrs = []) ∧
        isSortedAndUnique ShortID.compare out.addrs = true := by
  simp only [OutputOwners.verify, check_eq_none, UInt32.not_lt, not_and, List.length_pos_iff,
    ne_eq, not_not, Bool.not_eq_true', Bool.not_eq_false, and_true]

/-- An interface value handed to `VerifyPermission`: a transaction with the bytes it
returns, a pointer of one of the three expected types, or anything else. -/
inductive Argument where
  | unsignedTx (bytes : List UInt8)
  | input (pointer : Option Input)
  | credential (pointer : Option Credential)
  | outputOwners (pointer : Option OutputOwners)
  | other

/-- An `Fx`: whether bootstrapping is over and what the clock of its VM shows, with the
functions it takes from other packages. -/
structure Fx (PublicKey E : Type) where
  bootstrapped : Bool
  unixTime : UInt64
  computeHash256 : List UInt8 → List UInt8
  recoverPublicKeyFromHash : List UInt8 → Signature → Except E PublicKey
  address : PublicKey → ShortID

variable {PublicKey : Type}

/-- The signature loop of `VerifyCredentials`. There are as many signatures as indices,
and an index below the number of addresses names one of them. -/
def checkSignatures (fx : Fx PublicKey E) (txHash : List UInt8) (addrs : List ShortID) :
    List UInt32 → List Signature → Option (FxError E)
  | index :: indices, sig :: sigs =>
    if UInt32.ofNat addrs.length ≤ index then some .inputOutputIndexOutOfBounds
    else
      match fx.recoverPublicKeyFromHash txHash sig, addrs[index.toNat]? with
      | .error cause, _ => some (.recovery cause)
      | .ok _, none => some .inputOutputIndexOutOfBounds
      | .ok pk, some expectedAddress =>
        if expectedAddress ≠ fx.address pk then some (.wrongSig expectedAddress (fx.address pk))
        else checkSignatures fx txHash addrs indices sigs
  | _, _ => none

/-- `VerifyCredentials`. -/
def verifyCredentials (fx : Fx PublicKey E) (txBytes : List UInt8) (input : Input)
    (cred : Credential) (out : OutputOwners) : Option (FxError E) :=
  let numSigs := input.sigIndices.length
  if fx.unixTime < out.locktime then some .timelocked
  else if out.threshold < UInt32.ofNat numSigs then some .tooManySigners
  else if UInt32.ofNat numSigs < out.threshold then some .tooFewSigners
  else if numSigs ≠ cred.sigs.length then some .inputCredentialSignersMismatch
  else if !fx.bootstrapped then none
  else checkSignatures fx (fx.computeHash256 txBytes) out.addrs input.sigIndices cred.sigs

/-- `verify.All` of the three pointers: the first error in their order. -/
def verifyAll (input : Option Input) (cred : Option Credential) (owner : Option OutputOwners) :
    Option (FxError E) :=
  Input.verify input <|> Credential.verify cred <|> OutputOwners.verify owner

/-- All three pass when each does. -/
theorem verifyAll_eq_none (input : Option Input) (cred : Option Credential)
    (owner : Option OutputOwners) :
    verifyAll (E := E) input cred owner = none ↔ Input.verify (E := E) input = none ∧
      Credential.verify (E := E) cred = none ∧ OutputOwners.verify (E := E) owner = none := by
  unfold verifyAll
  cases Input.verify (E := E) input <;> cases Credential.verify (E := E) cred <;> simp

/-- `VerifyPermission` once the types of its arguments are known. A nil pointer has
failed its `Verify` before it is used. -/
def verifyArguments (fx : Fx PublicKey E) (txBytes : List UInt8) (input : Option Input)
    (cred : Option Credential) (owner : Option OutputOwners) : Option (FxError E) :=
  match verifyAll input cred owner, input, cred, owner with
  | some error, _, _, _ => some error
  | none, some input, some cred, some owner => verifyCredentials fx txBytes input cred owner
  | none, _, _, _ => some .nilInput

/-- `VerifyPermission`. -/
def verifyPermission (fx : Fx PublicKey E) (txIntf inIntf credIntf ownerIntf : Argument) :
    Option (FxError E) :=
  match txIntf with
  | .unsignedTx txBytes =>
    match inIntf with
    | .input input =>
      match credIntf with
      | .credential cred =>
        match ownerIntf with
        | .outputOwners owner => verifyArguments fx txBytes input cred owner
        | _ => some .wrongOwnerType
      | _ => some .wrongCredentialType
    | _ => some .wrongInputType
  | _ => some .wrongTxType

end AvalancheParallel.Secp256k1fx
