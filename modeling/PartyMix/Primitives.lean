import PartyMix.Lib.DebugText
import PartyMix.Lib.FixedBytes
import PartyMix.Lib.MachineWord

/-!
# Cryptographic primitives

`shielded_csv/primitives.rs`.  The bodies of the verifiers are stubs there (they
return `true` behind a `TODO`), so a development about the code around them takes
them as parameters: a `Primitives A V` is any choice of the hash and of the
verifiers, over any type `A` of spent-accumulator values and any type `V` of
nullifier-accumulator values.  `sourcePrimitives` is the choice the source makes.
The nullifier-accumulator manager is a second parameter, `ToSAccM`.
-/

namespace PartyMix

open DebugText FixedBytes MachineWord

/-! ### Keys, commitments, signatures -/

/-- `XOnlyPublicKey`, by its 32-byte serialization. -/
structure PublicKey where
  serialize : Bytes 32
deriving DecidableEq

structure Commitment where
  bytes : Bytes 32
deriving DecidableEq

structure Signature where
  bytes : List UInt8
deriving DecidableEq

structure SigCommitment where
  bytes : Bytes 32
deriving DecidableEq

structure Message where
  digest : Bytes 32
deriving DecidableEq

structure AccValue where
  bytes : Bytes 32
deriving DecidableEq

structure ToSAccValue where
  bytes : Bytes 32
deriving DecidableEq

abbrev CoinIdOnChain := Bytes 8

/-- 21-bit block height and 22-bit index within the block, as the source
    documents it. -/
abbrev BlockchainLocation := Bytes 6

/-- `(nullifier_pk, tx_comm, blockchain_loc, fee_acct_comm)`. -/
abbrev ToSAccSetElement := PublicKey × SigCommitment × BlockchainLocation × Commitment

-- keeps instance search for lists of sets of elements below its size limit
instance : DecidableEq ToSAccSetElement := instDecidableEqProd

def debugBytes {n : Nat} (bytes : Bytes n) : List Char :=
  debugList (fun byte => debugNat byte.toNat) bytes.toList

/-! ### The verifiers -/

/-- The hash, the verifiers, and the third-party functions they are used with. -/
structure Primitives (A V : Type) where
  hash : List UInt8 → Bytes 32
  /-- `Message::from_digest_slice`. -/
  fromDigestSlice : List UInt8 → Option Message
  debugPublicKey : PublicKey → List Char
  debugNav : V → List Char
  accNew : A
  verifyNonMembershipAndInsert : A → A → List CoinIdOnChain → List UInt8 → Bool
  verifyUnionMembership : V → ToSAccSetElement → List UInt8 → Bool
  verifyIsPrefix : List V → V → List UInt8 → Bool
  verifyDistinctElement : V → V → List UInt8 → Bool
  aggVerify : Signature → List (PublicKey × Message) → Bool
  commitRetrieve : Signature → Nat → SigCommitment
  commitVerify : SigCommitment → Bytes 32 → PublicKey → Bool

variable {A V M : Type}

def Commitment.commit (P : Primitives A V) (msg rand : Bytes 32) : Commitment :=
  ⟨P.hash (msg.toList ++ rand.toList)⟩

/-- The stubs of the source.  The standard library's hasher and the secp256k1
    functions stay parameters. -/
def sourcePrimitives (hash : List UInt8 → Bytes 32)
    (fromDigestSlice : List UInt8 → Option Message)
    (debugPublicKey : PublicKey → List Char) : Primitives AccValue ToSAccValue where
  hash := hash
  fromDigestSlice := fromDigestSlice
  debugPublicKey := debugPublicKey
  debugNav value := debugTuple "ToSAccValue" (debugBytes value.bytes)
  accNew := ⟨zeroBytes 32⟩
  verifyNonMembershipAndInsert _ _ _ _ := true
  verifyUnionMembership _ _ _ := true
  verifyIsPrefix _ _ _ := true
  verifyDistinctElement _ _ _ := true
  aggVerify _ _ := true
  commitRetrieve _ _ := ⟨zeroBytes 32⟩
  commitVerify _ _ _ := true

/-! ### The nullifier-accumulator manager -/

/-- `ToSAccM`: the state `M` of the append-only accumulator and its value.
    `zero` is the value `WalletState::new` starts its history with. -/
structure ToSAccM (M V : Type) where
  new : M
  value : M → V
  appendSet : Profile → M → List ToSAccSetElement → Exec M
  removeSet : M → M
  zero : V
  value_new : value new = zero

structure ToSAccMState where
  value : ToSAccValue
  depth : UInt32
deriving DecidableEq

/-- `ToSAccM` as the source implements it: a hash chain that ignores the sets,
    and a removal that keeps the value. -/
def ToSAccM.source (hash : List UInt8 → Bytes 32) : ToSAccM ToSAccMState ToSAccValue where
  new := ⟨⟨zeroBytes 32⟩, 0⟩
  value state := state.value
  appendSet profile state _set := do
    let depth ← addU32 profile state.depth 1
    .ok ⟨⟨hash state.value.bytes.toList⟩, depth⟩
  removeSet state := ⟨state.value, if state.depth = 0 then 0 else state.depth - 1⟩
  zero := ⟨zeroBytes 32⟩
  value_new := rfl

/-! ### The ideal accumulator

The object the documentation describes: the value is the list of the appended
sets itself. -/

abbrev Nav := List (Finset ToSAccSetElement)

def ToSAccM.ideal : ToSAccM Nav Nav where
  new := []
  value state := state
  appendSet _profile state set := .ok (state ++ [set.toFinset])
  removeSet state := state.dropLast
  zero := []
  value_new := rfl

end PartyMix
