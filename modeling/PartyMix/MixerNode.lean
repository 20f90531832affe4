import PartyMix.Backends
import PartyMix.WalletState

/-!
# The mixer node

`mixer_node.rs`: scanning blocks, accepting payments and handling reorgs.  The
node keeps a wallet of its own.  `processBlock` is the double loop of the source
over aggregates and their keys, with the loop variables in a `BlockScan`; a panic
ends the run.
-/

namespace PartyMix

open FixedBytes MachineWord

inductive NodeError where
  | invalidAggregateNullifier
  | paymentRejected
  | reorgTooDeep
deriving DecidableEq

structure MixerNode {A V : Type} (B : PcdBackend A V) (M : Type) where
  config : MixerConfig
  wallet : WalletState A V
  nullifierAccum : M
  pcdVk : B.VerKey
  chainHeight : UInt64

variable {A V M : Type} {B : PcdBackend A V}

def MixerNode.new (mgr : ToSAccM M V) (config : MixerConfig) (wallet : WalletState A V) :
    MixerNode B M where
  config := config
  wallet := wallet
  nullifierAccum := mgr.new
  pcdVk := B.keygen.2
  chainHeight := 0

/-! ### `process_block` -/

/-- `loc.to_be_bytes()[..6]`. -/
def locationBytes (loc : Nat) : BlockchainLocation :=
  ⟨(beDigits 8 loc).take 6, by simp⟩

/-- The variables of the double loop. -/
structure BlockScan where
  nullifierKv : HashMap PublicKey NullifierKvEntry
  loc : UInt64
  blockNullifiers : List ToSAccSetElement

/-- The body of the inner loop, for the key at position `i` of an aggregate. -/
def scanKey (P : Primitives A V) (profile : Profile) (aggregate : AggregateNullifier)
    (scan : BlockScan) : PublicKey × Nat → Exec BlockScan
  | (pk, i) =>
    if pk ∈ scan.nullifierKv then
      -- duplicate keys are ignored
      .ok scan
    else do
      let blockchainLoc := locationBytes scan.loc.toNat
      let sigComm := P.commitRetrieve aggregate.sig i
      let loc ← addU64 profile scan.loc 1
      .ok
        { nullifierKv :=
            scan.nullifierKv.insert pk ⟨sigComm, blockchainLoc, aggregate.feeAcctComm⟩
          loc := loc
          blockNullifiers :=
            scan.blockNullifiers ++ [(pk, sigComm, blockchainLoc, aggregate.feeAcctComm)] }

def aggregateVerifies (P : Primitives A V) (msg : Message) (aggregate : AggregateNullifier) :
    Bool :=
  P.aggVerify aggregate.sig (aggregate.pks.map fun pk => (pk, msg))

/-- The body of the outer loop. -/
def scanAggregate (P : Primitives A V) (profile : Profile) (msg : Message) (scan : BlockScan)
    (aggregate : AggregateNullifier) : Exec BlockScan :=
  if !aggregateVerifies P msg aggregate then
    .ok scan
  else
    aggregate.pks.zipIdx.foldlM (scanKey P profile aggregate) scan

def processBlock [DecidableEq V] (P : Primitives A V) (mgr : ToSAccM M V) (profile : Profile)
    (node : MixerNode B M) (blockHeight : UInt64)
    (aggregateNullifiers : List AggregateNullifier) :
    Exec (Except NodeError Unit × MixerNode B M) := do
  let msg ← expect "valid message" (P.fromDigestSlice stateUpdateText)
  let loc ← mulU64 profile blockHeight (2 ^ 24)
  let scan ← aggregateNullifiers.foldlM (scanAggregate P profile msg)
    ⟨node.wallet.nullifierKv, loc, []⟩
  let nullifierAccum ← mgr.appendSet profile node.nullifierAccum scan.blockNullifiers
  let wallet := { node.wallet with nullifierKv := scan.nullifierKv }
  .ok (.ok (),
    { node with
      wallet := wallet.recordNullifierAccum (mgr.value nullifierAccum)
      nullifierAccum := nullifierAccum
      chainHeight := blockHeight })

/-! ### `accept_payment` -/

def inHistory [DecidableEq V] (node : MixerNode B M) (coin : Coin V) : Bool :=
  decide (coin.nullifierAccum ∈ node.wallet.nullifierAccumHistory)

def acceptPayment [DecidableEq V] (P : Primitives A V) (node : MixerNode B M) (coin : Coin V)
    (coinProof : List UInt8) (acctIdBytes pkCommitRand : Bytes 32) : Except NodeError UInt64 :=
  if coin.essence.address ≠ Commitment.commit P acctIdBytes pkCommitRand then
    .error .paymentRejected
  else if coin.onChainId ∈ node.wallet.alreadyReceivedIds then
    .error .paymentRejected
  else if !inHistory node coin then
    .error .paymentRejected
  else
    match B.verify node.pcdVk (.coin coin) coinProof with
    | .ok true => .ok coin.essence.amount
    | _ => .error .paymentRejected

/-! ### `handle_reorg` -/

def handleReorg (mgr : ToSAccM M V) (node : MixerNode B M) (disconnectedBlocks : UInt32) :
    Except NodeError Unit × MixerNode B M :=
  if disconnectedBlocks.toNat > node.wallet.nullifierAccumHistory.length then
    (.error .reorgTooDeep, node)
  else
    let trimTo := node.wallet.nullifierAccumHistory.length - disconnectedBlocks.toNat
    -- the entries of `nullifier_kv` stay
    (.ok (),
      { node with
        wallet := node.wallet.trimNullifierHistory trimTo
        nullifierAccum := mgr.removeSet^[disconnectedBlocks.toNat] node.nullifierAccum })

def currentNav (mgr : ToSAccM M V) (node : MixerNode B M) : V := mgr.value node.nullifierAccum

end PartyMix
