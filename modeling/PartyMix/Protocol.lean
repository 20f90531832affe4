import PartyMix.Primitives

/-!
# Shielded CSV protocol data and predicates

`shielded_csv/protocol.rs`: coins, account states, transactions, and the two-step
payment.  `paymentInit` checks a transition of an account state and fixes what it
produces; `paymentFinalize` and `paymentFinalizeFee` turn those outputs into a
state, coins and a fee coin once the nullifier is in the accumulator.  Early
`return None` is `.ok none`; the panics of the source (an overflowing plain
operator, the slice `new_coins[1..]` of an empty list) are errors of `Exec`.
-/

namespace PartyMix

open DebugText FixedBytes MachineWord

/-! ### Data -/

structure AggregateNullifier where
  pks : List PublicKey
  sig : Signature
  feeAcctComm : Commitment
deriving DecidableEq

structure CoinEssence where
  address : Commitment
  amount : UInt64
  idx : Bytes 2
deriving DecidableEq

def CoinEssence.FEE_IDX : Bytes 2 := ⟨[0xff, 0xff], rfl⟩

abbrev CoinId := Bytes 34

structure Coin (V : Type) where
  essence : CoinEssence
  txHash : Bytes 32
  blockchainLoc : BlockchainLocation
  nullifierAccum : V
deriving DecidableEq

structure AcctStateEssence where
  id : PublicKey
  balance : UInt64
  nullifierPk : PublicKey
deriving DecidableEq

structure AcctState (A V : Type) where
  essence : AcctStateEssence
  spentAccum : A
  nullifierAccum : V
deriving DecidableEq

structure Transaction (V : Type) where
  conditionalNav : V
  prevState : AcctStateEssence
  prevCoins : List CoinId
  newState : AcctStateEssence
  newCoins : List CoinEssence
deriving DecidableEq

structure PaymentInitLocalInput (A V : Type) where
  acctId : PublicKey
  acctCommRands : List (Bytes 32)
  newCoins : List CoinEssence
  fee : UInt64
  newSpentAccum : A
  snmiProof : List UInt8
  newNullifierPk : PublicKey
  conditionalNav : V
  txHashRandomness : Bytes 32
  nullifierTxCommPk : PublicKey
  nullifierTxComm : SigCommitment
  nullifierAccum : V
  napProof : List UInt8
deriving DecidableEq

structure PaymentInitOutputPartial (V : Type) where
  txHash : Bytes 32
  nullifierPk : PublicKey
  nullifierTxComm : SigCommitment
  nullifierAccum : V
deriving DecidableEq

structure PaymentInitOutput (A V : Type) where
  partialOutput : PaymentInitOutputPartial V
  acctStateEssence : AcctStateEssence
  spentAccum : A
  coinEssences : List CoinEssence
deriving DecidableEq

structure PaymentInitOutputFee (V : Type) where
  partialOutput : PaymentInitOutputPartial V
  fee : UInt64
deriving DecidableEq

structure PaymentFinalizeLocalInput (V : Type) where
  feeAcctComm : Commitment
  blockchainLoc : BlockchainLocation
  nullifierAccum : V
  nmProof : List UInt8
  napProof : List UInt8
deriving DecidableEq

structure IssuanceProof where
deriving DecidableEq

inductive LocalInput (A V : Type) where
  | issuance (proof : IssuanceProof)
  | paymentInit (input : PaymentInitLocalInput A V)
  | paymentFinalize (input : PaymentFinalizeLocalInput V)
deriving DecidableEq

inductive EdgeLabel (A V : Type) where
  | acctState (state : AcctState A V)
  | coin (coin : Coin V)
  | paymentInitOutput (output : PaymentInitOutput A V)
  | paymentInitOutputFee (output : PaymentInitOutputFee V)
deriving DecidableEq

variable {A V : Type}

def Coin.id (coin : Coin V) : CoinId := coin.txHash ++ coin.essence.idx

def Coin.onChainId (coin : Coin V) : CoinIdOnChain := coin.blockchainLoc ++ coin.essence.idx

/-! ### The transaction hash -/

def debugCommitment (commitment : Commitment) : List Char :=
  debugTuple "Commitment" (debugBytes commitment.bytes)

def debugCoinEssence (essence : CoinEssence) : List Char :=
  debugStruct "CoinEssence"
    [("address", debugCommitment essence.address),
     ("amount", debugNat essence.amount.toNat),
     ("idx", debugBytes essence.idx)]

def debugAcctStateEssence (P : Primitives A V) (essence : AcctStateEssence) : List Char :=
  debugStruct "AcctStateEssence"
    [("id", P.debugPublicKey essence.id),
     ("balance", debugNat essence.balance.toNat),
     ("nullifier_pk", P.debugPublicKey essence.nullifierPk)]

/-- The text `Transaction::hash` formats: the randomness and the five fields,
    separated by single spaces. -/
def Transaction.preimage (P : Primitives A V) (tx : Transaction V) (randomness : Bytes 32) :
    List Char :=
  List.intercalate [' ']
    [debugBytes randomness, P.debugNav tx.conditionalNav,
     debugAcctStateEssence P tx.prevState, debugList debugBytes tx.prevCoins,
     debugAcctStateEssence P tx.newState, debugList debugCoinEssence tx.newCoins]

def Transaction.hash (P : Primitives A V) (tx : Transaction V) (randomness : Bytes 32) :
    Bytes 32 :=
  P.hash (intoBytes (tx.preimage P randomness))

/-! ### `payment_init` -/

/-- The first loop: previous coins and commitment openings are zipped, and every
    pair must match. -/
def ownsPrevCoins (P : Primitives A V) (id : PublicKey) (prevCoins : List (Coin V))
    (acctCommRands : List (Bytes 32)) : Bool :=
  (prevCoins.zip acctCommRands).all fun (prevCoin, acctCommRand) =>
    prevCoin.essence.address == Commitment.commit P id.serialize acctCommRand

def coinsSum (wLoc : PaymentInitLocalInput A V) : Option UInt64 := do
  let sum ← (wLoc.newCoins.map CoinEssence.amount).foldlM checkedAdd 0
  checkedSub sum wLoc.fee

/-- The previous balance plus the amounts of the previous coins, with the plain
    operators. -/
def availableFunds (profile : Profile) (prevState : AcctState A V) (prevCoins : List (Coin V)) :
    Exec UInt64 := do
  let prevCoinsSum ← sumU64 profile (prevCoins.map fun coin => coin.essence.amount)
  addU64 profile prevState.essence.balance prevCoinsSum

/-- The index loop: from the second coin on, an index is above its predecessor's
    and is not the fee index. -/
def checkIdcs : List (Bytes 2) → Bool
  | prev :: idx :: rest =>
      !(decide (idx.toList ≤ prev.toList) || idx == CoinEssence.FEE_IDX) &&
        checkIdcs (idx :: rest)
  | _ => true

/-- `new_coins[1..].to_vec()`. -/
def sliceFromOne {α : Type} : List α → Exec (List α)
  | [] => .error .sliceIndex
  | _ :: rest => .ok rest

def paymentInitTransaction (prevState : AcctState A V) (prevCoins : List (Coin V))
    (wLoc : PaymentInitLocalInput A V) (newBalance : UInt64) : Transaction V where
  conditionalNav := wLoc.conditionalNav
  prevState := prevState.essence
  prevCoins := prevCoins.map Coin.id
  newState := ⟨prevState.essence.id, newBalance, wLoc.newNullifierPk⟩
  newCoins := wLoc.newCoins

def paymentInitPartial (P : Primitives A V) (prevState : AcctState A V)
    (prevCoins : List (Coin V)) (wLoc : PaymentInitLocalInput A V) (newBalance : UInt64) :
    PaymentInitOutputPartial V where
  txHash := (paymentInitTransaction prevState prevCoins wLoc newBalance).hash P
    wLoc.txHashRandomness
  nullifierPk := prevState.essence.nullifierPk
  nullifierTxComm := wLoc.nullifierTxComm
  nullifierAccum := wLoc.nullifierAccum

def requiredPrefixes (prevState : AcctState A V) (prevCoins : List (Coin V))
    (wLoc : PaymentInitLocalInput A V) : List V :=
  prevCoins.map Coin.nullifierAccum ++ [prevState.nullifierAccum, wLoc.conditionalNav]

/-- The no-op outcome of a reorganised transaction: the balance and the spent set
    stay, no coin is created and no fee is paid. -/
def noopOutputs (prevState : AcctState A V) (wLoc : PaymentInitLocalInput A V)
    (partialOutput : PaymentInitOutputPartial V) :
    PaymentInitOutput A V × PaymentInitOutputFee V :=
  ({ partialOutput := partialOutput
     acctStateEssence :=
       ⟨prevState.essence.id, prevState.essence.balance, wLoc.newNullifierPk⟩
     spentAccum := prevState.spentAccum
     coinEssences := [] },
   { partialOutput := partialOutput
     fee := 0 })

def appliedOutputs (prevState : AcctState A V) (wLoc : PaymentInitLocalInput A V)
    (newBalance : UInt64) (partialOutput : PaymentInitOutputPartial V)
    (coinEssences : List CoinEssence) :
    PaymentInitOutput A V × PaymentInitOutputFee V :=
  ({ partialOutput := partialOutput
     acctStateEssence := ⟨prevState.essence.id, newBalance, wLoc.newNullifierPk⟩
     spentAccum := wLoc.newSpentAccum
     coinEssences := coinEssences },
   { partialOutput := partialOutput
     fee := wLoc.fee })

/-- The part of `payment_init` after the balance is known. -/
def paymentInitOutputs (P : Primitives A V) (prevState : AcctState A V)
    (prevCoins : List (Coin V)) (wLoc : PaymentInitLocalInput A V) (newBalance : UInt64) :
    Exec (Option (PaymentInitOutput A V × PaymentInitOutputFee V)) :=
  let partialOutput := paymentInitPartial P prevState prevCoins wLoc newBalance
  if !P.commitVerify wLoc.nullifierTxComm partialOutput.txHash wLoc.nullifierTxCommPk then
    .ok none
  else if P.verifyDistinctElement wLoc.conditionalNav wLoc.nullifierAccum wLoc.napProof then
    .ok (some (noopOutputs prevState wLoc partialOutput))
  else if !P.verifyIsPrefix (requiredPrefixes prevState prevCoins wLoc) wLoc.nullifierAccum
      wLoc.napProof then
    .ok none
  else do
    -- an empty list of new coins panics here
    let coinEssences ← sliceFromOne wLoc.newCoins
    .ok (some (appliedOutputs prevState wLoc newBalance partialOutput coinEssences))

def paymentInit (P : Primitives A V) (profile : Profile) (prevState : AcctState A V)
    (prevCoins : List (Coin V)) (wLoc : PaymentInitLocalInput A V) :
    Exec (Option (PaymentInitOutput A V × PaymentInitOutputFee V)) :=
  if !ownsPrevCoins P prevState.essence.id prevCoins wLoc.acctCommRands then
    .ok none
  else
    match coinsSum wLoc with
    | none => .ok none
    | some coinsSum => do
      let funds ← availableFunds profile prevState prevCoins
      match checkedSub funds coinsSum with
      | none => .ok none
      | some newBalance =>
        if !P.verifyNonMembershipAndInsert prevState.spentAccum wLoc.newSpentAccum
            (prevCoins.map Coin.onChainId) wLoc.snmiProof then
          .ok none
        else if !checkIdcs (wLoc.newCoins.map CoinEssence.idx) then
          .ok none
        else
          paymentInitOutputs P prevState prevCoins wLoc newBalance

def newacct (P : Primitives A V) (wLoc : PaymentInitLocalInput A V) : AcctState A V where
  essence := ⟨wLoc.acctId, 0, wLoc.acctId⟩
  spentAccum := P.accNew
  nullifierAccum := wLoc.nullifierAccum

def paymentInitNewacct (P : Primitives A V) (profile : Profile) (prevCoins : List (Coin V))
    (wLoc : PaymentInitLocalInput A V) :
    Exec (Option (PaymentInitOutput A V × PaymentInitOutputFee V)) :=
  paymentInit P profile (newacct P wLoc) prevCoins wLoc

/-! ### `payment_finalize` -/

def paymentFinalizeInternal (P : Primitives A V) (payInitOutput : PaymentInitOutputPartial V)
    (wLoc : PaymentFinalizeLocalInput V) : Bool :=
  if !P.verifyIsPrefix [payInitOutput.nullifierAccum] wLoc.nullifierAccum wLoc.napProof then
    false
  else
    P.verifyUnionMembership wLoc.nullifierAccum
      (payInitOutput.nullifierPk, payInitOutput.nullifierTxComm, wLoc.blockchainLoc,
        wLoc.feeAcctComm)
      wLoc.nmProof

def paymentFinalizeFee (P : Primitives A V) (payInit : PaymentInitOutputFee V)
    (wLoc : PaymentFinalizeLocalInput V) : Option (Coin V) :=
  if !paymentFinalizeInternal P payInit.partialOutput wLoc then
    none
  else
    some
      { essence := ⟨wLoc.feeAcctComm, payInit.fee, CoinEssence.FEE_IDX⟩
        txHash := payInit.partialOutput.txHash
        blockchainLoc := wLoc.blockchainLoc
        nullifierAccum := wLoc.nullifierAccum }

def finalizedCoin (partialOutput : PaymentInitOutputPartial V)
    (wLoc : PaymentFinalizeLocalInput V) (essence : CoinEssence) : Coin V where
  essence := essence
  txHash := partialOutput.txHash
  blockchainLoc := wLoc.blockchainLoc
  nullifierAccum := wLoc.nullifierAccum

def paymentFinalize (P : Primitives A V) (payInit : PaymentInitOutput A V)
    (wLoc : PaymentFinalizeLocalInput V) : Option (AcctState A V × List (Coin V)) :=
  if !paymentFinalizeInternal P payInit.partialOutput wLoc then
    none
  else
    some
      (⟨payInit.acctStateEssence, payInit.spentAccum, wLoc.nullifierAccum⟩,
        payInit.coinEssences.map (finalizedCoin payInit.partialOutput wLoc))

end PartyMix
