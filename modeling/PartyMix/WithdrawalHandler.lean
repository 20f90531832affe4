import PartyMix.MixerNode
import PartyMix.Pool

/-!
# Withdrawals

`withdrawal_handler.rs`.  `queue_withdrawal` reserves an amount and its fee in the
ledger; `process_single_withdrawal` builds a coin for a request and asks the backend
for its proof.  Random ids and the hash randomness are arguments.
-/

namespace PartyMix

open FixedBytes MachineWord

inductive WithdrawalError where
  | insufficientBalance
  | batchingDisabled
  | batchTooLarge (size maximum : Nat)
  | pool (error : PoolError)
  | processingFailed (message : String)
deriving DecidableEq

inductive WithdrawalStatus where
  | queued
  | processing
  | completed
  | failed
deriving DecidableEq

structure MixerWithdrawalRequest where
  id : Uuid
  userIdHash : Bytes 32
  amount : UInt64
  destinationAddress : Commitment
  serviceFee : UInt64
  status : WithdrawalStatus
deriving DecidableEq

structure WithdrawalRequestPayload where
  sessionId : Uuid
  amount : UInt64
  destinationAddress : Commitment
  destinationOpeningRand : Bytes 32

structure WithdrawalDelivery (V : Type) where
  requestId : Uuid
  coin : Coin V
  coinProof : List UInt8
  txHash : Bytes 32

structure WithdrawalHandler where
  pool : PoolManager

variable {A V M : Type} {B : PcdBackend A V}

/-! ### The operations -/

/-- `id` is the random id of the request. -/
def queueWithdrawal (handler : WithdrawalHandler) (wallet : WalletState A V)
    (userIdHash : Bytes 32) (request : WithdrawalRequestPayload) (id : Uuid) :
    Except WithdrawalError MixerWithdrawalRequest × WalletState A V :=
  let serviceFee := handler.pool.config.withdrawalServiceFee
  match handler.pool.reserveWithdrawal wallet userIdHash request.amount serviceFee with
  | (.error error, wallet) => (.error (.pool error), wallet)
  | (.ok (), wallet) =>
    (.ok
      { id := id
        userIdHash := userIdHash
        amount := request.amount
        destinationAddress := request.destinationAddress
        serviceFee := serviceFee
        status := .queued }, wallet)

def outputCoin (request : MixerWithdrawalRequest) : CoinEssence where
  address := request.destinationAddress
  amount := request.amount
  idx := ⟨[0, 1], rfl⟩

def withdrawalInput (mgr : ToSAccM M V) (handler : WithdrawalHandler) (node : MixerNode B M)
    (poolAccount : PoolAccount A V) (request : MixerWithdrawalRequest)
    (txHashRandomness : Bytes 32) : PaymentInitLocalInput A V where
  acctId := poolAccount.acctId
  acctCommRands := []
  newCoins := [outputCoin request]
  fee := handler.pool.config.publisherFee
  newSpentAccum := poolAccount.state.spentAccum
  snmiProof := []
  newNullifierPk := poolAccount.acctId
  conditionalNav := currentNav mgr node
  txHashRandomness := txHashRandomness
  nullifierTxCommPk := poolAccount.acctId
  nullifierTxComm := ⟨zeroBytes 32⟩
  nullifierAccum := currentNav mgr node
  napProof := []

/-- The transaction the handler hashes: its new state is the old one. -/
def withdrawalTransaction (mgr : ToSAccM M V) (node : MixerNode B M)
    (poolAccount : PoolAccount A V) (request : MixerWithdrawalRequest) : Transaction V where
  conditionalNav := currentNav mgr node
  prevState := poolAccount.state.essence
  prevCoins := []
  newState := poolAccount.state.essence
  newCoins := [outputCoin request]

def withdrawalCoin (P : Primitives A V) (mgr : ToSAccM M V) (node : MixerNode B M)
    (poolAccount : PoolAccount A V) (request : MixerWithdrawalRequest)
    (txHashRandomness : Bytes 32) : Coin V where
  essence := outputCoin request
  txHash := (withdrawalTransaction mgr node poolAccount request).hash P txHashRandomness
  blockchainLoc := zeroBytes 6
  nullifierAccum := currentNav mgr node

def withdrawalCall (P : Primitives A V) (mgr : ToSAccM M V) (handler : WithdrawalHandler)
    (node : MixerNode B M) (poolAccount : PoolAccount A V) (request : MixerWithdrawalRequest)
    (txHashRandomness : Bytes 32) : ProveCall A V where
  z := .coin (withdrawalCoin P mgr node poolAccount request txHashRandomness)
  wLoc := .paymentInit (withdrawalInput mgr handler node poolAccount request txHashRandomness)
  zIn := [.acctState poolAccount.state]
  proofsIn := [poolAccount.stateProof]

/-- The wallet is passed as `&mut` and only read. -/
def processSingleWithdrawal (P : Primitives A V) (mgr : ToSAccM M V)
    (order : IterOrder Uuid (PoolAccount A V)) (handler : WithdrawalHandler)
    (node : MixerNode B M) (wallet : WalletState A V) (request : MixerWithdrawalRequest)
    (txHashRandomness : Bytes 32) : Except WithdrawalError (WithdrawalDelivery V) :=
  match handler.pool.primaryAccount order wallet with
  | .error error => .error (.pool error)
  | .ok poolAccount =>
    let coin := withdrawalCoin P mgr node poolAccount request txHashRandomness
    -- the status of the request is neither read nor written
    match (withdrawalCall P mgr handler node poolAccount request txHashRandomness).run B with
    | .error error => .error (.processingFailed error.text)
    | .ok coinProof => .ok ⟨request.id, coin, coinProof, coin.txHash⟩

/-- `txHashRandomness i` is the randomness drawn for the request at position `i`. -/
def processBatchedWithdrawals (P : Primitives A V) (mgr : ToSAccM M V)
    (order : IterOrder Uuid (PoolAccount A V)) (handler : WithdrawalHandler)
    (node : MixerNode B M) (wallet : WalletState A V) (requests : List MixerWithdrawalRequest)
    (config : MixerConfig) (txHashRandomness : Nat → Bytes 32) :
    Except WithdrawalError (List (WithdrawalDelivery V)) :=
  if !config.allowBatchedWithdrawals then
    .error .batchingDisabled
  else if requests.length > config.maxBatchSize then
    .error (.batchTooLarge requests.length config.maxBatchSize)
  else
    requests.zipIdx.mapM fun (request, i) =>
      processSingleWithdrawal P mgr order handler node wallet request (txHashRandomness i)

/-! ### What they do -/

variable {P : Primitives A V} {mgr : ToSAccM M V} {order : IterOrder Uuid (PoolAccount A V)}
  {handler : WithdrawalHandler} {node : MixerNode B M} {wallet next : WalletState A V}

/-- A queued withdrawal has debited its amount and the fee, capped at the largest word;
    any other call has changed nothing. -/
theorem queueWithdrawal_cases {userIdHash : Bytes 32} {request : WithdrawalRequestPayload}
    {id : Uuid} {result : Except WithdrawalError MixerWithdrawalRequest}
    (h : queueWithdrawal handler wallet userIdHash request id = (result, next)) :
    (result = .ok ⟨id, userIdHash, request.amount, request.destinationAddress,
          handler.pool.config.withdrawalServiceFee, .queued⟩ ∧
        wallet.debitUser userIdHash (saturatingAdd request.amount
          handler.pool.config.withdrawalServiceFee) = (true, next)) ∨
      ((∃ error, result = .error (.pool error)) ∧ next = wallet) := by
  unfold queueWithdrawal at h
  cases hreserve : handler.pool.reserveWithdrawal wallet userIdHash request.amount
    handler.pool.config.withdrawalServiceFee with
  | mk reserved reservedWallet =>
    simp only [hreserve] at h
    rcases reserveWithdrawal_cases hreserve with ⟨rfl, hdebit⟩ | ⟨⟨available, rfl⟩, rfl⟩
    · obtain ⟨rfl, rfl⟩ := Prod.mk.inj h
      exact Or.inl ⟨rfl, hdebit⟩
    · obtain ⟨rfl, rfl⟩ := Prod.mk.inj h
      exact Or.inr ⟨⟨_, rfl⟩, rfl⟩

theorem processSingleWithdrawal_eq_ok_iff {request : MixerWithdrawalRequest}
    {txHashRandomness : Bytes 32} {delivery : WithdrawalDelivery V} :
    processSingleWithdrawal P mgr order handler node wallet request txHashRandomness =
        .ok delivery ↔
      ∃ poolAccount coinProof, wallet.primaryPoolAccount order = some poolAccount ∧
        (withdrawalCall P mgr handler node poolAccount request txHashRandomness).run B =
          .ok coinProof ∧
        delivery = ⟨request.id, withdrawalCoin P mgr node poolAccount request txHashRandomness,
          coinProof,
          (withdrawalTransaction mgr node poolAccount request).hash P txHashRandomness⟩ := by
  unfold processSingleWithdrawal PoolManager.primaryAccount
  cases wallet.primaryPoolAccount order with
  | none => simp
  | some poolAccount =>
    simp only [Option.some.injEq, exists_eq_left', exists_and_left]
    cases (withdrawalCall P mgr handler node poolAccount request txHashRandomness).run B with
    | error error => simp
    | ok coinProof => simp [withdrawalCoin, eq_comm]

end PartyMix
