import PartyMix.NodeRun
import PartyMix.Pool

/-!
# Deposits

`deposit_handler.rs`.  `receive_deposit` asks the
node whether the payment is acceptable and credits the wallet it is given;
`consolidate_into_pool` takes a held coin out of that wallet.  The node is only
read, and its wallet is not the one that is written.
-/

namespace PartyMix

open FixedBytes MachineWord

inductive DepositError where
  | invalidProof
  | paymentRejected
  | pool (error : PoolError)
deriving DecidableEq

structure DepositPayload (V : Type) where
  sessionId : Uuid
  coin : Coin V
  coinProof : List UInt8
  addressOpeningRand : Bytes 32

structure DepositHandler where
  pool : PoolManager
  mixerAcctId : Bytes 32
  mixerAddressRand : Bytes 32

variable {A V M : Type} {B : PcdBackend A V}

/-- `depositId` is the random id of the receipt. -/
def receiveDeposit [DecidableEq V] (P : Primitives A V) (handler : DepositHandler)
    (node : MixerNode B M) (wallet : WalletState A V) (userIdHash : Bytes 32)
    (payload : DepositPayload V) (depositId : Uuid) :
    Except DepositError DepositReceipt × WalletState A V :=
  match acceptPayment P node payload.coin payload.coinProof handler.mixerAcctId
      handler.mixerAddressRand with
  | .error _ => (.error .paymentRejected, wallet)
  | .ok amount =>
    let wallet := handler.pool.creditDeposit wallet userIdHash amount
    let wallet := wallet.addUnspentCoin ⟨payload.coin, payload.coinProof, Uuid.nil⟩
    (.ok ⟨depositId, amount, .pendingConsolidation⟩, wallet)

def consolidationInput (mgr : ToSAccM M V) (handler : DepositHandler) (node : MixerNode B M)
    (poolAccount : PoolAccount A V) : PaymentInitLocalInput A V where
  acctId := poolAccount.acctId
  acctCommRands := [zeroBytes 32]
  newCoins := []
  fee := handler.pool.config.publisherFee
  newSpentAccum := poolAccount.state.spentAccum
  snmiProof := []
  newNullifierPk := poolAccount.acctId
  conditionalNav := currentNav mgr node
  txHashRandomness := zeroBytes 32
  nullifierTxCommPk := poolAccount.acctId
  nullifierTxComm := ⟨zeroBytes 32⟩
  nullifierAccum := currentNav mgr node
  napProof := []

def consolidateIntoPool (mgr : ToSAccM M V) (order : IterOrder Uuid (PoolAccount A V))
    (handler : DepositHandler) (node : MixerNode B M) (wallet : WalletState A V)
    (depositCoinOnChainId : CoinIdOnChain) : Except DepositError Unit × WalletState A V :=
  match wallet.removeUnspentCoin depositCoinOnChainId with
  | (none, wallet) => (.error .invalidProof, wallet)
  | (some poolCoin, wallet) =>
    match handler.pool.primaryAccount order wallet with
    | .error error => (.error (.pool error), wallet)
    | .ok poolAccount =>
      let wLoc := consolidationInput mgr handler node poolAccount
      -- the outcome of the proof is dropped
      let _proof := B.prove B.keygen.1 (.coin poolCoin.coin) (.paymentInit wLoc) []
        [poolCoin.proof]
      (.ok (), wallet)

/-! ### What the two operations do -/

variable {P : Primitives A V} {mgr : ToSAccM M V} {handler : DepositHandler}
  {node : MixerNode B M} {wallet next : WalletState A V}

/-- The node accepts the payload as a payment to the mixer's address. -/
def Acceptable [DecidableEq V] (P : Primitives A V) (handler : DepositHandler)
    (node : MixerNode B M) (payload : DepositPayload V) : Prop :=
  ∃ amount, acceptPayment P node payload.coin payload.coinProof handler.mixerAcctId
    handler.mixerAddressRand = .ok amount

theorem receiveDeposit_of_accepted [DecidableEq V] (wallet : WalletState A V)
    (userIdHash : Bytes 32) {payload : DepositPayload V} (depositId : Uuid) {amount : UInt64}
    (h : acceptPayment P node payload.coin payload.coinProof handler.mixerAcctId
      handler.mixerAddressRand = .ok amount) :
    receiveDeposit P handler node wallet userIdHash payload depositId =
      (.ok ⟨depositId, amount, .pendingConsolidation⟩,
        (wallet.creditUser userIdHash amount).addUnspentCoin
          ⟨payload.coin, payload.coinProof, Uuid.nil⟩) := by
  unfold receiveDeposit
  rw [h]
  rfl

/-- A deposit of an acceptable payload is credited and its coin is held; any other
    one is refused and changes nothing. -/
theorem receiveDeposit_cases [DecidableEq V] {userIdHash : Bytes 32}
    {payload : DepositPayload V} {depositId : Uuid}
    {result : Except DepositError DepositReceipt}
    (h : receiveDeposit P handler node wallet userIdHash payload depositId = (result, next)) :
    (Acceptable P handler node payload ∧
        result = .ok ⟨depositId, payload.coin.essence.amount, .pendingConsolidation⟩ ∧
        next = (wallet.creditUser userIdHash payload.coin.essence.amount).addUnspentCoin
          ⟨payload.coin, payload.coinProof, Uuid.nil⟩) ∨
      (¬ Acceptable P handler node payload ∧ result = .error .paymentRejected ∧
        next = wallet) := by
  cases haccept : acceptPayment P node payload.coin payload.coinProof handler.mixerAcctId
    handler.mixerAddressRand with
  | error error =>
    unfold receiveDeposit at h
    rw [haccept] at h
    obtain ⟨rfl, rfl⟩ := Prod.mk.inj h
    refine Or.inr ⟨?_, rfl, rfl⟩
    rintro ⟨amount, hamount⟩
    rw [haccept] at hamount
    cases hamount
  | ok amount =>
    rw [receiveDeposit_of_accepted wallet userIdHash depositId haccept] at h
    obtain ⟨rfl, rfl⟩ := Prod.mk.inj h
    obtain ⟨-, -, -, -, hamount⟩ := acceptPayment_eq_ok_iff.mp haccept
    subst hamount
    exact Or.inl ⟨⟨_, haccept⟩, rfl, rfl⟩

/-! ### Consolidation -/

section Consolidation

variable {order : IterOrder Uuid (PoolAccount A V)} {coinId : CoinIdOnChain}

theorem consolidateIntoPool_of_notMem (h : coinId ∉ wallet.alreadyReceivedIds) :
    consolidateIntoPool mgr order handler node wallet coinId =
      (.error .invalidProof, wallet) := by
  rw [consolidateIntoPool, WalletState.removeUnspentCoin_of_notMem h]

/-- A coin that is held is taken out, whether or not there is a primary account. -/
theorem consolidateIntoPool_of_holdsFirst {before after : List (PoolCoin V)}
    {poolCoin : PoolCoin V} (h : wallet.HoldsFirst coinId before poolCoin after) :
    consolidateIntoPool mgr order handler node wallet coinId =
      (match wallet.primaryPoolAccount order with
        | some _ => .ok ()
        | none => .error (.pool .noPrimaryAccount),
      { wallet with unspentCoins := before ++ after }) := by
  have hsame := wallet.primaryPoolAccount_removeUnspentCoin order coinId
  rw [WalletState.removeUnspentCoin_of_holdsFirst h] at hsame
  rw [consolidateIntoPool, WalletState.removeUnspentCoin_of_holdsFirst h]
  simp only [PoolManager.primaryAccount, hsame]
  cases wallet.primaryPoolAccount order <;> rfl

theorem consolidateIntoPool_cases {result : Except DepositError Unit}
    (h : consolidateIntoPool mgr order handler node wallet coinId = (result, next)) :
    next.alreadyReceivedIds = wallet.alreadyReceivedIds.erase coinId ∧
      next.liabilities = wallet.liabilities ∧
      (coinId ∈ wallet.alreadyReceivedIds ↔ result ≠ .error .invalidProof) := by
  have hids := wallet.alreadyReceivedIds_removeUnspentCoin coinId
  by_cases hheld : coinId ∈ wallet.alreadyReceivedIds
  · rcases WalletState.exists_holdsFirst hheld with ⟨before, poolCoin, after, hfirst⟩
    rw [WalletState.removeUnspentCoin_of_holdsFirst hfirst] at hids
    rw [consolidateIntoPool_of_holdsFirst hfirst] at h
    obtain ⟨rfl, rfl⟩ := Prod.mk.inj h
    refine ⟨hids, rfl, ?_⟩
    -- with and without a primary account the coin is gone
    cases wallet.primaryPoolAccount order with
    | none => simp [hheld]
    | some account => simp [hheld]
  · rw [WalletState.removeUnspentCoin_of_notMem hheld] at hids
    rw [consolidateIntoPool_of_notMem hheld] at h
    obtain ⟨rfl, rfl⟩ := Prod.mk.inj h
    exact ⟨hids, rfl, by simp [hheld]⟩

end Consolidation

end PartyMix
