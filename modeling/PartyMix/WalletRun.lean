import PartyMix.DepositHandler
import PartyMix.Lib.Transition
import PartyMix.PaymentAcceptance
import PartyMix.WithdrawalHandler

/-!
# Runs of the wallet operations

The operations of the deposit handler, the withdrawal handler and the pool manager
on one wallet, in any order.  The node a call is given changes between calls, so it
is part of the event; so are the results, and the requests that were queued and
delivered are read off the events.
-/

namespace PartyMix

open FixedBytes MachineWord Transition

/-! ### Events and steps -/

structure Mixer where
  pool : PoolManager
  deposits : DepositHandler
  withdrawals : WithdrawalHandler

variable {A V M : Type} {B : PcdBackend A V}

inductive WalletEvent (B : PcdBackend A V) (M : Type) where
  | created (acctId : PublicKey) (label : String) (isPrimary : Bool) (id : Uuid)
      (result : PoolAccount A V)
  | credited (userIdHash : Bytes 32) (amount : UInt64)
  | received (node : MixerNode B M) (userIdHash : Bytes 32) (payload : DepositPayload V)
      (depositId : Uuid) (result : Except DepositError DepositReceipt)
  | queued (userIdHash : Bytes 32) (request : WithdrawalRequestPayload) (id : Uuid)
      (result : Except WithdrawalError MixerWithdrawalRequest)
  | processed (node : MixerNode B M) (order : IterOrder Uuid (PoolAccount A V))
      (request : MixerWithdrawalRequest) (txHashRandomness : Bytes 32)
      (result : Except WithdrawalError (WithdrawalDelivery V))
  | batched (node : MixerNode B M) (order : IterOrder Uuid (PoolAccount A V))
      (requests : List MixerWithdrawalRequest) (config : MixerConfig)
      (txHashRandomness : Nat → Bytes 32)
      (result : Except WithdrawalError (List (WithdrawalDelivery V)))

def WalletStep [DecidableEq V] (P : Primitives A V) (mgr : ToSAccM M V) (mixer : Mixer)
    (wallet : WalletState A V) : WalletEvent B M → WalletState A V → Prop
  | .created acctId label isPrimary id result, next =>
    mixer.pool.createPoolAccount P mgr.zero wallet acctId label isPrimary id = (result, next)
  | .credited userIdHash amount, next => next = mixer.pool.creditDeposit wallet userIdHash amount
  | .received node userIdHash payload depositId result, next =>
    receiveDeposit P mixer.deposits node wallet userIdHash payload depositId = (result, next)
  | .queued userIdHash request id result, next =>
    queueWithdrawal mixer.withdrawals wallet userIdHash request id = (result, next)
  | .processed node order request txHashRandomness result, next =>
    processSingleWithdrawal P mgr order mixer.withdrawals node wallet request
      txHashRandomness = result ∧ next = wallet
  | .batched node order requests config txHashRandomness result, next =>
    processBatchedWithdrawals P mgr order mixer.withdrawals node wallet requests config
      txHashRandomness = result ∧ next = wallet

/-! ### Requests queued, handed over and delivered -/

def queuedRequest : WalletEvent B M → List MixerWithdrawalRequest
  | .queued _ _ _ (.ok request) => [request]
  | _ => []

/-- The requests a `process_*` call is given. -/
def handedRequests : WalletEvent B M → List MixerWithdrawalRequest
  | .processed _ _ request _ _ => [request]
  | .batched _ _ requests _ _ _ => requests
  | _ => []

/-- The requests of a `process_*` call that returned `Ok`. -/
def deliveredRequest : WalletEvent B M → List MixerWithdrawalRequest
  | .processed _ _ request _ (.ok _) => [request]
  | .batched _ _ requests _ _ (.ok _) => requests
  | _ => []

def deliveredCoin : WalletEvent B M → List (Coin V)
  | .processed _ _ _ _ (.ok delivery) => [delivery.coin]
  | .batched _ _ _ _ _ (.ok deliveries) => deliveries.map WithdrawalDelivery.coin
  | _ => []

def queuedRequests (events : List (WalletEvent B M)) : List MixerWithdrawalRequest :=
  events.flatMap queuedRequest

def deliveredRequests (events : List (WalletEvent B M)) : List MixerWithdrawalRequest :=
  events.flatMap deliveredRequest

def deliveredCoins (events : List (WalletEvent B M)) : List (Coin V) :=
  events.flatMap deliveredCoin

def requestTotal (requests : List MixerWithdrawalRequest) : Nat :=
  (requests.map fun request => request.amount.toNat).sum

@[simp] theorem queuedRequests_snoc (events : List (WalletEvent B M)) (event : WalletEvent B M) :
    queuedRequests (events ++ [event]) = queuedRequests events ++ queuedRequest event := by
  simp [queuedRequests]

@[simp] theorem deliveredRequests_snoc (events : List (WalletEvent B M))
    (event : WalletEvent B M) :
    deliveredRequests (events ++ [event]) =
      deliveredRequests events ++ deliveredRequest event := by
  simp [deliveredRequests]

@[simp] theorem deliveredCoins_snoc (events : List (WalletEvent B M)) (event : WalletEvent B M) :
    deliveredCoins (events ++ [event]) = deliveredCoins events ++ deliveredCoin event := by
  simp [deliveredCoins]

@[simp] theorem requestTotal_append (requests more : List MixerWithdrawalRequest) :
    requestTotal (requests ++ more) = requestTotal requests + requestTotal more := by
  simp [requestTotal]

theorem deliveredRequest_eq (event : WalletEvent B M) :
    deliveredRequest event = handedRequests event ∨ deliveredRequest event = [] := by
  cases event with
  | processed _ _ _ _ result | batched _ _ _ _ _ result =>
    cases result with
    | ok _ => exact Or.inl rfl
    | error _ => exact Or.inr rfl
  | created _ _ _ _ _ | credited _ _ | received _ _ _ _ _ | queued _ _ _ _ => exact Or.inr rfl

/-! ### What a step changes -/

section Steps

variable {P : Primitives A V} {mgr : ToSAccM M V} {mixer : Mixer} {wallet next : WalletState A V}

theorem processSingleWithdrawal_amount {order : IterOrder Uuid (PoolAccount A V)}
    {handler : WithdrawalHandler} {node : MixerNode B M} {request : MixerWithdrawalRequest}
    {txHashRandomness : Bytes 32} {delivery : WithdrawalDelivery V}
    (h : processSingleWithdrawal P mgr order handler node wallet request txHashRandomness =
      .ok delivery) : delivery.coin.essence.amount = request.amount := by
  obtain ⟨account, coinProof, -, -, rfl⟩ := processSingleWithdrawal_eq_ok_iff.mp h
  rfl

/-- A batch delivers the amounts asked for, in their order. -/
theorem processBatchedWithdrawals_amounts {order : IterOrder Uuid (PoolAccount A V)}
    {handler : WithdrawalHandler} {node : MixerNode B M}
    {requests : List MixerWithdrawalRequest} {config : MixerConfig}
    {txHashRandomness : Nat → Bytes 32} {deliveries : List (WithdrawalDelivery V)}
    (h : processBatchedWithdrawals P mgr order handler node wallet requests config
      txHashRandomness = .ok deliveries) :
    (deliveries.map fun delivery => delivery.coin.essence.amount.toNat) =
      requests.map fun request => request.amount.toNat := by
  unfold processBatchedWithdrawals at h
  split at h
  · cases h
  split at h
  · cases h
  have hamounts := map_of_mapM_eq_ok
    (g := fun delivery : WithdrawalDelivery V => delivery.coin.essence.amount.toNat)
    (k := fun position : MixerWithdrawalRequest × Nat => position.1.amount.toNat)
    (fun position delivery hsingle => by rw [processSingleWithdrawal_amount hsingle]) h
  have hzip : (requests.zipIdx.map fun position => position.1.amount.toNat) =
      (requests.zipIdx.map Prod.fst).map fun request => request.amount.toNat := by
    rw [List.map_map]
    rfl
  rw [hzip, List.zipIdx_map_fst] at hamounts
  exact hamounts

variable [DecidableEq V]

/-- The changes a step can make: none, the accounts, a credit, a credit with its
    coin, or the debit of a queued request. -/
theorem walletStep_cases {event : WalletEvent B M}
    (h : WalletStep P mgr mixer wallet event next) :
    (next.liabilities = wallet.liabilities ∧ next.unspentCoins = wallet.unspentCoins ∧
        queuedRequest event = []) ∨
      (∃ userIdHash amount, event = .credited userIdHash amount ∧
        next = wallet.creditUser userIdHash amount) ∨
      (∃ userIdHash poolCoin, queuedRequest event = [] ∧
        next = (wallet.creditUser userIdHash poolCoin.coin.essence.amount).addUnspentCoin
          poolCoin) ∨
      ∃ userIdHash debit request, queuedRequest event = [request] ∧
        request.amount.toNat ≤ debit.toNat ∧
        wallet.debitUser userIdHash debit = (true, next) := by
  cases event with
  | created acctId label isPrimary id result =>
    obtain ⟨hliabilities, hcoins⟩ := createPoolAccount_frame h
    exact Or.inl ⟨hliabilities, hcoins, rfl⟩
  | credited userIdHash amount => exact Or.inr (Or.inl ⟨userIdHash, amount, rfl, h⟩)
  | received node userIdHash payload depositId result =>
    rcases receiveDeposit_cases h with ⟨-, -, hnext⟩ | ⟨-, -, rfl⟩
    · -- accepted: credited and held
      exact Or.inr (Or.inr (Or.inl ⟨userIdHash, ⟨payload.coin, payload.coinProof, Uuid.nil⟩, rfl,
        hnext⟩))
    · exact Or.inl ⟨rfl, rfl, rfl⟩
  | queued userIdHash request id result =>
    rcases queueWithdrawal_cases h with ⟨rfl, hdebit⟩ | ⟨⟨error, rfl⟩, rfl⟩
    · -- queued: amount and service fee were debited together
      exact Or.inr (Or.inr (Or.inr ⟨userIdHash, _, _, rfl, le_saturatingAdd _ _, hdebit⟩))
    · exact Or.inl ⟨rfl, rfl, rfl⟩
  | processed node order request txHashRandomness result =>
    obtain ⟨-, rfl⟩ := h
    exact Or.inl ⟨rfl, rfl, rfl⟩
  | batched node order requests config txHashRandomness result =>
    obtain ⟨-, rfl⟩ := h
    exact Or.inl ⟨rfl, rfl, rfl⟩

theorem totalWithdrawn_walletStep {event : WalletEvent B M}
    (h : WalletStep P mgr mixer wallet event next) :
    wallet.totalWithdrawn + requestTotal (queuedRequest event) ≤ next.totalWithdrawn := by
  rcases walletStep_cases h with ⟨hliabilities, -, hqueued⟩ | ⟨userIdHash, amount, rfl, rfl⟩ |
    ⟨userIdHash, poolCoin, hqueued, rfl⟩ | ⟨userIdHash, debit, request, hqueued, hle, hdebit⟩
  · rw [hqueued, WalletState.totalWithdrawn, WalletState.totalWithdrawn, hliabilities]
    exact Nat.le_refl _
  · rw [WalletState.totalWithdrawn_creditUser]
    exact Nat.le_refl _
  · have hcredit := wallet.totalWithdrawn_creditUser userIdHash poolCoin.coin.essence.amount
    rw [hqueued, ← hcredit]
    exact Nat.le_refl _
  · obtain ⟨-, hwithdrawn, -⟩ := WalletState.totals_debitUser hdebit
    rw [hqueued, hwithdrawn]
    simpa [requestTotal] using hle

/-- A call that returns `Ok` delivers the amounts of the requests it was given. -/
theorem coinTotal_deliveredCoin {event : WalletEvent B M}
    (h : WalletStep P mgr mixer wallet event next) :
    coinTotal (deliveredCoin event) = requestTotal (deliveredRequest event) := by
  cases event with
  | processed node order request txHashRandomness result =>
    cases result with
    | error _ => rfl
    | ok delivery =>
      have hamount := processSingleWithdrawal_amount h.1
      simp [deliveredCoin, deliveredRequest, coinTotal, requestTotal, hamount]
  | batched node order requests config txHashRandomness result =>
    cases result with
    | error _ => rfl
    | ok deliveries =>
      have hamounts := processBatchedWithdrawals_amounts h.1
      simpa [deliveredCoin, deliveredRequest, coinTotal, essenceTotal, requestTotal,
        Function.comp_def] using congrArg List.sum hamounts
  | created _ _ _ _ _ | credited _ _ | received _ _ _ _ _ | queued _ _ _ _ => rfl

/-! ### What a run changes -/

/-- The reservations of the queued requests are still in the ledger. -/
theorem totalWithdrawn_run {start : WalletState A V} {events : List (WalletEvent B M)}
    (hrun : Run (WalletStep P mgr mixer) start events wallet) :
    start.totalWithdrawn + requestTotal (queuedRequests events) ≤ wallet.totalWithdrawn := by
  induction hrun with
  | start => exact Nat.le_refl _
  | snoc _ hlast ih =>
    have hstep := totalWithdrawn_walletStep hlast
    rw [queuedRequests_snoc, requestTotal_append]
    omega

theorem coinTotal_deliveredCoins {start : WalletState A V} {events : List (WalletEvent B M)}
    (hrun : Run (WalletStep P mgr mixer) start events wallet) :
    coinTotal (deliveredCoins events) = requestTotal (deliveredRequests events) := by
  induction hrun with
  | start => rfl
  | snoc _ hlast ih =>
    rw [deliveredCoins_snoc, deliveredRequests_snoc, requestTotal_append, ← ih,
      ← coinTotal_deliveredCoin hlast]
    simp [coinTotal, essenceTotal]

end Steps

end PartyMix
