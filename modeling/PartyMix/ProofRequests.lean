import PartyMix.Compliance
import PartyMix.DepositHandler
import PartyMix.WithdrawalHandler

/-!
# What the handlers ask the proof backend for

A withdrawal and a consolidation each ask for the proof of a coin next to the local
input of a payment.  The compliance predicate lets a payment output only its two
pay-init outputs, so neither request is ever compliant; and the coin that a
withdrawal delivers is not among the coins the payment yields.
-/

namespace PartyMix

open FixedBytes MachineWord

variable {A V M : Type} {B : PcdBackend A V} {P : Primitives A V} {profile : Profile}
  {mgr : ToSAccM M V} {order : IterOrder Uuid (PoolAccount A V)} {node : MixerNode B M}
  {wallet : WalletState A V}

/-! ### The requests -/

/-- The requests of a call to `process_single_withdrawal`. -/
def withdrawalCalls (P : Primitives A V) (mgr : ToSAccM M V)
    (order : IterOrder Uuid (PoolAccount A V)) (handler : WithdrawalHandler)
    (node : MixerNode B M) (wallet : WalletState A V) (request : MixerWithdrawalRequest)
    (txHashRandomness : Bytes 32) : List (ProveCall A V) :=
  match handler.pool.primaryAccount order wallet with
  | .error _ => []
  | .ok poolAccount =>
    [withdrawalCall P mgr handler node poolAccount request txHashRandomness]

/-- The request that `consolidate_into_pool` makes and whose outcome it drops. -/
def consolidationCall (mgr : ToSAccM M V) (handler : DepositHandler) (node : MixerNode B M)
    (poolAccount : PoolAccount A V) (poolCoin : PoolCoin V) : ProveCall A V where
  z := .coin poolCoin.coin
  wLoc := .paymentInit (consolidationInput mgr handler node poolAccount)
  zIn := []
  proofsIn := [poolCoin.proof]

/-- The requests of a call to `consolidate_into_pool`. -/
def consolidationCalls (mgr : ToSAccM M V) (order : IterOrder Uuid (PoolAccount A V))
    (handler : DepositHandler) (node : MixerNode B M) (wallet : WalletState A V)
    (depositCoinOnChainId : CoinIdOnChain) : List (ProveCall A V) :=
  match wallet.removeUnspentCoin depositCoinOnChainId with
  | (none, _) => []
  | (some poolCoin, wallet) =>
    match handler.pool.primaryAccount order wallet with
    | .error _ => []
    | .ok poolAccount => [consolidationCall mgr handler node poolAccount poolCoin]

def CompliantCall [DecidableEq A] [DecidableEq V] (P : Primitives A V) (profile : Profile)
    (call : ProveCall A V) : Prop :=
  compliancePredicate P profile call.z call.wLoc call.zIn = .ok true

/-- A backend that proves exactly the compliant statements. -/
def ExactBackend [DecidableEq A] [DecidableEq V] (P : Primitives A V) (profile : Profile)
    (B : PcdBackend A V) : Prop :=
  ∀ call : ProveCall A V, (∃ proof, call.run B = .ok proof) ↔ CompliantCall P profile call

/-! ### When there are requests -/

theorem run_mockPcd (call : ProveCall A V) : ∃ proof, call.run mockPcd = .ok proof := ⟨_, rfl⟩

/-- A withdrawal is delivered exactly when its requests are proved. -/
theorem processSingleWithdrawal_delivers_iff {handler : WithdrawalHandler}
    {request : MixerWithdrawalRequest} {txHashRandomness : Bytes 32} :
    (∃ delivery, processSingleWithdrawal P mgr order handler node wallet request
        txHashRandomness = .ok delivery) ↔
      wallet.primaryPoolAccount order ≠ none ∧
        ∀ call ∈ withdrawalCalls P mgr order handler node wallet request txHashRandomness,
          ∃ proof, call.run B = .ok proof := by
  simp only [processSingleWithdrawal_eq_ok_iff]
  unfold withdrawalCalls PoolManager.primaryAccount
  cases wallet.primaryPoolAccount order <;> simp

/-! ### No request is compliant -/

section Compliant

variable [DecidableEq A] [DecidableEq V]

/-- A payment does not output a coin. -/
theorem not_compliant_coin_of_payment {call : ProveCall A V} {coin : Coin V}
    {wLoc : PaymentInitLocalInput A V} (hz : call.z = .coin coin)
    (hwLoc : call.wLoc = .paymentInit wLoc) : ¬ CompliantCall P profile call := by
  intro haccepts
  have hedge := protocolEdge_of_accepts haccepts
  rw [hz, hwLoc] at hedge
  generalize call.zIn = zIn at hedge
  cases hedge with
  | payment _ hout | opening _ _ hout => rcases hout with habs | habs <;> cases habs

/-- Requests for coins, one for the primary account if there is one, are compliant
    exactly when there is none. -/
theorem compliant_requests_iff {primary : Option (PoolAccount A V)}
    {request : PoolAccount A V → ProveCall A V}
    (hrefused : ∀ account, ¬ CompliantCall P profile (request account)) :
    (∀ call ∈ (primary.map request).toList, CompliantCall P profile call) ↔ primary = none := by
  cases primary with
  | none => simp
  | some account => simp [hrefused]

theorem compliant_withdrawalCalls_iff {handler : WithdrawalHandler}
    {request : MixerWithdrawalRequest} {txHashRandomness : Bytes 32} :
    (∀ call ∈ withdrawalCalls P mgr order handler node wallet request txHashRandomness,
        CompliantCall P profile call) ↔ wallet.primaryPoolAccount order = none := by
  have hcalls : withdrawalCalls P mgr order handler node wallet request txHashRandomness =
      ((wallet.primaryPoolAccount order).map fun account =>
        withdrawalCall P mgr handler node account request txHashRandomness).toList := by
    unfold withdrawalCalls PoolManager.primaryAccount
    cases wallet.primaryPoolAccount order <;> rfl
  rw [hcalls]
  apply compliant_requests_iff
  intro account
  exact not_compliant_coin_of_payment rfl rfl

theorem compliant_consolidationCalls_iff {handler : DepositHandler} {coinId : CoinIdOnChain} :
    (∀ call ∈ consolidationCalls mgr order handler node wallet coinId,
        CompliantCall P profile call) ↔
      coinId ∉ wallet.alreadyReceivedIds ∨ wallet.primaryPoolAccount order = none := by
  by_cases hheld : coinId ∈ wallet.alreadyReceivedIds
  · rcases WalletState.exists_holdsFirst hheld with ⟨before, poolCoin, after, hfirst⟩
    have hsame := wallet.primaryPoolAccount_removeUnspentCoin order coinId
    rw [WalletState.removeUnspentCoin_of_holdsFirst hfirst] at hsame
    have hcalls : consolidationCalls mgr order handler node wallet coinId =
        ((wallet.primaryPoolAccount order).map fun account =>
          consolidationCall mgr handler node account poolCoin).toList := by
      unfold consolidationCalls PoolManager.primaryAccount
      rw [WalletState.removeUnspentCoin_of_holdsFirst hfirst]
      simp only [hsame]
      cases wallet.primaryPoolAccount order <;> rfl
    rw [hcalls, compliant_requests_iff]
    · simp [hheld]
    · intro account
      exact not_compliant_coin_of_payment rfl rfl
  · unfold consolidationCalls
    rw [WalletState.removeUnspentCoin_of_notMem hheld]
    simp [hheld]

/-- **Requests.**  Every request of the two flows is for a statement that is not
    compliant, so their requests are compliant exactly where they make none.  A
    backend that proves exactly the compliant statements turns every delivery of the
    accept-everything backend into an error; a consolidation drops the outcome. -/
theorem requests_compliant_iff (P : Primitives A V) (profile : Profile) (mgr : ToSAccM M V)
    (B : PcdBackend A V) (hexact : ExactBackend P profile B)
    (order : IterOrder Uuid (PoolAccount A V)) (wallet : WalletState A V) :
    (∀ (C : PcdBackend A V) (node : MixerNode C M) (handler : WithdrawalHandler)
        (request : MixerWithdrawalRequest) (txHashRandomness : Bytes 32),
      (∀ call ∈ withdrawalCalls P mgr order handler node wallet request txHashRandomness,
        CompliantCall P profile call) ↔ wallet.primaryPoolAccount order = none) ∧
    (∀ (C : PcdBackend A V) (node : MixerNode C M) (handler : DepositHandler)
        (coinId : CoinIdOnChain),
      (∀ call ∈ consolidationCalls mgr order handler node wallet coinId,
        CompliantCall P profile call) ↔
        coinId ∉ wallet.alreadyReceivedIds ∨ wallet.primaryPoolAccount order = none) ∧
    (∀ (mockNode : MixerNode mockPcd M) (node : MixerNode B M) (handler : WithdrawalHandler)
        (request : MixerWithdrawalRequest) (txHashRandomness : Bytes 32),
      ((∃ delivery, processSingleWithdrawal P mgr order handler mockNode wallet request
          txHashRandomness = .ok delivery) →
        ∃ delivery, processSingleWithdrawal P mgr order handler node wallet request
          txHashRandomness = .ok delivery) ↔ wallet.primaryPoolAccount order = none) ∧
    ∀ (mockNode : MixerNode mockPcd M) (node : MixerNode B M) (handler : DepositHandler)
        (coinId : CoinIdOnChain),
      consolidateIntoPool mgr order handler node wallet coinId =
        consolidateIntoPool mgr order handler mockNode wallet coinId := by
  refine ⟨?_, ?_, ?_, ?_⟩
  · intro C node handler request txHashRandomness
    exact compliant_withdrawalCalls_iff
  · intro C node handler coinId
    exact compliant_consolidationCalls_iff
  · intro mockNode node handler request txHashRandomness
    rw [processSingleWithdrawal_delivers_iff, processSingleWithdrawal_delivers_iff]
    constructor
    · intro hreplace
      by_contra hprimary
      obtain ⟨-, hproved⟩ := hreplace ⟨hprimary, fun call _ => run_mockPcd call⟩
      have hcompliant : ∀ call ∈ withdrawalCalls P mgr order handler node wallet request
          txHashRandomness, CompliantCall P profile call := by
        intro call hcall
        exact (hexact call).mp (hproved call hcall)
      exact hprimary (compliant_withdrawalCalls_iff.mp hcompliant)
    · rintro hnone ⟨hprimary, -⟩
      exact absurd hnone hprimary
  · -- the outcome of the request is dropped
    intro mockNode node handler coinId
    rfl

/-! ### A concrete pool -/

def exactPcd (P : Primitives A V) (profile : Profile) : PcdBackend A V where
  ProvKey := Unit
  VerKey := Unit
  keygen := ((), ())
  prove _ z wLoc zIn _ :=
    match compliancePredicate P profile z wLoc zIn with
    | .ok true => .ok mockPcdPrefix
    | _ => .error (.proveFailed "not compliant")
  verify _ _ proof := .ok (mockPcdPrefix.isPrefixOf proof)

theorem exactPcd_exact (P : Primitives A V) (profile : Profile) :
    ExactBackend P profile (exactPcd P profile) := by
  intro call
  simp only [ProveCall.run, exactPcd, CompliantCall]
  split
  · next hcompliant => simp [hcompliant]
  · next hcompliant => simpa using hcompliant

end Compliant

def poolAccount : PoolAccount AccValue ToSAccValue :=
  ⟨Uuid.nil, "pool", sampleKey, sampleState 5000, [], true⟩

def poolWallet : WalletState AccValue ToSAccValue :=
  { WalletState.new ⟨zeroBytes 32⟩ with poolAccounts := Finmap.singleton Uuid.nil poolAccount }

def poolHandler : WithdrawalHandler := ⟨⟨MixerConfig.default⟩⟩

def poolRequest : MixerWithdrawalRequest :=
  ⟨Uuid.nil, beBytes 32 1, 2000, ⟨zeroBytes 32⟩, 1000, .queued⟩

def poolNode (B : PcdBackend AccValue ToSAccValue) : MixerNode B ToSAccMState :=
  MixerNode.new (.source rollingHash) MixerConfig.default (WalletState.new ⟨zeroBytes 32⟩)

theorem primaryPoolAccount_pool {wallet : WalletState AccValue ToSAccValue}
    (order : IterOrder Uuid (PoolAccount AccValue ToSAccValue))
    (hpool : wallet.poolAccounts = poolWallet.poolAccounts) :
    wallet.primaryPoolAccount order = some poolAccount := by
  rw [WalletState.primaryPoolAccount, hpool, poolWallet, IterOrder.values_singleton]
  rfl

/-- The predicate rejects the request of a withdrawal from a funded account. -/
theorem poolRequest_not_compliant :
    compliancePredicate permissivePrimitives .debug
        (withdrawalCall permissivePrimitives (.source rollingHash) poolHandler (poolNode mockPcd)
          poolAccount poolRequest (zeroBytes 32)).z
        (withdrawalCall permissivePrimitives (.source rollingHash) poolHandler (poolNode mockPcd)
          poolAccount poolRequest (zeroBytes 32)).wLoc
        (withdrawalCall permissivePrimitives (.source rollingHash) poolHandler (poolNode mockPcd)
          poolAccount poolRequest (zeroBytes 32)).zIn = .ok false := rfl

theorem exactPcd_refuses_poolRequest :
    (∃ delivery, processSingleWithdrawal permissivePrimitives (.source rollingHash)
        IterOrder.unspecified poolHandler (poolNode mockPcd) poolWallet poolRequest
        (zeroBytes 32) = .ok delivery) ∧
      ¬ ∃ delivery, processSingleWithdrawal permissivePrimitives (.source rollingHash)
        IterOrder.unspecified poolHandler (poolNode (exactPcd permissivePrimitives .debug))
        poolWallet poolRequest (zeroBytes 32) = .ok delivery := by
  obtain ⟨-, -, hreplace, -⟩ := requests_compliant_iff permissivePrimitives .debug
    (.source rollingHash) (exactPcd permissivePrimitives .debug)
    (exactPcd_exact permissivePrimitives .debug) IterOrder.unspecified poolWallet
  have hfunded := primaryPoolAccount_pool IterOrder.unspecified (rfl : poolWallet.poolAccounts = _)
  constructor
  · rw [processSingleWithdrawal_delivers_iff]
    constructor
    · rw [hfunded]
      exact Option.some_ne_none _
    · intro call _
      exact run_mockPcd call
  · intro hdelivered
    have hnone := (hreplace (poolNode mockPcd) (poolNode _) poolHandler poolRequest
      (zeroBytes 32)).mp fun _ => hdelivered
    rw [hfunded] at hnone
    cases hnone

/-! ### The delivered coin -/

/-- The payment the handler has built the input for yields the delivered coin. -/
def YieldsDelivery (P : Primitives A V) (profile : Profile) (mgr : ToSAccM M V)
    (handler : WithdrawalHandler) (node : MixerNode B M) (poolAccount : PoolAccount A V)
    (request : MixerWithdrawalRequest) (txHashRandomness : Bytes 32)
    (delivery : WithdrawalDelivery V) : Prop :=
  ∃ outputs, paymentInit P profile poolAccount.state []
      (withdrawalInput mgr handler node poolAccount request txHashRandomness) =
        .ok (some outputs) ∧
    delivery.coin.essence ∈ outputs.1.coinEssences ∧
    delivery.txHash = outputs.1.partialOutput.txHash ∧
    delivery.coin.txHash = outputs.1.partialOutput.txHash

/-- The payment drops the first of its new coins, and the handler gives it one. -/
theorem coinEssences_withdrawalInput {handler : WithdrawalHandler} {account : PoolAccount A V}
    {request : MixerWithdrawalRequest} {txHashRandomness : Bytes 32}
    {outputs : PaymentInitOutput A V × PaymentInitOutputFee V}
    (hinit : paymentInit P profile account.state []
      (withdrawalInput mgr handler node account request txHashRandomness) = .ok (some outputs)) :
    outputs.1.coinEssences = [] := by
  obtain ⟨newBalance, -, hout⟩ := paymentInit_eq_some_iff.mp hinit
  obtain ⟨-, ⟨-, rfl⟩ | ⟨-, -, first, rest, hcoins, rfl⟩⟩ := paymentInitOutputs_eq_some_iff.mp hout
  · rfl
  · have hrest : [outputCoin request] = first :: rest := hcoins
    exact (List.cons.inj hrest).2.symm

/-- **Delivery.**  Whatever the verifiers say, the coin that a withdrawal delivers is
    not one that the payment built for it yields. -/
theorem delivery_not_yielded (P : Primitives A V) (profile : Profile) (mgr : ToSAccM M V)
    (order : IterOrder Uuid (PoolAccount A V)) (handler : WithdrawalHandler)
    (node : MixerNode B M) (wallet : WalletState A V) (request : MixerWithdrawalRequest)
    (txHashRandomness : Bytes 32) (delivery : WithdrawalDelivery V)
    (hdelivered : processSingleWithdrawal P mgr order handler node wallet request
      txHashRandomness = .ok delivery) :
    ∃ account, wallet.primaryPoolAccount order = some account ∧
      ¬ YieldsDelivery P profile mgr handler node account request txHashRandomness delivery := by
  obtain ⟨account, -, hprimary, -⟩ := processSingleWithdrawal_eq_ok_iff.mp hdelivered
  refine ⟨account, hprimary, ?_⟩
  rintro ⟨outputs, hinit, hmem, -⟩
  rw [coinEssences_withdrawalInput hinit] at hmem
  cases hmem

theorem poolRequest_delivered {wallet : WalletState AccValue ToSAccValue}
    (hpool : wallet.poolAccounts = poolWallet.poolAccounts) : ∃ delivery,
    processSingleWithdrawal permissivePrimitives (.source rollingHash) IterOrder.unspecified
      poolHandler (poolNode mockPcd) wallet poolRequest (zeroBytes 32) = .ok delivery :=
  ⟨_, processSingleWithdrawal_eq_ok_iff.mpr
    ⟨poolAccount, mockPcdPrefix, primaryPoolAccount_pool _ hpool, rfl, rfl⟩⟩

/-- The coin of an accepted withdrawal is delivered although the payment yields none,
    with the hash of a transaction that is not the payment's. -/
theorem poolRequest_delivers_other_coin : ∃ delivery outputs,
    processSingleWithdrawal permissivePrimitives (.source rollingHash) IterOrder.unspecified
        poolHandler (poolNode mockPcd) poolWallet poolRequest (zeroBytes 32) = .ok delivery ∧
      paymentInit permissivePrimitives .debug poolAccount.state []
        (withdrawalInput (.source rollingHash) poolHandler (poolNode mockPcd) poolAccount
          poolRequest (zeroBytes 32)) = .ok (some outputs) ∧
      delivery.coin.essence ∉ outputs.1.coinEssences ∧
      delivery.txHash ≠ outputs.1.partialOutput.txHash := by
  refine ⟨_, _, processSingleWithdrawal_eq_ok_iff.mpr
    ⟨poolAccount, mockPcdPrefix, primaryPoolAccount_pool _ rfl, rfl, rfl⟩, rfl,
    List.not_mem_nil, ?_⟩
  decide +kernel

theorem poolDelivery_not_yielded : ∃ delivery, ¬ YieldsDelivery permissivePrimitives .debug
    (.source rollingHash) poolHandler (poolNode mockPcd) poolAccount poolRequest (zeroBytes 32)
    delivery := by
  obtain ⟨delivery, hdelivered⟩ := poolRequest_delivered (rfl : poolWallet.poolAccounts = _)
  obtain ⟨account, hprimary, hlost⟩ := delivery_not_yielded permissivePrimitives .debug
    (.source rollingHash) IterOrder.unspecified poolHandler (poolNode mockPcd) poolWallet
    poolRequest (zeroBytes 32) delivery hdelivered
  rw [primaryPoolAccount_pool _ rfl] at hprimary
  obtain rfl := Option.some.inj hprimary
  exact ⟨delivery, hlost⟩

end PartyMix
