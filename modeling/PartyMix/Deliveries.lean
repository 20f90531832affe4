import PartyMix.CoinIdentity
import PartyMix.ProofRequests
import PartyMix.SpentHistory
import PartyMix.WalletRun

/-!
# The coins that withdrawals deliver

Coins of one transaction are linkable when their recipients talk to each other, so a
withdrawal has a transaction of its own, and a batch has to be allowed.  The
transaction of a withdrawal differs from every other one in the randomness it is hashed
with, also inside a batch.  The block location of a delivered coin is left at zero, so
all delivered coins have one on-chain id, and the spent accumulator of an account takes
that id once.
-/

namespace PartyMix

open DebugText FixedBytes MachineWord Transition

/-! ### What a call delivers -/

section Calls

variable {A V M : Type} {B : PcdBackend A V} {P : Primitives A V} {mgr : ToSAccM M V}
  {order : IterOrder Uuid (PoolAccount A V)} {handler : WithdrawalHandler}
  {node : MixerNode B M} {wallet next : WalletState A V}

/-- A batch is allowed, small enough, and what the single withdrawals deliver. -/
theorem processBatchedWithdrawals_eq_ok_iff {requests : List MixerWithdrawalRequest}
    {config : MixerConfig} {txHashRandomness : Nat → Bytes 32}
    {deliveries : List (WithdrawalDelivery V)} :
    processBatchedWithdrawals P mgr order handler node wallet requests config txHashRandomness =
        .ok deliveries ↔
      config.allowBatchedWithdrawals = true ∧ requests.length ≤ config.maxBatchSize ∧
        List.Forall₂ (fun position delivery => processSingleWithdrawal P mgr order handler node
          wallet position.1 (txHashRandomness position.2) = .ok delivery)
          requests.zipIdx deliveries := by
  unfold processBatchedWithdrawals
  cases hallowed : config.allowBatchedWithdrawals with
  | false => simp
  | true =>
    by_cases hsize : requests.length ≤ config.maxBatchSize
    · simp [hsize, mapM_eq_ok_iff, Nat.not_lt.mpr hsize]
    · simp [hsize, Nat.lt_of_not_le hsize]

/-- The id of every delivered coin: no location, output index 1. -/
def deliveredId : CoinIdOnChain := zeroBytes 6 ++ beBytes 2 1

/-- The transactions and the randomness that the deliveries of a call are hashed from. -/
inductive Forms (mgr : ToSAccM M V) (wallet : WalletState A V) :
    WalletEvent B M → Transaction V → Bytes 32 → Prop
  | processed {node : MixerNode B M} {order : IterOrder Uuid (PoolAccount A V)}
      {request : MixerWithdrawalRequest} {txHashRandomness : Bytes 32}
      {delivery : WithdrawalDelivery V} {account : PoolAccount A V} :
      wallet.primaryPoolAccount order = some account →
        Forms mgr wallet (.processed node order request txHashRandomness (.ok delivery))
          (withdrawalTransaction mgr node account request) txHashRandomness
  | batched {node : MixerNode B M} {order : IterOrder Uuid (PoolAccount A V)}
      {requests : List MixerWithdrawalRequest} {config : MixerConfig}
      {txHashRandomness : Nat → Bytes 32} {deliveries : List (WithdrawalDelivery V)}
      {account : PoolAccount A V} {request : MixerWithdrawalRequest} {i : Nat} :
      wallet.primaryPoolAccount order = some account → requests[i]? = some request →
        Forms mgr wallet (.batched node order requests config txHashRandomness (.ok deliveries))
          (withdrawalTransaction mgr node account request) (txHashRandomness i)

/-- The randomness that the deliveries of a call are hashed with. -/
def drawnRandomness : WalletEvent B M → List (Bytes 32)
  | .processed _ _ _ txHashRandomness (.ok _) => [txHashRandomness]
  | .batched _ _ requests _ txHashRandomness (.ok _) =>
    (List.range requests.length).map txHashRandomness
  | _ => []

/-- The coin was delivered with the hash of a transaction that the call formed. -/
def DeliveredFrom (P : Primitives A V) (forms : Transaction V → Bytes 32 → Prop)
    (randomness : Bytes 32) (coin : Coin V) : Prop :=
  ∃ tx, forms tx randomness ∧ coin.txHash = tx.hash P randomness ∧ coin.onChainId = deliveredId

theorem deliveredFrom_single {request : MixerWithdrawalRequest} {randomness : Bytes 32}
    {delivery : WithdrawalDelivery V} {forms : Transaction V → Bytes 32 → Prop}
    (h : processSingleWithdrawal P mgr order handler node wallet request randomness = .ok delivery)
    (hforms : ∀ account, wallet.primaryPoolAccount order = some account →
      forms (withdrawalTransaction mgr node account request) randomness) :
    DeliveredFrom P forms randomness delivery.coin := by
  obtain ⟨account, coinProof, hprimary, -, rfl⟩ := processSingleWithdrawal_eq_ok_iff.mp h
  exact ⟨_, hforms account hprimary, rfl, rfl⟩

/-- The coins of a call stand beside the randomness they are hashed with. -/
theorem deliveredFrom_step [DecidableEq V] {mixer : Mixer} {event : WalletEvent B M}
    (h : WalletStep P mgr mixer wallet event next) :
    List.Forall₂ (DeliveredFrom P (Forms mgr wallet event)) (drawnRandomness event)
      (deliveredCoin event) := by
  cases event with
  | processed node order request txHashRandomness result =>
    cases result with
    | error _ => exact .nil
    | ok delivery =>
      refine .cons ?_ .nil
      exact deliveredFrom_single h.1 fun account hprimary => .processed hprimary
  | batched node order requests config txHashRandomness result =>
    -- the coins of a batch draw the randomness of their positions
    cases result with
    | error _ => exact .nil
    | ok deliveries =>
      obtain ⟨-, -, hsingles⟩ := processBatchedWithdrawals_eq_ok_iff.mp h.1
      have hpositions : drawnRandomness (.batched node order requests config txHashRandomness
          (.ok deliveries)) = (requests.zipIdx.map Prod.snd).map txHashRandomness := by
        rw [List.zipIdx_map_snd, ← List.range_eq_range']
        rfl
      have hrequests : ∀ position ∈ requests.zipIdx, requests[position.2]? = some position.1 := by
        intro position hposition
        exact List.mem_zipIdx_iff_getElem?.mp hposition
      rw [hpositions, List.map_map, deliveredCoin, List.forall₂_map_left_iff,
        List.forall₂_map_right_iff]
      apply List.Forall₂.imp ?_ ((List.forall₂_and_left _ _).mpr ⟨hrequests, hsingles⟩)
      rintro ⟨request, i⟩ delivery ⟨hrequest, hsingle⟩
      exact deliveredFrom_single hsingle fun account hprimary => .batched hprimary hrequest
  | created _ _ _ _ _ | credited _ _ | received _ _ _ _ _ | queued _ _ _ _ => exact .nil

end Calls

/-! ### What a run delivers -/

section Run

variable {A V M : Type} [DecidableEq V] {B : PcdBackend A V} {P : Primitives A V}
  {mgr : ToSAccM M V} {mixer : Mixer} {start wallet : WalletState A V}
  {events later : List (WalletEvent B M)}

/-- Some call of the run forms the transaction. -/
def RunForms (P : Primitives A V) (mgr : ToSAccM M V) (mixer : Mixer) (start : WalletState A V)
    (events : List (WalletEvent B M)) (tx : Transaction V) (randomness : Bytes 32) : Prop :=
  ∃ before event between, before ++ [event] <+: events ∧
    Run (WalletStep P mgr mixer) start before between ∧ Forms mgr between event tx randomness

/-- Two transactions of the run that hash to one value were formatted to one text. -/
def NoHashCollision (P : Primitives A V) (forms : Transaction V → Bytes 32 → Prop) : Prop :=
  ∀ tx other randomness otherRandomness, forms tx randomness → forms other otherRandomness →
    tx.hash P randomness = other.hash P otherRandomness →
      tx.preimage P randomness = other.preimage P otherRandomness

theorem RunForms.mono (hextends : events <+: later) {tx : Transaction V} {randomness : Bytes 32}
    (h : RunForms P mgr mixer start events tx randomness) :
    RunForms P mgr mixer start later tx randomness := by
  obtain ⟨before, event, between, hmem, hrun, hforms⟩ := h
  exact ⟨before, event, between, hmem.trans hextends, hrun, hforms⟩

omit [DecidableEq V] in
theorem DeliveredFrom.imp {forms others : Transaction V → Bytes 32 → Prop} {randomness : Bytes 32}
    {coin : Coin V} (h : DeliveredFrom P forms randomness coin)
    (himp : ∀ tx, forms tx randomness → others tx randomness) :
    DeliveredFrom P others randomness coin := by
  obtain ⟨tx, hforms, hrest⟩ := h
  exact ⟨tx, himp tx hforms, hrest⟩

theorem deliveredFrom_run (hrun : Run (WalletStep P mgr mixer) start events wallet) :
    List.Forall₂ (DeliveredFrom P (RunForms P mgr mixer start events))
      (events.flatMap drawnRandomness) (deliveredCoins events) := by
  induction hrun with
  | start => exact .nil
  | @snoc events between next event hinit hlast ih =>
    rw [List.flatMap_append, List.flatMap_singleton, deliveredCoins_snoc]
    apply List.rel_append
    · apply ih.imp
      intro randomness coin hdelivered
      exact hdelivered.imp fun tx hforms => hforms.mono (List.prefix_append _ _)
    · apply (deliveredFrom_step hlast).imp
      intro randomness coin hdelivered
      exact hdelivered.imp fun tx hforms =>
        ⟨events, event, between, List.prefix_refl _, hinit, hforms⟩

/-- A relation that reads the left value off the right one keeps distinctness. -/
theorem nodup_of_forall₂ {α β : Type} {R : α → β → Prop} (hR : ∀ a b y, R a y → R b y → a = b)
    {xs : List α} {ys : List β} (h : List.Forall₂ R xs ys) (hxs : xs.Nodup) : ys.Nodup := by
  obtain ⟨hlength, hget⟩ := List.forall₂_iff_get.mp h
  rw [List.nodup_iff_injective_get] at hxs ⊢
  intro i j hij
  have hi := hget i (i.2.trans_eq hlength.symm) i.2
  have hj := hget j (j.2.trans_eq hlength.symm) j.2
  change R _ (ys.get i) at hi
  rw [hij] at hi
  have hsame := hxs (hR _ _ _ hi hj)
  exact Fin.ext (Fin.mk.inj hsame)

theorem nodup_txHashes (htexts : ReadableTexts P)
    (hrun : Run (WalletStep P mgr mixer) start events wallet)
    (hfree : NoHashCollision P (RunForms P mgr mixer start events))
    (hdrawn : (events.flatMap drawnRandomness).Nodup) :
    ((deliveredCoins events).map Coin.txHash).Nodup := by
  have hhashes : List.Forall₂ (fun randomness hash => ∃ tx,
      RunForms P mgr mixer start events tx randomness ∧ hash = tx.hash P randomness)
      (events.flatMap drawnRandomness) ((deliveredCoins events).map Coin.txHash) := by
    rw [List.forall₂_map_right_iff]
    apply (deliveredFrom_run hrun).imp
    rintro randomness coin ⟨tx, hforms, hhash, -⟩
    exact ⟨tx, hforms, hhash⟩
  apply nodup_of_forall₂ ?_ hhashes hdrawn
  rintro randomness other hash ⟨tx, hforms, rfl⟩ ⟨otherTx, hotherForms, hsame⟩
  exact (preimage_inj htexts.key htexts.nav (hfree _ _ _ _ hforms hotherForms hsame)).1

theorem onChainId_of_delivered (hrun : Run (WalletStep P mgr mixer) start events wallet) :
    ∀ coin ∈ deliveredCoins events, coin.onChainId = deliveredId := by
  intro coin hcoin
  obtain ⟨hlength, hget⟩ := List.forall₂_iff_get.mp (deliveredFrom_run hrun)
  obtain ⟨i, hi, rfl⟩ := List.getElem_of_mem hcoin
  obtain ⟨tx, -, -, hid⟩ := hget i (hlength ▸ hi) hi
  exact hid

end Run

/-! ### What an account can consume -/

section Consumed

variable {V : Type} {P : Primitives (Finset CoinIdOnChain) V} {profile : Profile}

/-- The coins that a step consumes: those it lists, on the applied branch. -/
def consumedCoins {A : Type} (P : Primitives A V) (step : PaymentStep A V) : List (Coin V) :=
  if takesNoopBranch P step.init then [] else step.prevCoins

theorem map_onChainId_consumedCoins {A : Type} (P : Primitives A V)
    (history : List (PaymentStep A V)) :
    (history.flatMap (consumedCoins P)).map Coin.onChainId = historyIds P history := by
  have hstep : ∀ step, (consumedCoins P step).map Coin.onChainId = consumedIds P step := by
    intro step
    unfold consumedCoins consumedIds
    split <;> rfl
  rw [List.map_flatMap, historyIds, funext hstep]

/-- An id is consumed once, and not while it is in the spent set. -/
theorem count_historyIds_le (hsound : NonMembershipSound P)
    {history : List (PaymentStep (Finset CoinIdOnChain) V)}
    {acct : Option (AcctState (Finset CoinIdOnChain) V)}
    (hrun : Run (AccountStep P profile) none history acct) (id : CoinIdOnChain) :
    (historyIds P history).count id ≤ if id ∈ spentIds acct then 1 else 0 := by
  induction hrun with
  | start => exact Nat.zero_le _
  | @snoc history acct next step _ hlast ih =>
    obtain ⟨hnodup, hnew, hnext⟩ := spentIds_step hsound hlast
    have honce := List.nodup_iff_count_le_one.mp hnodup id
    rw [historyIds_snoc, List.count_append, hnext]
    by_cases hconsumed : id ∈ consumedIds P step
    · simp only [hnew id hconsumed, if_false] at ih
      simp only [Finset.mem_union, List.mem_toFinset, hconsumed, or_true, if_true]
      omega
    · rw [List.count_eq_zero.mpr hconsumed]
      simpa [hconsumed] using ih

theorem count_consumed_le (hsound : NonMembershipSound P)
    {history : List (PaymentStep (Finset CoinIdOnChain) V)}
    {acct : Option (AcctState (Finset CoinIdOnChain) V)}
    (hrun : Run (AccountStep P profile) none history acct) (id : CoinIdOnChain) :
    (history.flatMap (consumedCoins P)).countP (fun coin => coin.onChainId = id) ≤ 1 := by
  have hids := count_historyIds_le hsound hrun id
  rw [← map_onChainId_consumedCoins, List.count, List.countP_map] at hids
  have hle : (if id ∈ spentIds acct then 1 else 0) ≤ 1 := by split <;> omega
  simpa [Function.comp_def, beq_eq_decide] using hids.trans hle

end Consumed

/-- **Deliveries.**  In every run of the wallet operations, batches included, that draws
    distinct randomness and hashes without a collision, no two delivered coins name one
    transaction.  But all have one on-chain id, so with a sound spent accumulator an
    account consumes, over its whole history, at most one of all coins delivered. -/
theorem deliveries_share_no_transaction {V M : Type} [DecidableEq V]
    {B : PcdBackend (Finset CoinIdOnChain) V} (P : Primitives (Finset CoinIdOnChain) V)
    (profile : Profile) (mgr : ToSAccM M V) (mixer : Mixer) (htexts : ReadableTexts P)
    (hsound : NonMembershipSound P) (start wallet : WalletState (Finset CoinIdOnChain) V)
    (events : List (WalletEvent B M)) (hrun : Run (WalletStep P mgr mixer) start events wallet)
    (hfree : NoHashCollision P (RunForms P mgr mixer start events))
    (hdrawn : (events.flatMap drawnRandomness).Nodup) :
    ((deliveredCoins events).map Coin.txHash).Nodup ∧
      (∀ coin ∈ deliveredCoins events, coin.onChainId = deliveredId) ∧
      ∀ history acct, Run (AccountStep P profile) none history acct →
        (history.flatMap (consumedCoins P)).countP (fun coin => coin ∈ deliveredCoins events) ≤
          1 := by
  have hids := onChainId_of_delivered hrun
  refine ⟨nodup_txHashes htexts hrun hfree hdrawn, hids, ?_⟩
  intro history acct hhistory
  refine (List.countP_mono_left ?_).trans (count_consumed_le hsound hhistory deliveredId)
  intro coin _ hcoin
  exact decide_eq_true (hids coin (of_decide_eq_true hcoin))

/-! ### A batch of two -/

/-- The ideal spent accumulator, with the texts of the source. -/
def deliveryPrimitives : Primitives (Finset CoinIdOnChain) ToSAccValue where
  hash := rollingHash
  fromDigestSlice _ := none
  debugPublicKey := hexPublicKey
  debugNav value := debugTuple "ToSAccValue" (debugBytes value.bytes)
  accNew := ∅
  verifyNonMembershipAndInsert := idealPrimitives.verifyNonMembershipAndInsert
  verifyUnionMembership _ _ _ := true
  verifyIsPrefix _ _ _ := true
  verifyDistinctElement _ _ _ := false
  aggVerify _ _ := true
  commitRetrieve _ _ := ⟨zeroBytes 32⟩
  commitVerify _ _ _ := true

theorem deliveryPrimitives_readable : ReadableTexts deliveryPrimitives :=
  ⟨hexPublicKey_fixedLength.readable, readable_debugNav rollingHash (fun _ => none) hexPublicKey⟩

theorem deliveryPrimitives_nonMembershipSound : NonMembershipSound deliveryPrimitives :=
  ⟨rfl, idealPrimitives_nonMembershipSound.accepted⟩

def deliveryAccount : PoolAccount (Finset CoinIdOnChain) ToSAccValue :=
  ⟨Uuid.nil, "pool", sampleKey, ⟨⟨sampleKey, 5000, sampleKey⟩, ∅, ⟨zeroBytes 32⟩⟩, [], true⟩

def deliveryWallet : WalletState (Finset CoinIdOnChain) ToSAccValue :=
  { WalletState.new ⟨zeroBytes 32⟩ with
    poolAccounts := Finmap.singleton Uuid.nil deliveryAccount }

def deliveryNode :
    MixerNode (mockPcd : PcdBackend (Finset CoinIdOnChain) ToSAccValue) ToSAccMState :=
  MixerNode.new (.source rollingHash) MixerConfig.default (WalletState.new ⟨zeroBytes 32⟩)

def deliveryMixer : Mixer :=
  ⟨⟨MixerConfig.default⟩, ⟨⟨MixerConfig.default⟩, zeroBytes 32, zeroBytes 32⟩, poolHandler⟩

def batchConfig : MixerConfig :=
  { MixerConfig.default with allowBatchedWithdrawals := true, maxBatchSize := 2 }

noncomputable def batchEvent (deliveries : List (WithdrawalDelivery ToSAccValue)) :
    WalletEvent (mockPcd : PcdBackend (Finset CoinIdOnChain) ToSAccValue) ToSAccMState :=
  .batched deliveryNode IterOrder.unspecified [poolRequest, poolRequest] batchConfig (beBytes 32)
    (.ok deliveries)

/-- The transaction of both requests. -/
def batchTransaction : Transaction ToSAccValue :=
  withdrawalTransaction (.source rollingHash) deliveryNode deliveryAccount poolRequest

theorem primaryPoolAccount_delivery
    (order : IterOrder Uuid (PoolAccount (Finset CoinIdOnChain) ToSAccValue)) :
    deliveryWallet.primaryPoolAccount order = some deliveryAccount := by
  rw [WalletState.primaryPoolAccount, deliveryWallet, IterOrder.values_singleton]
  rfl

theorem batch_run : ∃ deliveries, deliveries.length = 2 ∧
    Run (WalletStep deliveryPrimitives (.source rollingHash) deliveryMixer) deliveryWallet
      [batchEvent deliveries] deliveryWallet := by
  have hsingle (randomness : Bytes 32) : processSingleWithdrawal deliveryPrimitives
      (.source rollingHash) IterOrder.unspecified deliveryMixer.withdrawals deliveryNode
      deliveryWallet poolRequest randomness = .ok _ :=
    processSingleWithdrawal_eq_ok_iff.mpr
      ⟨deliveryAccount, mockPcdPrefix, primaryPoolAccount_delivery _, rfl, rfl⟩
  obtain ⟨deliveries, hlength, hbatch⟩ : ∃ deliveries, deliveries.length = 2 ∧
      processBatchedWithdrawals deliveryPrimitives (.source rollingHash) IterOrder.unspecified
        deliveryMixer.withdrawals deliveryNode deliveryWallet [poolRequest, poolRequest]
        batchConfig (beBytes 32) = .ok deliveries :=
    ⟨_, rfl, processBatchedWithdrawals_eq_ok_iff.mpr ⟨rfl, Nat.le_refl 2,
      .cons (hsingle (beBytes 32 0)) (.cons (hsingle (beBytes 32 1)) .nil)⟩⟩
  have hstep : WalletStep deliveryPrimitives (.source rollingHash) deliveryMixer deliveryWallet
      (batchEvent deliveries) deliveryWallet := ⟨hbatch, rfl⟩
  exact ⟨deliveries, hlength, Run.snoc Run.start hstep⟩

/-- The batch hashes one transaction, with two draws. -/
theorem batch_forms {deliveries : List (WithdrawalDelivery ToSAccValue)}
    {tx : Transaction ToSAccValue} {randomness : Bytes 32}
    (h : RunForms deliveryPrimitives (.source rollingHash) deliveryMixer deliveryWallet
      [batchEvent deliveries] tx randomness) :
    tx = batchTransaction ∧ (randomness = beBytes 32 0 ∨ randomness = beBytes 32 1) := by
  obtain ⟨before, event, between, ⟨rest, hsplit⟩, hrun, hforms⟩ := h
  cases before with
  -- the batch is the whole run, so nothing comes before it
  | cons _ _ => simp at hsplit
  | nil =>
    obtain ⟨rfl, -⟩ := List.cons.inj hsplit
    obtain rfl := hrun.eq_start
    cases hforms with
    | @batched _ _ _ _ _ _ account request i hprimary hrequest =>
      rw [primaryPoolAccount_delivery, Option.some_inj] at hprimary
      subst hprimary
      match i with
      | 0 | 1 =>
        obtain rfl := Option.some_inj.mp hrequest
        simp [batchTransaction]
      | i + 2 => simp at hrequest

theorem batch_noHashCollision (deliveries : List (WithdrawalDelivery ToSAccValue)) :
    NoHashCollision deliveryPrimitives (RunForms deliveryPrimitives (.source rollingHash)
      deliveryMixer deliveryWallet [batchEvent deliveries]) := by
  intro tx other randomness otherRandomness hforms hother
  obtain ⟨rfl, hdraw⟩ := batch_forms hforms
  obtain ⟨rfl, hotherDraw⟩ := batch_forms hother
  rcases hdraw with rfl | rfl <;> rcases hotherDraw with rfl | rfl <;> decide +kernel

/-- The two coins of a batch are of two transactions, with one on-chain id. -/
theorem batch_shares_no_transaction : ∃ deliveries : List (WithdrawalDelivery ToSAccValue),
    deliveries.length = 2 ∧ (deliveries.map fun delivery => delivery.coin.txHash).Nodup ∧
      ∀ delivery ∈ deliveries, delivery.coin.onChainId = deliveredId := by
  obtain ⟨deliveries, hlength, hrun⟩ := batch_run
  have hdrawn : ([batchEvent deliveries].flatMap drawnRandomness).Nodup := by
    change [beBytes 32 0, beBytes 32 1].Nodup
    decide +kernel
  obtain ⟨hapart, hids, -⟩ := deliveries_share_no_transaction deliveryPrimitives .debug
    (.source rollingHash) deliveryMixer deliveryPrimitives_readable
    deliveryPrimitives_nonMembershipSound deliveryWallet deliveryWallet [batchEvent deliveries] hrun
    (batch_noHashCollision deliveries) hdrawn
  have hcoins : deliveredCoins [batchEvent deliveries] =
      deliveries.map WithdrawalDelivery.coin := List.append_nil _
  rw [hcoins, List.map_map] at hapart
  refine ⟨deliveries, hlength, hapart, ?_⟩
  intro delivery hdelivery
  apply hids
  rw [hcoins]
  exact List.mem_map_of_mem hdelivery

end PartyMix
