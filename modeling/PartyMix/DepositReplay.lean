import PartyMix.DepositHandler
import PartyMix.ReorgHistory

/-!
# When a deposit coin is credited at most once

The duplicate check of `accept_payment` reads the node's own wallet, the credit goes
to the wallet the handler is given.  The wallet it is given knows every credited
coin as held or as consolidated, but nobody asks it: coins are credited at most once
exactly in the runs that never present such a coin again.
-/

namespace PartyMix

open FixedBytes MachineWord Transition

/-! ### Runs of the deposit handler -/

inductive DepositEvent (A V : Type) where
  | received (userIdHash : Bytes 32) (payload : DepositPayload V) (depositId : Uuid)
      (result : Except DepositError DepositReceipt)
  | consolidated (order : IterOrder Uuid (PoolAccount A V)) (coinId : CoinIdOnChain)
      (result : Except DepositError Unit)

variable {A V M : Type} [DecidableEq V] {B : PcdBackend A V} {P : Primitives A V}
  {mgr : ToSAccM M V} {handler : DepositHandler} {node : MixerNode B M}
  {wallet next : WalletState A V}

def DepositStep (P : Primitives A V) (mgr : ToSAccM M V) (handler : DepositHandler)
    (node : MixerNode B M) (wallet : WalletState A V) :
    DepositEvent A V → WalletState A V → Prop
  | .received userIdHash payload depositId result, next =>
    receiveDeposit P handler node wallet userIdHash payload depositId = (result, next)
  | .consolidated order coinId result, next =>
    consolidateIntoPool mgr order handler node wallet coinId = (result, next)

/-- The coin an event credits: that of a `receive_deposit` that returned `Ok`. -/
def creditedId : DepositEvent A V → Option CoinIdOnChain
  | .received _ payload _ (.ok _) => some payload.coin.onChainId
  | _ => none

def consolidatedId : DepositEvent A V → Option CoinIdOnChain
  | .consolidated _ coinId result =>
    if result = .error .invalidProof then none else some coinId
  | _ => none

def creditedIds (events : List (DepositEvent A V)) : List CoinIdOnChain :=
  events.filterMap creditedId

def consolidatedIds (events : List (DepositEvent A V)) : List CoinIdOnChain :=
  events.filterMap consolidatedId

/-- A deposit the node accepts presents a coin that the wallet neither holds nor has
    consolidated before. -/
def PresentsNewCoin (P : Primitives A V) (handler : DepositHandler) (node : MixerNode B M)
    (events : List (DepositEvent A V)) (wallet : WalletState A V) : DepositEvent A V → Prop
  | .received _ payload _ _ => Acceptable P handler node payload →
    payload.coin.onChainId ∉ wallet.alreadyReceivedIds ∧
      payload.coin.onChainId ∉ consolidatedIds events
  | .consolidated _ _ _ => True

omit [DecidableEq V] in
theorem creditedIds_snoc (events : List (DepositEvent A V)) (event : DepositEvent A V) :
    creditedIds (events ++ [event]) = creditedIds events ++ (creditedId event).toList := by
  simp only [creditedIds, List.filterMap_append]
  cases hid : creditedId event <;> simp [hid]

omit [DecidableEq V] in
theorem consolidatedIds_snoc (events : List (DepositEvent A V)) (event : DepositEvent A V) :
    consolidatedIds (events ++ [event]) =
      consolidatedIds events ++ (consolidatedId event).toList := by
  simp only [consolidatedIds, List.filterMap_append]
  cases hid : consolidatedId event <;> simp [hid]

/-! ### The ledger of coins -/

def Accounted (events : List (DepositEvent A V)) (wallet : WalletState A V) : Prop :=
  ∀ id, id ∈ creditedIds events ↔ id ∈ wallet.alreadyReceivedIds ∨ id ∈ consolidatedIds events

theorem accounted_received {events : List (DepositEvent A V)} {userIdHash : Bytes 32}
    {payload : DepositPayload V} {depositId : Uuid}
    {result : Except DepositError DepositReceipt} (haccounted : Accounted events wallet)
    (hstep : DepositStep P mgr handler node wallet
      (.received userIdHash payload depositId result) next) :
    Accounted (events ++ [.received userIdHash payload depositId result]) next := by
  intro id
  rw [creditedIds_snoc, consolidatedIds_snoc, List.mem_append, List.mem_append, haccounted id]
  rcases receiveDeposit_cases hstep with ⟨-, rfl, rfl⟩ | ⟨-, rfl, rfl⟩
  · rw [WalletState.alreadyReceivedIds_addUnspentCoin,
      WalletState.alreadyReceivedIds_creditUser]
    simp only [creditedId, consolidatedId, Option.toList, List.mem_append, List.not_mem_nil,
      or_false]
    exact or_right_comm
  · simp [creditedId, consolidatedId]

/-- What leaves the coins held is counted as consolidated. -/
theorem accounted_consolidated {events : List (DepositEvent A V)}
    {order : IterOrder Uuid (PoolAccount A V)} {coinId : CoinIdOnChain}
    {result : Except DepositError Unit} (haccounted : Accounted events wallet)
    (hstep : DepositStep P mgr handler node wallet (.consolidated order coinId result) next) :
    Accounted (events ++ [.consolidated order coinId result]) next := by
  obtain ⟨hids, -, hfound⟩ := consolidateIntoPool_cases hstep
  intro id
  rw [creditedIds_snoc, consolidatedIds_snoc, List.mem_append, List.mem_append, haccounted id,
    hids]
  -- a consolidation takes the first coin with the id, if one is held
  by_cases hheld : coinId ∈ wallet.alreadyReceivedIds
  · have hid : consolidatedId (.consolidated order coinId result) = some coinId :=
      if_neg (hfound.mp hheld)
    rw [hid]
    simp only [creditedId, Option.toList, List.mem_singleton, List.not_mem_nil, or_false]
    constructor
    · rintro (hold | hold)
      · by_cases hsame : id = coinId
        · -- a credited id moves from the held ones to the consolidated ones
          exact Or.inr (Or.inr hsame)
        · exact Or.inl ((List.mem_erase_of_ne hsame).mpr hold)
      · exact Or.inr (Or.inl hold)
    · rintro (hold | hold | rfl)
      · exact Or.inl (List.mem_of_mem_erase hold)
      · exact Or.inr hold
      · exact Or.inl hheld
  · -- nothing is held under the id, and nothing moves
    have hid : consolidatedId (.consolidated order coinId result) = none :=
      if_pos (not_not.mp fun habs => hheld (hfound.mpr habs))
    rw [hid, List.erase_of_not_mem hheld]
    simp [creditedId]

theorem accounted_step {events : List (DepositEvent A V)} {event : DepositEvent A V}
    (haccounted : Accounted events wallet)
    (hstep : DepositStep P mgr handler node wallet event next) :
    Accounted (events ++ [event]) next := by
  cases event with
  | received userIdHash payload depositId result => exact accounted_received haccounted hstep
  | consolidated order coinId result => exact accounted_consolidated haccounted hstep

theorem accounted_run {zero : V} {events : List (DepositEvent A V)}
    (hrun : Run (DepositStep P mgr handler node) (WalletState.new zero) events wallet) :
    Accounted events wallet := by
  induction hrun with
  | start =>
    intro id
    simp [creditedIds, consolidatedIds, WalletState.alreadyReceivedIds, WalletState.new]
  | snoc _ hlast ih => exact accounted_step ih hlast

/-- A step adds a coin to the credited ones without repetition exactly when it
    presents a new coin. -/
theorem nodup_creditedIds_snoc_iff {events : List (DepositEvent A V)}
    {event : DepositEvent A V} (haccounted : Accounted events wallet)
    (hnodup : (creditedIds events).Nodup)
    (hstep : DepositStep P mgr handler node wallet event next) :
    (creditedIds (events ++ [event])).Nodup ↔
      PresentsNewCoin P handler node events wallet event := by
  rw [creditedIds_snoc]
  cases event with
  | received userIdHash payload depositId result =>
    rcases receiveDeposit_cases hstep with ⟨haccept, rfl, -⟩ | ⟨hreject, rfl, rfl⟩
    · have hnew : payload.coin.onChainId ∉ creditedIds events ↔
          payload.coin.onChainId ∉ wallet.alreadyReceivedIds ∧
            payload.coin.onChainId ∉ consolidatedIds events := by
        rw [haccounted, not_or]
      simp only [creditedId, Option.toList, PresentsNewCoin, haccept, true_implies, ← hnew]
      rw [List.nodup_append_comm, List.singleton_append, List.nodup_cons]
      exact and_iff_left hnodup
    · simp [creditedId, PresentsNewCoin, hreject, hnodup]
  | consolidated order coinId result => simp [creditedId, PresentsNewCoin, hnodup]

theorem liabilities_of_not_credited {event : DepositEvent A V}
    (hstep : DepositStep P mgr handler node wallet event next) (hnone : creditedId event = none) :
    next.liabilities = wallet.liabilities := by
  cases event with
  | received userIdHash payload depositId result =>
    rcases receiveDeposit_cases hstep with ⟨-, rfl, -⟩ | ⟨-, -, rfl⟩
    · cases hnone
    · rfl
  | consolidated order coinId result => exact (consolidateIntoPool_cases hstep).2.1

/-- **At most one credit.**  In a run from an empty wallet every coin is credited at
    most once exactly when each deposit the node accepts presents a coin that the
    wallet neither holds nor has consolidated; and only a credited deposit changes
    the liabilities. -/
theorem creditedIds_nodup_iff (P : Primitives A V) (mgr : ToSAccM M V)
    (handler : DepositHandler) (node : MixerNode B M) (zero : V)
    (events : List (DepositEvent A V)) (wallet : WalletState A V)
    (hrun : Run (DepositStep P mgr handler node) (WalletState.new zero) events wallet) :
    ((creditedIds events).Nodup ↔
      Meets (DepositStep P mgr handler node) (PresentsNewCoin P handler node)
        (WalletState.new zero) events wallet) ∧
    ∀ event next, DepositStep P mgr handler node wallet event next → creditedId event = none →
      next.liabilities = wallet.liabilities := by
  refine ⟨?_, fun event next hstep hnone => liabilities_of_not_credited hstep hnone⟩
  constructor
  · -- a shorter run credits fewer ids, so each step of the run met the condition
    intro hnodup
    induction hrun with
    | start => exact Meets.start
    | @snoc events wallet next event hinit hlast ih =>
      have hbefore : (creditedIds events).Nodup := by
        rw [creditedIds_snoc] at hnodup
        exact hnodup.of_append_left
      have hnew := (nodup_creditedIds_snoc_iff (accounted_run hinit) hbefore hlast).mp hnodup
      exact Meets.snoc (ih hbefore) hnew hlast
  · intro hmeets
    clear hrun
    induction hmeets with
    | start => exact List.nodup_nil
    | snoc hinit hgood hlast ih =>
      exact (nodup_creditedIds_snoc_iff (accounted_run hinit.run) ih hlast).mpr hgood

def sampleHandler : DepositHandler where
  pool := ⟨MixerConfig.default⟩
  mixerAcctId := zeroBytes 32
  mixerAddressRand := zeroBytes 32

def samplePayload : DepositPayload Nav where
  sessionId := Uuid.nil
  coin := chainCoin []
  coinProof := mockPcdPrefix
  addressOpeningRand := zeroBytes 32

def sampleReceived (userIdHash : Bytes 32) : DepositEvent (Finset CoinIdOnChain) Nav :=
  .received userIdHash samplePayload Uuid.nil (.ok ⟨Uuid.nil, 7, .pendingConsolidation⟩)

theorem sampleReceived_step (wallet : WalletState (Finset CoinIdOnChain) Nav)
    (userIdHash : Bytes 32) :
    DepositStep idealPrimitives .ideal sampleHandler sampleNode wallet
      (sampleReceived userIdHash)
      ((wallet.creditUser userIdHash 7).addUnspentCoin
        ⟨chainCoin [], mockPcdPrefix, Uuid.nil⟩) := by
  have haccept : acceptPayment idealPrimitives sampleNode (chainCoin []) mockPcdPrefix
      (zeroBytes 32) (zeroBytes 32) = .ok 7 :=
    acceptPayment_eq_ok_iff.mpr ⟨rfl, by decide, by decide, by decide, rfl⟩
  exact receiveDeposit_of_accepted wallet userIdHash Uuid.nil haccept

/-- The same payload, sent by two users, credits one coin twice. -/
theorem replayed_deposit_credited_twice :
    ∃ wallet,
      Run (DepositStep idealPrimitives .ideal sampleHandler sampleNode) (WalletState.new [])
        [sampleReceived (beBytes 32 1), sampleReceived (beBytes 32 2)] wallet ∧
      ¬ (creditedIds [sampleReceived (beBytes 32 1), sampleReceived (beBytes 32 2)]).Nodup ∧
      (wallet.liabilityEntry (beBytes 32 1)).available = 7 ∧
      (wallet.liabilityEntry (beBytes 32 2)).available = 7 := by
  refine ⟨_, Run.snoc (Run.snoc Run.start (sampleReceived_step _ _)) (sampleReceived_step _ _),
    ?_, rfl, rfl⟩
  simp [creditedIds, creditedId, sampleReceived]

theorem sampleDeposit_credited_once :
    ∃ events wallet,
      Run (DepositStep idealPrimitives .ideal sampleHandler sampleNode) (WalletState.new []) events
        wallet ∧
      (creditedIds events).Nodup ∧ creditedIds events = [(chainCoin []).onChainId] := by
  obtain ⟨wallet, hreceived⟩ : ∃ wallet, DepositStep idealPrimitives .ideal sampleHandler
      sampleNode (WalletState.new []) (sampleReceived (beBytes 32 1)) wallet :=
    ⟨_, sampleReceived_step _ _⟩
  obtain ⟨result, next, hconsolidated⟩ : ∃ result next, DepositStep idealPrimitives .ideal
      sampleHandler sampleNode wallet
      (.consolidated IterOrder.unspecified (chainCoin []).onChainId result) next := ⟨_, _, rfl⟩
  have hnew : PresentsNewCoin idealPrimitives sampleHandler sampleNode [] (WalletState.new [])
      (sampleReceived (beBytes 32 1)) := fun _ => ⟨by decide, by decide⟩
  have hmeets : Meets (DepositStep idealPrimitives .ideal sampleHandler sampleNode)
      (PresentsNewCoin idealPrimitives sampleHandler sampleNode) (WalletState.new [])
      [sampleReceived (beBytes 32 1),
        .consolidated IterOrder.unspecified (chainCoin []).onChainId result] next :=
    Meets.snoc (Meets.snoc Meets.start hnew hreceived) trivial hconsolidated
  refine ⟨_, next, hmeets.run, ?_, rfl⟩
  exact (creditedIds_nodup_iff idealPrimitives .ideal sampleHandler sampleNode [] _ next
    hmeets.run).1.mpr hmeets

end PartyMix
