import PartyMix.ProofRequests
import PartyMix.WalletRun

/-!
# When a withdrawal is delivered at most once

A queued request reserves its amount once, and nothing marks it as delivered: the
status field is never read.  What is delivered stays within what is reserved in the
runs that hand every request over once, and a second hand-over delivers it again.
-/

namespace PartyMix

open FixedBytes MachineWord Transition

variable {A V M : Type} [DecidableEq V] {B : PcdBackend A V} {P : Primitives A V}
  {mgr : ToSAccM M V} {mixer : Mixer} {start wallet next : WalletState A V}

/-- A call hands over requests that were queued, none twice and none that has been
    delivered. -/
def HandsNewRequests (events : List (WalletEvent B M)) (_wallet : WalletState A V)
    (event : WalletEvent B M) : Prop :=
  (∀ request ∈ handedRequests event, request ∈ queuedRequests events) ∧
    (handedRequests event).Nodup ∧
    ∀ request ∈ handedRequests event, request ∉ deliveredRequests events

/-- What has been delivered was queued, and no request was delivered twice. -/
structure DeliveredOnce (events : List (WalletEvent B M)) : Prop where
  queued : ∀ request ∈ deliveredRequests events, request ∈ queuedRequests events
  nodup : (deliveredRequests events).Nodup

omit [DecidableEq V] in
theorem deliveredOnce_snoc {events : List (WalletEvent B M)} {event : WalletEvent B M}
    (honce : DeliveredOnce events) (hnew : HandsNewRequests events wallet event) :
    DeliveredOnce (events ++ [event]) := by
  obtain ⟨hqueued, hnodup, hfresh⟩ := hnew
  constructor
  · intro request hrequest
    rw [queuedRequests_snoc]
    apply List.mem_append_left
    rw [deliveredRequests_snoc, List.mem_append] at hrequest
    rcases hrequest with hold | hlast
    · exact honce.queued request hold
    · rcases deliveredRequest_eq event with heq | heq
      · rw [heq] at hlast
        exact hqueued request hlast
      · rw [heq] at hlast
        cases hlast
  · rw [deliveredRequests_snoc]
    rcases deliveredRequest_eq event with heq | heq
    · rw [heq, List.nodup_append]
      refine ⟨honce.nodup, hnodup, ?_⟩
      rintro request hold other hother rfl
      exact hfresh request hother hold
    · rw [heq, List.append_nil]
      exact honce.nodup

/-- Requests that do not repeat and were queued are worth at most what was queued. -/
theorem requestTotal_le_of_subset {requests queued : List MixerWithdrawalRequest}
    (hnodup : requests.Nodup) (hsubset : ∀ request ∈ requests, request ∈ queued) :
    requestTotal requests ≤ requestTotal queued := by
  obtain ⟨middle, hperm, hsublist⟩ := List.subperm_of_subset hnodup hsubset
  have hsame : requestTotal middle = requestTotal requests := (hperm.map _).sum_eq
  rw [← hsame]
  exact (hsublist.map _).sum_le_sum (fun _ _ => Nat.zero_le _)

/-- **Within the reservations.**  In a run that hands over only new requests, each is
    delivered at most once and the delivered coins are worth at most the withdrawn
    fields.  A call that returns `Ok` on any other requests it was queued delivers one
    of them again. -/
theorem delivered_within_reserved (P : Primitives A V) (mgr : ToSAccM M V) (mixer : Mixer)
    (start : WalletState A V) (events : List (WalletEvent B M)) (wallet : WalletState A V)
    (hmeets : Meets (WalletStep P mgr mixer) HandsNewRequests start events wallet) :
    (deliveredRequests events).Nodup ∧
      coinTotal (deliveredCoins events) ≤ wallet.totalWithdrawn ∧
      ∀ event, deliveredRequest event = handedRequests event →
        (∀ request ∈ handedRequests event, request ∈ queuedRequests events) →
        ¬ HandsNewRequests events wallet event →
          ¬ (deliveredRequests (events ++ [event])).Nodup := by
  have honce : DeliveredOnce events := by
    refine hmeets.invariant (fun _ _ _ _ honce hnew _ => deliveredOnce_snoc honce hnew) ?_
    refine ⟨?_, List.nodup_nil⟩
    intro request hrequest
    cases hrequest
  refine ⟨honce.nodup, ?_, ?_⟩
  · rw [coinTotal_deliveredCoins hmeets.run]
    have hreserved := totalWithdrawn_run hmeets.run
    have hqueued := requestTotal_le_of_subset honce.nodup honce.queued
    omega
  · intro event hok hqueued hnew hnodup
    rw [deliveredRequests_snoc, hok, List.nodup_append] at hnodup
    apply hnew
    refine ⟨hqueued, hnodup.2.1, ?_⟩
    intro request hrequest hold
    exact hnodup.2.2 request hold request hrequest rfl

/-! ### A concrete run -/

def poolMixer : Mixer where
  pool := ⟨MixerConfig.default⟩
  deposits := ⟨⟨MixerConfig.default⟩, zeroBytes 32, zeroBytes 32⟩
  withdrawals := poolHandler

abbrev PoolEvent := WalletEvent (mockPcd : PcdBackend AccValue ToSAccValue) ToSAccMState

def poolCredited : PoolEvent :=
  .credited (beBytes 32 1) 3000

def poolQueued : PoolEvent :=
  .queued (beBytes 32 1) ⟨Uuid.nil, 2000, ⟨zeroBytes 32⟩, zeroBytes 32⟩ Uuid.nil (.ok poolRequest)

def poolProcessed (order : IterOrder Uuid (PoolAccount AccValue ToSAccValue))
    (delivery : WithdrawalDelivery ToSAccValue) : PoolEvent :=
  .processed (poolNode mockPcd) order poolRequest (zeroBytes 32) (.ok delivery)

omit [DecidableEq V] in
theorem handsNew_of_nothing {events : List (WalletEvent B M)} {event : WalletEvent B M}
    (hnothing : handedRequests event = []) : HandsNewRequests events wallet event := by
  simp [HandsNewRequests, hnothing]

/-- The pool wallet after the credit and the reservation. -/
theorem poolQueued_run : ∃ wallet,
    Meets (WalletStep permissivePrimitives (.source rollingHash) poolMixer) HandsNewRequests
        poolWallet [poolCredited, poolQueued] wallet ∧
      wallet.poolAccounts = poolWallet.poolAccounts ∧ wallet.totalWithdrawn = 3000 := by
  obtain ⟨wallet, hqueued, hpool, htotal⟩ : ∃ wallet,
      queueWithdrawal poolHandler (poolWallet.creditUser (beBytes 32 1) 3000) (beBytes 32 1)
          ⟨Uuid.nil, 2000, ⟨zeroBytes 32⟩, zeroBytes 32⟩ Uuid.nil = (.ok poolRequest, wallet) ∧
        wallet.poolAccounts = poolWallet.poolAccounts ∧ wallet.totalWithdrawn = 3000 :=
    ⟨_, rfl, rfl, rfl⟩
  refine ⟨wallet, ?_, hpool, htotal⟩
  exact Meets.snoc (Meets.snoc Meets.start (handsNew_of_nothing rfl) rfl)
    (handsNew_of_nothing rfl) hqueued

theorem poolProcessed_step {wallet : WalletState AccValue ToSAccValue}
    {delivery : WithdrawalDelivery ToSAccValue}
    (hdelivered : processSingleWithdrawal permissivePrimitives (.source rollingHash)
      IterOrder.unspecified poolHandler (poolNode mockPcd) wallet poolRequest (zeroBytes 32) =
        .ok delivery) :
    WalletStep permissivePrimitives (.source rollingHash) poolMixer wallet
      (poolProcessed IterOrder.unspecified delivery) wallet := ⟨hdelivered, rfl⟩

/-- One reservation of 3000 pays the amount of 2000 twice. -/
theorem poolRequest_delivered_twice : ∃ (events : List PoolEvent) (wallet : _),
    Run (WalletStep permissivePrimitives (.source rollingHash) poolMixer) poolWallet events
        wallet ∧
      queuedRequests events = [poolRequest] ∧
      deliveredRequests events = [poolRequest, poolRequest] ∧
      wallet.totalWithdrawn < coinTotal (deliveredCoins events) := by
  obtain ⟨wallet, hqueued, hpool, htotal⟩ := poolQueued_run
  obtain ⟨delivery, hdelivered⟩ := poolRequest_delivered hpool
  have hstep := poolProcessed_step hdelivered
  have hrun := Run.snoc (Run.snoc hqueued.run hstep) hstep
  refine ⟨_, wallet, hrun, rfl, rfl, ?_⟩
  rw [coinTotal_deliveredCoins hrun, htotal]
  change 3000 < requestTotal [poolRequest, poolRequest]
  decide

theorem poolRequest_delivered_once : ∃ (events : List PoolEvent) (wallet : _),
    Run (WalletStep permissivePrimitives (.source rollingHash) poolMixer) poolWallet events
        wallet ∧
      deliveredRequests events = [poolRequest] ∧
      coinTotal (deliveredCoins events) ≤ wallet.totalWithdrawn := by
  obtain ⟨wallet, hqueued, hpool, -⟩ := poolQueued_run
  obtain ⟨delivery, hdelivered⟩ := poolRequest_delivered hpool
  have hnew : HandsNewRequests [poolCredited, poolQueued] wallet
      (poolProcessed IterOrder.unspecified delivery) :=
    ⟨fun _ hrequest => hrequest, List.nodup_singleton _, fun _ _ => List.not_mem_nil⟩
  have hmeets := Meets.snoc hqueued hnew (poolProcessed_step hdelivered)
  have hwithin := delivered_within_reserved permissivePrimitives (.source rollingHash) poolMixer
    poolWallet _ wallet hmeets
  exact ⟨_, wallet, hmeets.run, rfl, hwithin.2.1⟩

end PartyMix
