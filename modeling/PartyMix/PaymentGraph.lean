import PartyMix.Compliance
import PartyMix.DoubleSpend
import PartyMix.Ledger
import PartyMix.Lib.ProofGraph
import PartyMix.WalletRun

/-!
# Graphs of compliant payments

The proofs of Shielded CSV are about graphs: a coin is proved by the payment and the
finalization that made it, these by the coins and the state they used, and so on down
to issued coins.  Every vertex of such a graph complies with `compliance_predicate`.
This module says what a known label of a graph comes from.  `issuance` returns `None`
for every proof, so a graph that starts from nothing contains nothing, and a mixer
whose backend proves only such graphs accepts no payment.
-/

namespace PartyMix

open FixedBytes MachineWord ProofGraph Transition

variable {A V M : Type} [DecidableEq A] [DecidableEq V] {P : Primitives A V}
  {profile : Profile}

abbrev PaymentVertex (A V : Type) := Vertex (EdgeLabel A V) (LocalInput A V)

/-- The predicate returns true for the vertex. -/
def Complies (P : Primitives A V) (profile : Profile) (zOut : EdgeLabel A V)
    (wLoc : LocalInput A V) (zIn : List (EdgeLabel A V)) : Prop :=
  compliancePredicate P profile zOut wLoc zIn = .ok true

/-- The labels known after a graph of compliant vertices over issued coins. -/
abbrev PaymentGraph (P : Primitives A V) (profile : Profile) (issued : List (Coin V))
    (graph : List (PaymentVertex A V)) (known : List (EdgeLabel A V)) : Prop :=
  Proves (Complies P profile) (issued.map .coin) graph known

/-! ### Where a label comes from -/

omit [DecidableEq A] [DecidableEq V] in
/-- The vertex is a payment of the state and the coins. -/
inductive Pays (P : Primitives A V) :
    PaymentVertex A V → AcctState A V → List (Coin V) → PaymentInitLocalInput A V → Prop
  | account {zOut : EdgeLabel A V} {prevState : AcctState A V} {prevCoins : List (Coin V)}
      {wLoc : PaymentInitLocalInput A V} :
      Pays P ⟨zOut, .paymentInit wLoc, .acctState prevState :: prevCoins.map .coin⟩ prevState
        prevCoins wLoc
  | newacct {zOut : EdgeLabel A V} {prevCoins : List (Coin V)}
      {wLoc : PaymentInitLocalInput A V} :
      Pays P ⟨zOut, .paymentInit wLoc, prevCoins.map .coin⟩ (newacct P wLoc) prevCoins wLoc

omit [DecidableEq A] [DecidableEq V] in
theorem Pays.coin_mem {v : PaymentVertex A V} {prevState : AcctState A V}
    {prevCoins : List (Coin V)} {wLoc : PaymentInitLocalInput A V}
    (h : Pays P v prevState prevCoins wLoc) {coin : Coin V} (hcoin : coin ∈ prevCoins) :
    .coin coin ∈ v.ins := by
  cases h with
  | account => exact List.mem_cons_of_mem _ (List.mem_map_of_mem hcoin)
  | newacct => exact List.mem_map_of_mem hcoin

/-- An accepted payment of the graph, on coins that are known. -/
structure Paid (P : Primitives A V) (profile : Profile) (graph : List (PaymentVertex A V))
    (known : List (EdgeLabel A V)) (prevState : AcctState A V) (prevCoins : List (Coin V))
    (wLoc : PaymentInitLocalInput A V)
    (outputs : PaymentInitOutput A V × PaymentInitOutputFee V) : Prop where
  vertex : ∃ v ∈ graph, Pays P v prevState prevCoins wLoc
  accepted : paymentInit P profile prevState prevCoins wLoc = .ok (some outputs)
  coins : ∀ coin ∈ prevCoins, .coin coin ∈ known

/-- The label is one of the two outputs of a payment. -/
def IsOutput (outputs : PaymentInitOutput A V × PaymentInitOutputFee V)
    (label : EdgeLabel A V) : Prop :=
  label = .paymentInitOutput outputs.1 ∨ label = .paymentInitOutputFee outputs.2

/-- The finalization of a payment yields the coin. -/
def Mints (P : Primitives A V) (outputs : PaymentInitOutput A V × PaymentInitOutputFee V)
    (wFin : PaymentFinalizeLocalInput V) (coin : Coin V) : Prop :=
  (∃ newState coins, paymentFinalize P outputs.1 wFin = some (newState, coins) ∧ coin ∈ coins) ∨
    paymentFinalizeFee P outputs.2 wFin = some coin

/-- A compliant coin was finalized from an output of a payment. -/
theorem output_of_coin {coin : Coin V} {wLoc : LocalInput A V} {zIn : List (EdgeLabel A V)}
    (h : Complies P profile (.coin coin) wLoc zIn) :
    ∃ wFin, (∃ output newState coins, .paymentInitOutput output ∈ zIn ∧
        paymentFinalize P output wFin = some (newState, coins) ∧ coin ∈ coins) ∨
      ∃ output, .paymentInitOutputFee output ∈ zIn ∧
        paymentFinalizeFee P output wFin = some coin := by
  cases protocolEdge_of_accepts h with
  | payment _ hout =>
    rcases hout with habs | habs <;> cases habs
  | opening _ _ hout =>
    rcases hout with habs | habs <;> cases habs
  | finalization hfin hout =>
    rcases hout with habs | ⟨found, hfound, hcoin⟩
    · cases habs
    · obtain rfl := EdgeLabel.coin.inj hcoin
      exact ⟨_, Or.inl ⟨_, _, _, List.mem_singleton_self _, hfin, hfound⟩⟩
  | feeFinalization hfin => exact ⟨_, Or.inr ⟨_, List.mem_singleton_self _, hfin⟩⟩

section Origins

variable {issued : List (Coin V)} {graph : List (PaymentVertex A V)}
  {known : List (EdgeLabel A V)}

/-- A known output is an output of a payment of the graph. -/
theorem paid_of_output (hgraph : PaymentGraph P profile issued graph known)
    {label : EdgeLabel A V} (hlabel : label ∈ known)
    (houtput : (∃ output, label = .paymentInitOutput output) ∨
      ∃ output, label = .paymentInitOutputFee output) :
    ∃ prevState prevCoins wLoc outputs,
      Paid P profile graph known prevState prevCoins wLoc outputs ∧ IsOutput outputs label := by
  rcases hgraph.vertex_of_known hlabel with hissued | ⟨v, hv, rfl, hcomplies, hins⟩
  · obtain ⟨coin, -, rfl⟩ := List.mem_map.mp hissued
    -- an issued label is a coin
    rcases houtput with ⟨output, habs⟩ | ⟨output, habs⟩ <;> cases habs
  obtain ⟨zOut, wLoc, zIn⟩ := v
  cases protocolEdge_of_accepts hcomplies with
  | payment hinit hout =>
    exact ⟨_, _, _, _, ⟨⟨_, hv, .account⟩, hinit,
      fun coin hcoin => hins _ (Pays.coin_mem (P := P) .account hcoin)⟩, hout⟩
  | opening _ hinit hout =>
    exact ⟨_, _, _, _, ⟨⟨_, hv, .newacct⟩, hinit,
      fun coin hcoin => hins _ (Pays.coin_mem (P := P) .newacct hcoin)⟩, hout⟩
  | finalization _ hout =>
    rcases hout with rfl | ⟨coin, -, rfl⟩ <;>
      rcases houtput with ⟨output, habs⟩ | ⟨output, habs⟩ <;> cases habs
  | feeFinalization =>
    rcases houtput with ⟨output, habs⟩ | ⟨output, habs⟩ <;> cases habs

/-- A coin that complies on known labels was minted by a payment of the graph. -/
theorem minted_of_complies (hgraph : PaymentGraph P profile issued graph known) {coin : Coin V}
    {wLoc : LocalInput A V} {zIn : List (EdgeLabel A V)}
    (hcomplies : Complies P profile (.coin coin) wLoc zIn)
    (hins : ∀ label ∈ zIn, label ∈ known) :
    ∃ prevState prevCoins init outputs wFin,
      Paid P profile graph known prevState prevCoins init outputs ∧
        Mints P outputs wFin coin := by
  obtain ⟨wFin, ⟨output, newState, coins, hmem, hfin, hcoin⟩ | ⟨output, hmem, hfin⟩⟩ :=
    output_of_coin hcomplies
  · obtain ⟨prevState, prevCoins, init, outputs, hpaid, hout | hout⟩ :=
      paid_of_output hgraph (hins _ hmem) (Or.inl ⟨output, rfl⟩)
    · obtain rfl := EdgeLabel.paymentInitOutput.inj hout
      exact ⟨_, _, _, _, wFin, hpaid, Or.inl ⟨newState, coins, hfin, hcoin⟩⟩
    · cases hout
  · obtain ⟨prevState, prevCoins, init, outputs, hpaid, hout | hout⟩ :=
      paid_of_output hgraph (hins _ hmem) (Or.inr ⟨output, rfl⟩)
    · cases hout
    · obtain rfl := EdgeLabel.paymentInitOutputFee.inj hout
      exact ⟨_, _, _, _, wFin, hpaid, Or.inr hfin⟩

/-- A known coin was issued or minted by a payment of the graph. -/
theorem coin_origin (hgraph : PaymentGraph P profile issued graph known) {coin : Coin V}
    (hcoin : .coin coin ∈ known) :
    coin ∈ issued ∨ ∃ prevState prevCoins init outputs wFin,
      Paid P profile graph known prevState prevCoins init outputs ∧
        Mints P outputs wFin coin := by
  rcases hgraph.vertex_of_known hcoin with hissued | ⟨v, -, hout, hcomplies, hins⟩
  · obtain ⟨found, hfound, hsame⟩ := List.mem_map.mp hissued
    obtain rfl := EdgeLabel.coin.inj hsame
    exact Or.inl hfound
  · rw [hout] at hcomplies
    exact Or.inr (minted_of_complies hgraph hcomplies hins)

end Origins

/-! ### Graphs from nothing -/

theorem known_of_nothing {graph : List (PaymentVertex A V)} {known : List (EdgeLabel A V)}
    (hgraph : PaymentGraph P profile [] graph known) : known = [] := by
  apply Proves.eq_nil ?_ hgraph
  intro zOut wLoc habs
  have hedge := protocolEdge_of_accepts habs
  generalize hins : ([] : List (EdgeLabel A V)) = zIn at hedge
  cases hedge with
  | payment | finalization | feeFinalization => cases hins
  | opening hne => exact hne (List.map_eq_nil_iff.mp hins.symm)

/-- The backend accepts a proof only for a label of some graph over the issued coins. -/
def BackendProves (P : Primitives A V) (profile : Profile) (B : PcdBackend A V)
    (issued : List (Coin V)) : Prop :=
  ∀ vk z proof, B.verify vk z proof = .ok true →
    ∃ graph known, PaymentGraph P profile issued graph known ∧ z ∈ known

section Nothing

variable {B : PcdBackend A V} {mgr : ToSAccM M V} {mixer : Mixer} {node : MixerNode B M}
  {wallet next : WalletState A V}

omit [DecidableEq A] in
/-- A payment that is not accepted is rejected, whichever check fails. -/
theorem acceptPayment_error {coin : Coin V} {coinProof : List UInt8}
    {acctIdBytes pkCommitRand : Bytes 32} {error : NodeError}
    (h : acceptPayment P node coin coinProof acctIdBytes pkCommitRand = .error error) :
    error = .paymentRejected := by
  unfold acceptPayment at h
  split at h
  · exact (Except.error.inj h).symm
  split at h
  · exact (Except.error.inj h).symm
  split at h
  · exact (Except.error.inj h).symm
  split at h
  · cases h
  · exact (Except.error.inj h).symm

theorem not_verify_of_backendProves (hbackend : BackendProves P profile B []) {vk : B.VerKey}
    {z : EdgeLabel A V} {proof : List UInt8} : B.verify vk z proof ≠ .ok true := by
  intro haccept
  obtain ⟨graph, known, hgraph, hz⟩ := hbackend vk z proof haccept
  rw [known_of_nothing hgraph] at hz
  cases hz

theorem not_acceptable_of_backendProves (hbackend : BackendProves P profile B [])
    (handler : DepositHandler) (node : MixerNode B M) (payload : DepositPayload V) :
    ¬ Acceptable P handler node payload := by
  rintro ⟨amount, hamount⟩
  obtain ⟨-, -, -, hverify, -⟩ := acceptPayment_eq_ok_iff.mp hamount
  exact not_verify_of_backendProves hbackend hverify

/-- What the mixer's users are answered. -/
def Refused : WalletEvent B M → Prop
  | .received _ _ _ _ result => result = .error .paymentRejected
  | .queued _ _ _ result => ∃ error, result = .error (.pool error)
  | _ => True

/-- Credits come from deposits, and only queued requests are processed. -/
def FromDeposits (events : List (WalletEvent B M)) (_wallet : WalletState A V)
    (event : WalletEvent B M) : Prop :=
  (∀ userIdHash amount, event ≠ .credited userIdHash amount) ∧
    ∀ request ∈ handedRequests event, request ∈ queuedRequests events

omit [DecidableEq A] [DecidableEq V] in
theorem fromDeposits_of_nothing {events : List (WalletEvent B M)} {event : WalletEvent B M}
    (hcredit : ∀ userIdHash amount, event ≠ .credited userIdHash amount)
    (hnothing : handedRequests event = []) : FromDeposits events wallet event := by
  refine ⟨hcredit, ?_⟩
  simp [hnothing]

/-- Nothing was credited, nothing is held and nothing went out. -/
structure Idle (events : List (WalletEvent B M)) (wallet : WalletState A V) : Prop where
  liabilities : wallet.liabilities = ∅
  coins : wallet.unspentCoins = []
  refused : ∀ event ∈ events, Refused event
  queued : queuedRequests events = []
  delivered : deliveredRequests events = []

omit [DecidableEq A] in
/-- On an empty ledger a step that credits nothing changes neither the ledger nor the
    coins, and queues nothing. -/
theorem refused_of_idle {events : List (WalletEvent B M)} {event : WalletEvent B M}
    (hidle : Idle events wallet) (hcredit : ∀ userIdHash amount, event ≠ .credited userIdHash amount)
    (hnone : ∀ node payload, ¬ Acceptable P mixer.deposits (node : MixerNode B M) payload)
    (h : WalletStep P mgr mixer wallet event next) :
    Refused event ∧ next.liabilities = wallet.liabilities ∧
      next.unspentCoins = wallet.unspentCoins ∧ queuedRequest event = [] := by
  cases event with
  | created acctId label isPrimary id result =>
    obtain ⟨hliabilities, hcoins⟩ := createPoolAccount_frame h
    exact ⟨trivial, hliabilities, hcoins, rfl⟩
  | credited userIdHash amount => exact absurd rfl (hcredit userIdHash amount)
  | received node userIdHash payload depositId result =>
    rcases receiveDeposit_cases h with ⟨habs, -⟩ | ⟨-, hresult, rfl⟩
    · exact absurd habs (hnone node payload)
    · exact ⟨hresult, rfl, rfl, rfl⟩
  | queued userIdHash request id result =>
    rcases queueWithdrawal_cases h with ⟨-, hdebit⟩ | ⟨⟨error, rfl⟩, rfl⟩
    · -- a debit needs an entry, and the ledger has none
      have hentry := (WalletState.debitUser_eq_true_iff wallet userIdHash _).mp
        (congrArg Prod.fst hdebit)
      rw [hidle.liabilities] at hentry
      exact absurd hentry.1 Finmap.notMem_empty
    · exact ⟨⟨error, rfl⟩, rfl, rfl, rfl⟩
  | processed node order request txHashRandomness result =>
    obtain ⟨-, rfl⟩ := h
    exact ⟨trivial, rfl, rfl, rfl⟩
  | batched node order requests config txHashRandomness result =>
    obtain ⟨-, rfl⟩ := h
    exact ⟨trivial, rfl, rfl, rfl⟩

omit [DecidableEq A] in
theorem idle_snoc {events : List (WalletEvent B M)} {event : WalletEvent B M}
    (hidle : Idle events wallet) (hdeposits : FromDeposits events wallet event)
    (hnone : ∀ node payload, ¬ Acceptable P mixer.deposits (node : MixerNode B M) payload)
    (h : WalletStep P mgr mixer wallet event next) : Idle (events ++ [event]) next := by
  obtain ⟨hcredit, hhanded⟩ := hdeposits
  obtain ⟨hrefused, hliabilities, hcoins, hqueued⟩ := refused_of_idle hidle hcredit hnone h
  constructor
  · rw [hliabilities, hidle.liabilities]
  · rw [hcoins, hidle.coins]
  · intro other hother
    rcases List.mem_append.mp hother with hold | hlast
    · exact hidle.refused other hold
    · rw [List.mem_singleton.mp hlast]
      exact hrefused
  · rw [queuedRequests_snoc, hidle.queued, hqueued]
    rfl
  · -- what is delivered was handed over, and so was queued
    have hdelivered : deliveredRequest event = [] := by
      -- a call that returned `Ok` delivered all it was handed
      rcases deliveredRequest_eq event with heq | heq
      · rw [heq, List.eq_nil_iff_forall_not_mem]
        intro request hrequest
        have habs := hhanded request hrequest
        rw [hidle.queued] at habs
        cases habs
      · exact heq
    rw [deliveredRequests_snoc, hidle.delivered, hdelivered]
    rfl

end Nothing

/-- **Nothing comes from nothing.**  `issuance` issues no coin, so a backend that
    proves compliant graphs only has no label to accept: no node accepts a payment,
    and a mixer that lives from its deposits never credits, holds, queues or delivers
    anything, whatever it is sent. -/
theorem sound_backend_accepts_nothing (P : Primitives A V) (profile : Profile)
    (B : PcdBackend A V) (hbackend : BackendProves P profile B []) :
    (∀ (node : MixerNode B M) coin coinProof acctIdBytes pkCommitRand,
      acceptPayment P node coin coinProof acctIdBytes pkCommitRand =
        .error .paymentRejected) ∧
    ∀ (mgr : ToSAccM M V) (mixer : Mixer) (zero : V) (events : List (WalletEvent B M))
      (wallet : WalletState A V),
      Meets (WalletStep P mgr mixer) FromDeposits (WalletState.new zero) events wallet →
        Idle events wallet := by
  constructor
  · intro node coin coinProof acctIdBytes pkCommitRand
    cases haccept : acceptPayment P node coin coinProof acctIdBytes pkCommitRand with
    | error error => rw [acceptPayment_error haccept]
    | ok amount =>
      obtain ⟨-, -, -, hverify, -⟩ := acceptPayment_eq_ok_iff.mp haccept
      exact absurd hverify (not_verify_of_backendProves hbackend)
  · intro mgr mixer zero events wallet hmeets
    apply hmeets.invariant
    · intro events wallet event next hidle hdeposits hstep
      exact idle_snoc hidle hdeposits
        (fun node payload => not_acceptable_of_backendProves hbackend _ node payload) hstep
    · exact ⟨rfl, rfl, fun _ hevent => absurd hevent List.not_mem_nil, rfl, rfl⟩

/-- A backend that finds no proof convincing. -/
def rejectingPcd : PcdBackend (Finset CoinIdOnChain) Nav where
  ProvKey := Unit
  VerKey := Unit
  keygen := ((), ())
  prove _ _ _ _ _ := .error (.proveFailed "not compliant")
  verify _ _ _ := .ok false

theorem rejectingPcd_proves : BackendProves idealPrimitives .debug rejectingPcd [] := by
  intro vk z proof habs
  cases habs

def idleMixer : Mixer where
  pool := ⟨MixerConfig.default⟩
  deposits := ⟨⟨MixerConfig.default⟩, zeroBytes 32, zeroBytes 32⟩
  withdrawals := ⟨⟨MixerConfig.default⟩⟩

def idleNode : MixerNode rejectingPcd Nav :=
  MixerNode.new .ideal MixerConfig.default (WalletState.new [])

def idlePayload : DepositPayload Nav where
  sessionId := Uuid.nil
  coin := ⟨⟨⟨zeroBytes 32⟩, 5, beBytes 2 1⟩, zeroBytes 32, zeroBytes 6, []⟩
  coinProof := mockPcdPrefix
  addressOpeningRand := zeroBytes 32

/-- A deposit and a withdrawal after it. -/
theorem idleMixer_idle :
    ∃ (events : List (WalletEvent rejectingPcd Nav)) (wallet : _),
      Meets (WalletStep idealPrimitives .ideal idleMixer) FromDeposits (WalletState.new []) events
          wallet ∧
        events.length = 2 ∧ Idle events wallet := by
  obtain ⟨hrejects, hidle⟩ := sound_backend_accepts_nothing (M := Nav) idealPrimitives .debug
    rejectingPcd rejectingPcd_proves
  have hreceived : WalletStep idealPrimitives .ideal idleMixer (WalletState.new [])
      (.received idleNode (zeroBytes 32) idlePayload Uuid.nil (.error .paymentRejected))
      (WalletState.new []) := by
    simp only [WalletStep, receiveDeposit, hrejects]
  have hqueued : WalletStep idealPrimitives .ideal idleMixer (WalletState.new [])
      (.queued (zeroBytes 32) ⟨Uuid.nil, 4, ⟨zeroBytes 32⟩, zeroBytes 32⟩ Uuid.nil
        (.error (.pool (.insufficientLiquidity 1004 0))) : WalletEvent rejectingPcd Nav)
      (WalletState.new []) := rfl
  have hfirst : Meets (WalletStep idealPrimitives .ideal idleMixer) FromDeposits
      (WalletState.new []) [.received idleNode (zeroBytes 32) idlePayload Uuid.nil
        (.error .paymentRejected)] (WalletState.new []) :=
    Meets.snoc Meets.start (fromDeposits_of_nothing (fun _ _ => nofun) rfl) hreceived
  have hmeets := Meets.snoc hfirst (fromDeposits_of_nothing (by intro _ _; nofun) rfl) hqueued
  exact ⟨_, _, hmeets, rfl, hidle _ _ _ _ _ hmeets⟩

end PartyMix
