import Mathlib.Data.Countable.Basic
import Mathlib.Logic.Encodable.Pi
import PartyMix.AccountHistory
import PartyMix.MintedCoins
import PartyMix.PaymentGraph
import PartyMix.TransactionHash

/-!
# What identifies a coin and a payment

A coin's id is the hash of the transaction that made it and an index.  The fee and the
spent coins' amounts are not in the hashed text, and a transaction can be proved and
finalized in many ways; still, on the chain of one node, two coins of a graph with one
id are the same coin, and two payments that spend one nullifier key have one outcome.
The spent coins of a payment are in the text by their ids, so the argument goes down
the graph: what the ids identify one level below fixes the amounts above.
-/

namespace PartyMix

open ChainPrefix DebugText FixedBytes MachineWord ProofGraph Transition

/-! ### Texts that do not collide -/

section Texts

variable {A V : Type} {P : Primitives A V} {profile : Profile}

/-- The text that a payment vertex hashes. -/
def Hashes (P : Primitives A V) (profile : Profile) (v : PaymentVertex A V)
    (text : List UInt8) : Prop :=
  ∃ prevState prevCoins wLoc newBalance, Pays P v prevState prevCoins wLoc ∧
    InitChecks P profile prevState prevCoins wLoc newBalance ∧
    text = intoBytes ((paymentInitTransaction prevState prevCoins wLoc newBalance).preimage P
      wLoc.txHashRandomness)

theorem Hashes.input {v : PaymentVertex A V} {text : List UInt8} (h : Hashes P profile v text) :
    ∃ wLoc, v.input = .paymentInit wLoc := by
  obtain ⟨_, _, wLoc, _, hpays, -⟩ := h
  cases hpays <;> exact ⟨wLoc, rfl⟩

/-- The labels and the input of a vertex tell what it pays. -/
theorem Pays.unique {v u : PaymentVertex A V} {prevState otherState : AcctState A V}
    {prevCoins otherCoins : List (Coin V)} {wLoc wOther : PaymentInitLocalInput A V}
    (h : Pays P v prevState prevCoins wLoc) (hother : Pays P u otherState otherCoins wOther)
    (hinput : v.input = u.input) (hins : v.ins = u.ins) :
    prevState = otherState ∧ prevCoins = otherCoins ∧ wLoc = wOther := by
  have hcoin : Function.Injective (EdgeLabel.coin : Coin V → EdgeLabel A V) :=
    fun _ _ => EdgeLabel.coin.inj
  cases h with
  | account =>
    cases hother with
    | account =>
      obtain ⟨hstate, hcoins⟩ := List.cons.inj hins
      exact ⟨EdgeLabel.acctState.inj hstate, List.map_injective_iff.mpr hcoin hcoins,
        LocalInput.paymentInit.inj hinput⟩
    | newacct =>
      -- an account label comes first on one side and a coin on the other
      cases otherCoins <;> cases hins
  | newacct =>
    cases hother with
    | account =>
      cases prevCoins <;> cases hins
    | newacct =>
      have hwLoc := LocalInput.paymentInit.inj hinput
      exact ⟨by rw [hwLoc], List.map_injective_iff.mpr hcoin hins, hwLoc⟩

/-- The payments of a graph hash different texts to different values, none of which is
    the transaction hash of an issued coin, and issued coins have their own ids. -/
structure CollisionFree (P : Primitives A V) (profile : Profile) (issued : List (Coin V))
    (graph : List (PaymentVertex A V)) : Prop where
  payments : ∀ v ∈ graph, ∀ u ∈ graph, ∀ text other, Hashes P profile v text →
    Hashes P profile u other → P.hash text = P.hash other → text = other
  fresh : ∀ v ∈ graph, ∀ text, Hashes P profile v text →
    ∀ coin ∈ issued, P.hash text ≠ coin.txHash
  issued : ∀ coin ∈ issued, ∀ other ∈ issued, coin.id = other.id → coin = other

theorem CollisionFree.mono {issued : List (Coin V)} {graph larger : List (PaymentVertex A V)}
    (hgraph : graph ⊆ larger) (h : CollisionFree P profile issued larger) :
    CollisionFree P profile issued graph where
  payments v hv u hu := h.payments v (hgraph hv) u (hgraph hu)
  fresh v hv := h.fresh v (hgraph hv)
  issued := h.issued

/-- The debug texts of keys and of accumulator values can be read back. -/
structure ReadableTexts (P : Primitives A V) : Prop where
  key : Readable P.debugPublicKey
  nav : Readable P.debugNav

variable {issued : List (Coin V)}
  {graph : List (PaymentVertex A V)} {known : List (EdgeLabel A V)}
  {prevState otherState : AcctState A V} {prevCoins otherCoins : List (Coin V)}
  {wLoc wOther : PaymentInitLocalInput A V}
  {outputs others : PaymentInitOutput A V × PaymentInitOutputFee V}

/-- The checks fix the new balance. -/
theorem InitChecks.newBalance_unique {newBalance other : UInt64}
    (h : InitChecks P profile prevState prevCoins wLoc newBalance)
    (hother : InitChecks P profile prevState prevCoins wLoc other) : newBalance = other := by
  have hbalance := h.balance
  have hbalance' := hother.balance
  exact UInt64.toNat_inj.mp (by omega)

/-- One payment hashes one text. -/
theorem Hashes.unique {v u : PaymentVertex A V} {text other : List UInt8}
    (h : Hashes P profile v text) (hother : Hashes P profile u other)
    (hinput : v.input = u.input) (hins : v.ins = u.ins) : text = other := by
  obtain ⟨prevState, prevCoins, wLoc, newBalance, hpays, hchecks, rfl⟩ := h
  obtain ⟨_, _, _, otherBalance, hpays', hchecks', rfl⟩ := hother
  obtain ⟨rfl, rfl, rfl⟩ := hpays.unique hpays' hinput hins
  rw [hchecks.newBalance_unique hchecks']

/-- A payment of the graph has passed its checks and hashed its transaction. -/
theorem Paid.hashed (h : Paid P profile graph known prevState prevCoins wLoc outputs) :
    ∃ newBalance, InitChecks P profile prevState prevCoins wLoc newBalance ∧
      outputs.1.partialOutput =
        paymentInitPartial P prevState prevCoins wLoc newBalance ∧
      ∃ v ∈ graph, Hashes P profile v (intoBytes
        ((paymentInitTransaction prevState prevCoins wLoc newBalance).preimage P
          wLoc.txHashRandomness)) := by
  obtain ⟨newBalance, hchecks, hout⟩ := paymentInit_eq_some_iff.mp h.accepted
  obtain ⟨v, hv, hpays⟩ := h.vertex
  refine ⟨newBalance, hchecks, ?_, v, hv, _, _, _, _, hpays, hchecks, rfl⟩
  obtain ⟨-, ⟨-, rfl⟩ | ⟨-, -, first, rest, -, rfl⟩⟩ := paymentInitOutputs_eq_some_iff.mp hout
  · rfl
  · rfl

/-- The hash of a payment is not the transaction hash of an issued coin. -/
theorem Paid.not_issued (hfree : CollisionFree P profile issued graph)
    (h : Paid P profile graph known prevState prevCoins wLoc outputs) {coin : Coin V}
    (hcoin : coin ∈ issued) : outputs.1.partialOutput.txHash ≠ coin.txHash := by
  obtain ⟨newBalance, -, hout, v, hv, htext⟩ := h.hashed
  rw [hout]
  exact hfree.fresh v hv _ htext coin hcoin

/-- Two payments with one transaction hash have hashed one transaction. -/
theorem same_transaction (htexts : ReadableTexts P)
    (hfree : CollisionFree P profile issued graph)
    (h₁ : Paid P profile graph known prevState prevCoins wLoc outputs)
    (h₂ : Paid P profile graph known otherState otherCoins wOther others)
    (hhash : outputs.1.partialOutput.txHash = others.1.partialOutput.txHash) :
    ∃ newBalance, InitChecks P profile prevState prevCoins wLoc newBalance ∧
      InitChecks P profile otherState otherCoins wOther newBalance ∧
      paymentInitTransaction prevState prevCoins wLoc newBalance =
        paymentInitTransaction otherState otherCoins wOther newBalance := by
  obtain ⟨newBalance, hchecks₁, hpartial₁, v, hv, htext₁⟩ := h₁.hashed
  obtain ⟨otherBalance, hchecks₂, hpartial₂, u, hu, htext₂⟩ := h₂.hashed
  rw [hpartial₁, hpartial₂] at hhash
  have hbytes := hfree.payments v hv u hu _ _ htext₁ htext₂ hhash
  obtain ⟨-, htx⟩ := preimage_inj htexts.key htexts.nav (intoBytes_injective hbytes)
  have hbalance : newBalance = otherBalance :=
    congrArg (fun tx : Transaction V => tx.newState.balance) htx
  subst hbalance
  exact ⟨newBalance, hchecks₁, hchecks₂, htx⟩

end Texts

/-! ### One transaction, one outcome -/

section Outcome

variable {A M : Type} {B : PcdBackend A Nav} {P : Primitives A Nav} {profile : Profile}
  {issued : List (Coin Nav)} {graph : List (PaymentVertex A Nav)}
  {known : List (EdgeLabel A Nav)} {node : MixerNode B Nav}
  {prevState otherState : AcctState A Nav} {prevCoins otherCoins : List (Coin Nav)}
  {wLoc wOther : PaymentInitLocalInput A Nav}
  {outputs others : PaymentInitOutput A Nav × PaymentInitOutputFee Nav}
  {wFin wFinOther : PaymentFinalizeLocalInput Nav}

/-- The coins of the labels that lie on the chain are told apart by their ids. -/
def IdsIdentify (chain : Nav) (labels : List (EdgeLabel A Nav)) : Prop :=
  ∀ coin other, .coin coin ∈ labels → .coin other ∈ labels → coin.nullifierAccum <+: chain →
    other.nullifierAccum <+: chain → coin.id = other.id →
      coin.essence = other.essence ∧ coin.blockchainLoc = other.blockchainLoc

theorem Mints.finalizes {coin : Coin Nav} (h : Mints P outputs wFin coin) :
    Finalizes P outputs wFin := by
  rcases h with ⟨newState, coins, hfin, -⟩ | hfee
  · exact Or.inl ⟨_, hfin⟩
  · exact Or.inr ⟨_, hfee⟩

/-- A finalized payment is proved against a prefix of the value it is finalized with. -/
theorem init_extends_of_finalizes (hsound : IsPrefixSound P)
    (hinit : paymentInit P profile prevState prevCoins wLoc = .ok (some outputs))
    (hfin : Finalizes P outputs wFin) : wLoc.nullifierAccum <+: wFin.nullifierAccum := by
  have hinternal := PayInit.finalizeInternal (.account hinit) hfin
  obtain ⟨hnap, -⟩ := paymentFinalizeInternal_eq_true_iff.mp hinternal
  have hvalue := hsound _ _ _ hnap _ (List.mem_singleton_self _)
  rw [(paymentInit_partialOutput hinit).2.2.1] at hvalue
  exact hvalue

/-- On one chain, coins with the same ids agree in everything that is read off their
    essence and their location. -/
theorem map_eq_of_ids {β : Type} {chain : Nav} (hids : IdsIdentify chain known) {f : Coin Nav → β}
    (hf : ∀ coin other : Coin Nav, coin.essence = other.essence →
      coin.blockchainLoc = other.blockchainLoc → f coin = f other)
    (hcoins : ∀ coin ∈ prevCoins, .coin coin ∈ known ∧ coin.nullifierAccum <+: chain)
    (hothers : ∀ coin ∈ otherCoins, .coin coin ∈ known ∧ coin.nullifierAccum <+: chain)
    (hsame : prevCoins.map Coin.id = otherCoins.map Coin.id) :
    prevCoins.map f = otherCoins.map f := by
  induction prevCoins generalizing otherCoins with
  | nil =>
    rw [List.map_nil, eq_comm, List.map_eq_nil_iff] at hsame
    rw [hsame]
  | cons coin rest ih =>
    cases otherCoins with
    | nil => cases hsame
    | cons other others =>
      rw [List.map_cons, List.map_cons, List.cons.injEq] at hsame
      obtain ⟨hcoin, hrest⟩ := List.forall_mem_cons.mp hcoins
      obtain ⟨hother, hothers⟩ := List.forall_mem_cons.mp hothers
      obtain ⟨hessence, hloc⟩ := hids coin other hcoin.1 hother.1 hcoin.2 hother.2 hsame.1
      rw [List.map_cons, List.map_cons, hf coin other hessence hloc, ih hrest hothers hsame.2]

theorem coinTotal_of_ids {chain : Nav} (hids : IdsIdentify chain known)
    (hcoins : ∀ coin ∈ prevCoins, .coin coin ∈ known ∧ coin.nullifierAccum <+: chain)
    (hothers : ∀ coin ∈ otherCoins, .coin coin ∈ known ∧ coin.nullifierAccum <+: chain)
    (hsame : prevCoins.map Coin.id = otherCoins.map Coin.id) :
    coinTotal prevCoins = coinTotal otherCoins := by
  have hessences : prevCoins.map Coin.essence = otherCoins.map Coin.essence :=
    map_eq_of_ids hids (fun _ _ hessence _ => hessence) hcoins hothers hsame
  exact congrArg essenceTotal hessences

/-- What a payment leaves on a chain: the state, the coins and the fee. -/
structure SameOutcome (outputs others : PaymentInitOutput A Nav × PaymentInitOutputFee Nav) :
    Prop where
  state : outputs.1.acctStateEssence = others.1.acctStateEssence
  coins : outputs.1.coinEssences = others.1.coinEssences
  fee : outputs.2.fee = others.2.fee

/-- The coins an applied payment spends lie on the chain. -/
theorem coins_onChain_of_applied (hsound : IsPrefixSound P)
    (hpaid : Paid P profile graph known prevState prevCoins wLoc outputs)
    (happlied : takesNoopBranch P wLoc = false) {chain : Nav}
    (hchain : wLoc.nullifierAccum <+: chain) :
    ∀ coin ∈ prevCoins, .coin coin ∈ known ∧ coin.nullifierAccum <+: chain := by
  intro coin hcoin
  refine ⟨hpaid.coins coin hcoin, ?_⟩
  have hrequired := requiredPrefixes_of_applied hsound hpaid.accepted happlied
  have hmem : coin.nullifierAccum ∈ requiredPrefixes prevState prevCoins wLoc :=
    List.mem_append_left _ (List.mem_map_of_mem hcoin)
  exact (hrequired _ hmem).trans hchain

/-- Two payments of one transaction on one chain take one branch. -/
theorem branch_of_transaction (hsound : IsPrefixSound P) (hdistinct : DistinctElementSound P)
    {newBalance : UInt64} (h₁ : Paid P profile graph known prevState prevCoins wLoc outputs)
    (h₂ : Paid P profile graph known otherState otherCoins wOther others)
    (htx : paymentInitTransaction prevState prevCoins wLoc newBalance =
      paymentInitTransaction otherState otherCoins wOther newBalance) {chain : Nav}
    (hchain₁ : wLoc.nullifierAccum <+: chain) (hchain₂ : wOther.nullifierAccum <+: chain) :
    takesNoopBranch P wLoc = takesNoopBranch P wOther := by
  have hnav : wLoc.conditionalNav = wOther.conditionalNav := congrArg Transaction.conditionalNav htx
  rw [Bool.eq_iff_iff]
  constructor
  · exact not_noop_and_applied hsound hdistinct hnav h₂.accepted hchain₁ hchain₂
  · exact not_noop_and_applied hsound hdistinct hnav.symm h₁.accepted hchain₂ hchain₁

/-- **One transaction.**  Two payments of one transaction on one chain have one
    outcome, although the fee is not part of the hashed text. -/
theorem sameOutcome_of_transaction (hsound : IsPrefixSound P)
    (hdistinct : DistinctElementSound P) {newBalance : UInt64}
    (h₁ : Paid P profile graph known prevState prevCoins wLoc outputs)
    (h₂ : Paid P profile graph known otherState otherCoins wOther others)
    (hchecks₁ : InitChecks P profile prevState prevCoins wLoc newBalance)
    (hchecks₂ : InitChecks P profile otherState otherCoins wOther newBalance)
    (htx : paymentInitTransaction prevState prevCoins wLoc newBalance =
      paymentInitTransaction otherState otherCoins wOther newBalance) {chain : Nav}
    (hchain₁ : wLoc.nullifierAccum <+: chain) (hchain₂ : wOther.nullifierAccum <+: chain)
    (hids : IdsIdentify chain known) : SameOutcome outputs others := by
  have hbranch := branch_of_transaction hsound hdistinct h₁ h₂ htx hchain₁ hchain₂
  simp only [paymentInitTransaction, Transaction.mk.injEq, AcctStateEssence.mk.injEq,
    true_and] at htx
  obtain ⟨-, hstate, hcoins, ⟨-, hkey⟩, hnewCoins⟩ := htx
  obtain ⟨balance₁, hinit₁, hout₁⟩ := paymentInit_eq_some_iff.mp h₁.accepted
  obtain ⟨balance₂, hinit₂, hout₂⟩ := paymentInit_eq_some_iff.mp h₂.accepted
  obtain rfl := hinit₁.newBalance_unique hchecks₁
  obtain rfl := hinit₂.newBalance_unique hchecks₂
  obtain ⟨-, hcase₁⟩ := paymentInitOutputs_eq_some_iff.mp hout₁
  obtain ⟨-, hcase₂⟩ := paymentInitOutputs_eq_some_iff.mp hout₂
  rcases hcase₁ with ⟨hnoop₁, rfl⟩ | ⟨happlied₁, -, first₁, rest₁, hfirst₁, rfl⟩
  · rcases hcase₂ with ⟨-, rfl⟩ | ⟨happlied₂, -⟩
    · -- two no-ops keep the old state, which the transaction names
      constructor <;> simp [noopOutputs, hstate, hkey]
    · rw [takesNoopBranch, takesNoopBranch, hnoop₁, happlied₂] at hbranch
      cases hbranch
  · rcases hcase₂ with ⟨hnoop₂, -⟩ | ⟨happlied₂, -, first₂, rest₂, hfirst₂, rfl⟩
    · rw [takesNoopBranch, takesNoopBranch, happlied₁, hnoop₂] at hbranch
      cases hbranch
    · -- two applied payments: the ids fix the amounts spent, hence the fee
      have hspent : coinTotal prevCoins = coinTotal otherCoins :=
        coinTotal_of_ids hids (coins_onChain_of_applied hsound h₁ happlied₁ hchain₁)
          (coins_onChain_of_applied hsound h₂ happlied₂ hchain₂) hcoins
      have hbalance₁ := hchecks₁.balance
      have hbalance₂ := hchecks₂.balance
      rw [hstate, hnewCoins, hspent] at hbalance₁
      have hfee : wLoc.fee = wOther.fee := UInt64.toNat_inj.mp (by omega)
      have hrest : rest₁ = rest₂ := by
        rw [hfirst₁, hfirst₂] at hnewCoins
        exact (List.cons.inj hnewCoins).2
      constructor <;> simp [appliedOutputs, hstate, hkey, hrest, hfee]

/-! ### Coins -/

/-- A minted coin carries the hash, the location and the value of its payment. -/
theorem Mints.coin_eq {coin : Coin Nav}
    (hinit : paymentInit P profile prevState prevCoins wLoc = .ok (some outputs))
    (h : Mints P outputs wFin coin) :
    coin = finalizedCoin outputs.1.partialOutput wFin coin.essence ∧
      (coin.essence ∈ outputs.1.coinEssences ∨
        coin.essence = ⟨wFin.feeAcctComm, outputs.2.fee, CoinEssence.FEE_IDX⟩) := by
  rcases h with ⟨newState, coins, hfin, hcoin⟩ | hfee
  · obtain ⟨-, hresult⟩ := paymentFinalize_eq_some_iff.mp hfin
    obtain ⟨-, rfl⟩ := Prod.mk.inj hresult
    obtain ⟨essence, hessence, rfl⟩ := List.mem_map.mp hcoin
    exact ⟨rfl, Or.inl hessence⟩
  · obtain ⟨-, rfl⟩ := paymentFinalizeFee_eq_some_iff.mp hfee
    rw [(paymentInit_partialOutput hinit).1]
    exact ⟨rfl, Or.inr rfl⟩

/-- Two coins of one outcome with one index are one coin. -/
theorem essence_of_idx (hinit : paymentInit P profile prevState prevCoins wLoc = .ok (some outputs))
    {essence other : CoinEssence} {fee : CoinEssence} (hfee : fee.idx = CoinEssence.FEE_IDX)
    (hessence : essence ∈ outputs.1.coinEssences ∨ essence = fee)
    (hother : other ∈ outputs.1.coinEssences ∨ other = fee) (hidx : essence.idx = other.idx) :
    essence = other := by
  have hnodup : ((outputs.1.coinEssences ++ [fee]).map CoinEssence.idx).Nodup := by
    rw [List.map_append, List.map_singleton, hfee]
    exact nodup_coinEssences_idcs hinit
  have hinj := (List.nodup_map_iff_inj_on (List.Nodup.of_map _ hnodup)).mp hnodup
  apply hinj
  · simpa using hessence
  · simpa using hother
  · exact hidx

/-- On the chain of a node, the payments of a coin's transaction are recorded alike. -/
theorem agree_of_minted (htexts : ReadableTexts P) (hmember : UnionMembershipSound P)
    (hsound : IsPrefixSound P) (hdistinct : DistinctElementSound P) (hindexed : Indexed node)
    (hfree : CollisionFree P profile issued graph)
    (hids : IdsIdentify node.nullifierAccum known)
    (h₁ : Paid P profile graph known prevState prevCoins wLoc outputs)
    (h₂ : Paid P profile graph known otherState otherCoins wOther others) {coin other : Coin Nav}
    (hmint₁ : Mints P outputs wFin coin) (hmint₂ : Mints P others wFinOther other)
    (hchain₁ : coin.nullifierAccum <+: node.nullifierAccum)
    (hchain₂ : other.nullifierAccum <+: node.nullifierAccum) (hid : coin.id = other.id) :
    coin.essence = other.essence ∧ coin.blockchainLoc = other.blockchainLoc := by
  obtain ⟨hcoin₁, hessence₁⟩ := hmint₁.coin_eq h₁.accepted
  obtain ⟨hcoin₂, hessence₂⟩ := hmint₂.coin_eq h₂.accepted
  obtain ⟨hhash, hidx⟩ := append_inj hid
  have hfin₁ : wFin.nullifierAccum <+: node.nullifierAccum := by
    rw [hcoin₁] at hchain₁
    exact hchain₁
  have hfin₂ : wFinOther.nullifierAccum <+: node.nullifierAccum := by
    rw [hcoin₂] at hchain₂
    exact hchain₂
  rw [hcoin₁, hcoin₂] at hhash
  obtain ⟨newBalance, hchecks₁, hchecks₂, htx⟩ := same_transaction htexts hfree h₁ h₂ hhash
  have houtcome := sameOutcome_of_transaction hsound hdistinct h₁ h₂ hchecks₁ hchecks₂ htx
    ((init_extends_of_finalizes hsound h₁.accepted hmint₁.finalizes).trans hfin₁)
    ((init_extends_of_finalizes hsound h₂.accepted hmint₂.finalizes).trans hfin₂) hids
  -- both payments spend one key, which the map records once
  have hkey : prevState.essence.nullifierPk = otherState.essence.nullifierPk :=
    congrArg (fun tx : Transaction Nav => tx.prevState.nullifierPk) htx
  have hentry₁ := lookup_of_finalizes hmember hindexed (.account h₁.accepted) hfin₁
    hmint₁.finalizes
  have hentry₂ := lookup_of_finalizes hmember hindexed (.account h₂.accepted) hfin₂
    hmint₂.finalizes
  rw [hkey, hentry₂, Option.some.injEq, NullifierKvEntry.mk.injEq] at hentry₁
  obtain ⟨-, hloc, hfeeAddress⟩ := hentry₁
  constructor
  · -- the outputs are the same lists, and the index picks the essence
    rw [← houtcome.coins, ← houtcome.fee, hfeeAddress] at hessence₂
    exact essence_of_idx h₁.accepted rfl hessence₁ hessence₂ hidx
  · -- the location is that of the entry of the key
    rw [hcoin₁, hcoin₂]
    exact hloc.symm

/-- A minted coin has not the id of an issued one. -/
theorem not_issued_of_minted (hfree : CollisionFree P profile issued graph)
    (hpaid : Paid P profile graph known prevState prevCoins wLoc outputs) {coin other : Coin Nav}
    (hmint : Mints P outputs wFin coin) (hother : other ∈ issued) : coin.id ≠ other.id := by
  intro hid
  obtain ⟨hcoin, -⟩ := hmint.coin_eq hpaid.accepted
  obtain ⟨hhash, -⟩ := append_inj hid
  rw [hcoin] at hhash
  exact hpaid.not_issued hfree hother hhash

variable [DecidableEq A]

/-- A coin made on known labels agrees with every known coin of its id. -/
theorem agree_of_complies (htexts : ReadableTexts P) (hmember : UnionMembershipSound P)
    (hsound : IsPrefixSound P) (hdistinct : DistinctElementSound P) (hindexed : Indexed node)
    (hgraph : PaymentGraph P profile issued graph known)
    (hfree : CollisionFree P profile issued graph)
    (hids : IdsIdentify node.nullifierAccum known) {coin other : Coin Nav}
    {input : LocalInput A Nav} {zIn : List (EdgeLabel A Nav)}
    (hcomplies : Complies P profile (.coin coin) input zIn)
    (hins : ∀ label ∈ zIn, label ∈ known) (hother : .coin other ∈ known)
    (hchain₁ : coin.nullifierAccum <+: node.nullifierAccum)
    (hchain₂ : other.nullifierAccum <+: node.nullifierAccum) (hid : coin.id = other.id) :
    coin.essence = other.essence ∧ coin.blockchainLoc = other.blockchainLoc := by
  obtain ⟨_, _, _, _, _, hpaid₁, hmint₁⟩ := minted_of_complies hgraph hcomplies hins
  rcases coin_origin hgraph hother with hissued | ⟨_, _, _, _, _, hpaid₂, hmint₂⟩
  · exact absurd hid (not_issued_of_minted hfree hpaid₁ hmint₁ hissued)
  · exact agree_of_minted htexts hmember hsound hdistinct hindexed hfree hids hpaid₁ hpaid₂ hmint₁
      hmint₂ hchain₁ hchain₂ hid

theorem idsIdentify_of_graph (htexts : ReadableTexts P) (hmember : UnionMembershipSound P)
    (hsound : IsPrefixSound P) (hdistinct : DistinctElementSound P) (hindexed : Indexed node)
    (hgraph : PaymentGraph P profile issued graph known)
    (hfree : CollisionFree P profile issued graph) :
    IdsIdentify node.nullifierAccum known := by
  induction hgraph with
  | start =>
    -- issued coins have their own ids
    intro coin other hcoin hother _ _ hid
    obtain ⟨found, hfound, hsame⟩ := List.mem_map.mp hcoin
    obtain rfl := EdgeLabel.coin.inj hsame
    obtain ⟨second, hsecond, hsame⟩ := List.mem_map.mp hother
    obtain rfl := EdgeLabel.coin.inj hsame
    rw [hfree.issued _ hfound _ hsecond hid]
    exact ⟨rfl, rfl⟩
  | snoc hgraph hlast ih =>
    have hinit := hfree.mono (List.subset_append_left _ _)
    have hids := ih hinit
    obtain ⟨hcomplies, hins, -⟩ := id hlast
    intro coin other hcoin hother hchain₁ hchain₂ hid
    rcases (mem_known_snoc hlast).mp hcoin with hcoin | hcoin <;>
      rcases (mem_known_snoc hlast).mp hother with hother | hother
    · exact hids coin other hcoin hother hchain₁ hchain₂ hid
    · -- the new label against an older one: the last vertex has just made it
      rw [← hother] at hcomplies
      obtain ⟨hessence, hloc⟩ := agree_of_complies htexts hmember hsound hdistinct hindexed hgraph
        hinit hids hcomplies hins hcoin hchain₂ hchain₁ hid.symm
      exact ⟨hessence.symm, hloc.symm⟩
    · rw [← hcoin] at hcomplies
      exact agree_of_complies htexts hmember hsound hdistinct hindexed hgraph hinit hids
        hcomplies hins hother hchain₁ hchain₂ hid
    · rw [← hother, EdgeLabel.coin.injEq] at hcoin
      rw [hcoin]
      exact ⟨rfl, rfl⟩

end Outcome

/-- The verifiers accept true statements only. -/
structure SoundVerifiers {A : Type} (P : Primitives A Nav) : Prop where
  unionMembership : UnionMembershipSound P
  isPrefix : IsPrefixSound P
  distinctElement : DistinctElementSound P

/-! ### A concrete graph -/

/-- Accumulator values can be numbered. -/
theorem exists_navCode : ∃ code : Nav → Nat, Function.Injective code := by
  have hbyte : Countable UInt8 :=
    Function.Injective.countable (f := UInt8.toNat) fun _ _ => UInt8.toNat_inj.mp
  have hkey : Countable PublicKey :=
    Function.Injective.countable (f := PublicKey.serialize) fun ⟨_⟩ ⟨_⟩ => congrArg PublicKey.mk
  have hcomm : Countable SigCommitment :=
    Function.Injective.countable (f := SigCommitment.bytes) fun ⟨_⟩ ⟨_⟩ => congrArg SigCommitment.mk
  have hfee : Countable Commitment :=
    Function.Injective.countable (f := Commitment.bytes) fun ⟨_⟩ ⟨_⟩ => congrArg Commitment.mk
  have helement : Countable ToSAccSetElement := inferInstance
  exact Countable.exists_injective_nat Nav

/-- A stand-in for the hash that is never zero. -/
def tallHash (data : List UInt8) : Bytes 32 :=
  beBytes 32 (2 ^ 255 + data.foldl (fun acc byte => acc * 257 + byte.toNat) 0 % 2 ^ 255)

theorem tallHash_ne_zero (data : List UInt8) : tallHash data ≠ zeroBytes 32 := by
  intro habs
  have hzero : zeroBytes 32 = beBytes 32 0 := rfl
  rw [tallHash, hzero, beBytes_inj] at habs
  omega

/-- The ideal verifiers, with texts that can be read back. -/
noncomputable def graphPrimitives : Primitives (Finset CoinIdOnChain) Nav :=
  { idealPrimitives with
    hash := tallHash
    debugNav := fun nav => debugNat (exists_navCode.choose nav) }

theorem graphPrimitives_sound : SoundVerifiers graphPrimitives where
  unionMembership := idealPrimitives_unionMembershipSound
  isPrefix := idealPrimitives_isPrefixSound
  distinctElement := idealPrimitives_distinctElementSound

theorem graphPrimitives_readable : ReadableTexts graphPrimitives where
  key := (readable_debugBytes 32).comp fun ⟨_⟩ ⟨_⟩ => congrArg PublicKey.mk
  nav := readable_debugNat.comp exists_navCode.choose_spec

/-- A coin of 5 for the account of the sample key. -/
noncomputable def issuedCoin : Coin Nav :=
  ⟨⟨Commitment.commit graphPrimitives sampleKey.serialize (zeroBytes 32), 5, beBytes 2 1⟩,
    zeroBytes 32, zeroBytes 6, []⟩

/-- The address of the coin that the sample payment outputs. -/
noncomputable def graphAddress : Commitment :=
  Commitment.commit graphPrimitives (zeroBytes 32) (zeroBytes 32)

/-- An account is opened with the issued coin; coins of 2 and 3 are committed, and the
    second one is output. -/
noncomputable def openingPayment : PaymentInitLocalInput (Finset CoinIdOnChain) Nav :=
  { idealPayment [] [] with
    acctCommRands := [zeroBytes 32]
    newCoins := [⟨⟨zeroBytes 32⟩, 2, beBytes 2 1⟩, ⟨graphAddress, 3, beBytes 2 2⟩]
    fee := 1
    newSpentAccum := {issuedCoin.onChainId}
    newNullifierPk := ⟨beBytes 32 2⟩ }

/-- The sample chain and one more block. -/
def longerChain : Nav := sampleChain ++ [∅]

noncomputable def openingOutputs : PaymentInitOutput (Finset CoinIdOnChain) Nav ×
    PaymentInitOutputFee Nav :=
  appliedOutputs (newacct graphPrimitives openingPayment) openingPayment 1
    (paymentInitPartial graphPrimitives (newacct graphPrimitives openingPayment) [issuedCoin]
      openingPayment 1) [⟨graphAddress, 3, beBytes 2 2⟩]

theorem issuedCoin_owned :
    ownsPrevCoins graphPrimitives sampleKey [issuedCoin] [zeroBytes 32] = true := by
  apply List.all_eq_true.mpr
  intro pair hpair
  obtain rfl := List.mem_singleton.mp hpair
  exact beq_iff_eq.mpr rfl

theorem openingPayment_checks :
    InitChecks graphPrimitives .debug (newacct graphPrimitives openingPayment) [issuedCoin]
      openingPayment 1 where
  owned := issuedCoin_owned
  newCoins_fit := by decide
  fee_le := by decide
  balance := rfl
  exact := fun _ => by decide
  unspent := rfl
  ordered := rfl

theorem openingPayment_accepted :
    paymentInitNewacct graphPrimitives .debug [issuedCoin] openingPayment =
      .ok (some openingOutputs) :=
  paymentInit_eq_some_iff.mpr ⟨1, openingPayment_checks,
    paymentInitOutputs_eq_some_iff.mpr ⟨rfl, Or.inr ⟨rfl, rfl, _, _, rfl, rfl⟩⟩⟩

/-- The output coin, finalized with the given value. -/
noncomputable def openedCoin (chain : Nav) : Coin Nav :=
  finalizedCoin openingOutputs.1.partialOutput (idealFinalize chain (locationBytes (2 ^ 24)))
    ⟨graphAddress, 3, beBytes 2 2⟩

/-- The payment, and its coin finalized with two values of one chain. -/
noncomputable def openingGraph : List (PaymentVertex (Finset CoinIdOnChain) Nav) :=
  [⟨.paymentInitOutput openingOutputs.1, .paymentInit openingPayment, [.coin issuedCoin]⟩,
   ⟨.coin (openedCoin sampleChain),
    .paymentFinalize (idealFinalize sampleChain (locationBytes (2 ^ 24))),
    [.paymentInitOutput openingOutputs.1]⟩,
   ⟨.coin (openedCoin longerChain),
    .paymentFinalize (idealFinalize longerChain (locationBytes (2 ^ 24))),
    [.paymentInitOutput openingOutputs.1]⟩]

noncomputable def openingKnown : List (EdgeLabel (Finset CoinIdOnChain) Nav) :=
  [.coin issuedCoin, .paymentInitOutput openingOutputs.1, .coin (openedCoin sampleChain),
   .coin (openedCoin longerChain)]

theorem openingGraph_compliant :
    PaymentGraph graphPrimitives .debug [issuedCoin] openingGraph openingKnown := by
  have hfin (chain : Nav) (hchain : paymentFinalizeInternal graphPrimitives
      openingOutputs.1.partialOutput (idealFinalize chain (locationBytes (2 ^ 24))) = true) :
      ∃ state, paymentFinalize graphPrimitives openingOutputs.1
        (idealFinalize chain (locationBytes (2 ^ 24))) = some (state, [openedCoin chain]) :=
    ⟨_, paymentFinalize_eq_some_iff.mpr ⟨hchain, rfl⟩⟩
  obtain ⟨_, hsample⟩ := hfin sampleChain rfl
  obtain ⟨_, hlonger⟩ := hfin longerChain rfl
  have hpays : Complies graphPrimitives .debug (.paymentInitOutput openingOutputs.1)
      (.paymentInit openingPayment) ([issuedCoin].map .coin) :=
    accepts_of_protocolEdge
      (.opening (List.cons_ne_nil _ _) openingPayment_accepted (Or.inl rfl))
  have hcoin₁ : Complies graphPrimitives .debug (.coin (openedCoin sampleChain)) _ _ :=
    accepts_of_protocolEdge (.finalization hsample (Or.inr ⟨_, List.mem_singleton_self _, rfl⟩))
  have hcoin₂ : Complies graphPrimitives .debug (.coin (openedCoin longerChain)) _ _ :=
    accepts_of_protocolEdge (.finalization hlonger (Or.inr ⟨_, List.mem_singleton_self _, rfl⟩))
  have hfirst : Extends (Complies graphPrimitives .debug) [.coin issuedCoin] openingGraph[0]
      (openingKnown.take 2) := ⟨hpays, by simp [openingGraph], rfl⟩
  have hsecond : Extends (Complies graphPrimitives .debug) (openingKnown.take 2) openingGraph[1]
      (openingKnown.take 3) := ⟨hcoin₁, by simp [openingGraph, openingKnown], rfl⟩
  have hthird : Extends (Complies graphPrimitives .debug) (openingKnown.take 3) openingGraph[2]
      openingKnown := ⟨hcoin₂, by simp [openingGraph, openingKnown], rfl⟩
  exact Run.snoc (Run.snoc (Run.snoc Run.start hfirst) hsecond) hthird

theorem openingGraph_hashes {v : PaymentVertex (Finset CoinIdOnChain) Nav} (hv : v ∈ openingGraph)
    {text : List UInt8} (h : Hashes graphPrimitives .debug v text) :
    v.input = .paymentInit openingPayment ∧ v.ins = [.coin issuedCoin] := by
  obtain ⟨wLoc, hinput⟩ := h.input
  simp only [openingGraph, List.mem_cons, List.not_mem_nil, or_false] at hv
  rcases hv with rfl | rfl | rfl
  · exact ⟨rfl, rfl⟩
  · cases hinput
  · cases hinput

theorem openingGraph_collisionFree :
    CollisionFree graphPrimitives .debug [issuedCoin] openingGraph where
  payments v hv u hu text other htext hother _ := by
    obtain ⟨hinput, hins⟩ := openingGraph_hashes hv htext
    obtain ⟨hinput', hins'⟩ := openingGraph_hashes hu hother
    exact htext.unique hother (hinput.trans hinput'.symm) (hins.trans hins'.symm)
  fresh v hv text htext coin hcoin := by
    rw [List.mem_singleton.mp hcoin]
    exact tallHash_ne_zero text
  issued coin hcoin other hother _ := by
    rw [List.mem_singleton.mp hcoin, List.mem_singleton.mp hother]

/-- The backend that accepts the labels of the graph. -/
noncomputable def graphPcd : PcdBackend (Finset CoinIdOnChain) Nav where
  ProvKey := Unit
  VerKey := Unit
  keygen := ((), ())
  prove _ z _ _ _ := if z ∈ openingKnown then .ok [] else .error (.proveFailed "not compliant")
  verify _ z _ := .ok (decide (z ∈ openingKnown))

/-- A node after a block that publishes the sample key and an empty one. -/
theorem graphNode_run : ∃ node : MixerNode graphPcd Nav,
    Run (BlockStep graphPrimitives .ideal .debug)
        (MixerNode.new .ideal MixerConfig.default (WalletState.new []))
        [(1, [sampleAggregate [sampleKey]]), (2, [])] node ∧
      node.nullifierAccum = longerChain ∧
      node.wallet.nullifierAccumHistory = [[], sampleChain, longerChain] ∧
      node.wallet.alreadyReceivedIds = [] := by
  obtain ⟨first, second, hfirst, hsecond, hrest⟩ : ∃ first second : MixerNode graphPcd Nav,
      BlockStep graphPrimitives .ideal .debug
          (MixerNode.new .ideal MixerConfig.default (WalletState.new []))
          (1, [sampleAggregate [sampleKey]]) first ∧
        BlockStep graphPrimitives .ideal .debug first (2, []) second ∧
        second.nullifierAccum = longerChain ∧
        second.wallet.nullifierAccumHistory = [[], sampleChain, longerChain] ∧
        second.wallet.alreadyReceivedIds = [] :=
    ⟨_, _, rfl, rfl, rfl, rfl, rfl⟩
  exact ⟨second, Run.snoc (Run.snoc Run.start hfirst) hsecond, hrest⟩

/-! ### On the chain of a node -/

theorem inHistory_iff {A V M : Type} [DecidableEq V] {B : PcdBackend A V} {node : MixerNode B M}
    {coin : Coin V} :
    inHistory node coin = true ↔ coin.nullifierAccum ∈ node.wallet.nullifierAccumHistory :=
  decide_eq_true_iff

section Chain

variable {A : Type} [DecidableEq A] {B : PcdBackend A Nav}

omit [DecidableEq A] in
/-- A run of blocks is a run of the node. -/
theorem nodeRun_of_blocks {P : Primitives A Nav} {profile : Profile}
    {start node : MixerNode B Nav} {blocks : List Block}
    (hrun : Run (BlockStep P .ideal profile) start blocks node) :
    ∃ events, Run (NodeStep P .ideal profile) start events node := by
  induction hrun with
  | start => exact ⟨[], Run.start⟩
  | @snoc _ node next block _ hlast ih =>
    obtain ⟨events, hevents⟩ := ih
    have hevent : NodeStep P .ideal profile node (.connected block (currentNav .ideal next))
        next := ⟨hlast, rfl⟩
    exact ⟨_, Run.snoc hevents hevent⟩

/-- **Coin ids.**  In a graph of compliant payments, two coins on the chain of a node
    with one id have one amount, one address and one location, so one on-chain id. -/
theorem coinIds_identify (P : Primitives A Nav) (profile : Profile)
    (hverifiers : SoundVerifiers P) (htexts : ReadableTexts P) (config : MixerConfig)
    (wallet : WalletState A Nav) (events : List (NodeEvent Nav)) (node : MixerNode B Nav)
    (hrun : Run (NodeStep P .ideal profile) (MixerNode.new .ideal config wallet) events node)
    (issued : List (Coin Nav)) (graph : List (PaymentVertex A Nav))
    (known : List (EdgeLabel A Nav)) (hgraph : PaymentGraph P profile issued graph known)
    (hfree : CollisionFree P profile issued graph) (coin other : Coin Nav)
    (hcoin : .coin coin ∈ known) (hother : .coin other ∈ known)
    (hchain₁ : coin.nullifierAccum <+: node.nullifierAccum)
    (hchain₂ : other.nullifierAccum <+: node.nullifierAccum) (hid : coin.id = other.id) :
    coin.essence = other.essence ∧ coin.onChainId = other.onChainId := by
  have hids := idsIdentify_of_graph htexts hverifiers.unionMembership hverifiers.isPrefix
    hverifiers.distinctElement (indexed_run hrun) hgraph hfree
  obtain ⟨hessence, hloc⟩ := hids coin other hcoin hother hchain₁ hchain₂ hid
  refine ⟨hessence, ?_⟩
  rw [Coin.onChainId, Coin.onChainId, hessence, hloc]

/-- The coin of the sample payment, finalized against the chain as it was and as it is. -/
theorem openedCoin_identified : ∃ node : MixerNode graphPcd Nav,
    (openedCoin sampleChain).id = (openedCoin longerChain).id ∧
      openedCoin sampleChain ≠ openedCoin longerChain ∧
      longerChain <+: node.nullifierAccum ∧
      (openedCoin sampleChain).onChainId = (openedCoin longerChain).onChainId := by
  obtain ⟨node, hrun, hchain, -⟩ := graphNode_run
  obtain ⟨events, hevents⟩ := nodeRun_of_blocks hrun
  have hprefix : sampleChain <+: node.nullifierAccum := hchain ▸ List.prefix_append _ _
  have hwhole : longerChain <+: node.nullifierAccum := hchain ▸ List.prefix_refl _
  have hidentified := coinIds_identify graphPrimitives .debug graphPrimitives_sound
    graphPrimitives_readable _ _ events node hevents [issuedCoin] openingGraph openingKnown
    openingGraph_compliant openingGraph_collisionFree (openedCoin sampleChain)
    (openedCoin longerChain) (by simp [openingKnown]) (by simp [openingKnown]) hprefix hwhole rfl
  refine ⟨node, rfl, ?_, hwhole, hidentified.2⟩
  intro habs
  have hnav : sampleChain = longerChain := congrArg Coin.nullifierAccum habs
  exact absurd (congrArg List.length hnav) (by decide)

/-! ### Accepted payments -/

/-- Every value the node trusts is a prefix of its chain. -/
def TrustsOwnChain (node : MixerNode B Nav) : Prop :=
  ∀ value ∈ node.wallet.nullifierAccumHistory, value <+: node.nullifierAccum

omit [DecidableEq A] in
theorem trustsOwnChain_blockStep {P : Primitives A Nav} {profile : Profile}
    {node next : MixerNode B Nav} {block : Block} (htrusts : TrustsOwnChain node)
    (h : BlockStep P .ideal profile node block next) : TrustsOwnChain next := by
  obtain ⟨msg, nullifierAccum, hmsg, happend, hnext⟩ := blockStep_cases h
  have hextends : node.nullifierAccum <+: next.nullifierAccum := by
    rw [nullifierAccum_blockStep h hmsg]
    exact List.prefix_append _ _
  have hhistory : next.wallet.nullifierAccumHistory ⊆
      node.wallet.nullifierAccumHistory ++ [next.nullifierAccum] := by
    rw [hnext, MixerNode.connect, WalletState.nullifierAccumHistory_recordNullifierAccum]
    split
    · exact List.subset_append_left _ _
    · exact List.Subset.refl _
  intro value hvalue
  rcases List.mem_append.mp (hhistory hvalue) with hold | hnew
  · exact (htrusts value hold).trans hextends
  · rw [List.mem_singleton.mp hnew]

/-- **Accepted coins.**  A node that has only connected blocks, with a backend that
    accepts only labels of one graph, never accepts two amounts for one coin id, and
    the two coins have one on-chain id: what it holds already, it refuses. -/
theorem acceptedCoins_identified (P : Primitives A Nav) (profile : Profile)
    (hverifiers : SoundVerifiers P) (htexts : ReadableTexts P) (config : MixerConfig)
    (blocks : List Block) (node : MixerNode B Nav)
    (hrun : Run (BlockStep P .ideal profile)
      (MixerNode.new .ideal config (WalletState.new [])) blocks node)
    (issued : List (Coin Nav)) (graph : List (PaymentVertex A Nav))
    (known : List (EdgeLabel A Nav)) (hgraph : PaymentGraph P profile issued graph known)
    (hfree : CollisionFree P profile issued graph)
    (hbackend : ∀ vk z proof, B.verify vk z proof = .ok true → z ∈ known)
    (coin other : Coin Nav) (coinProof otherProof : List UInt8)
    (acctIdBytes pkCommitRand otherIdBytes otherRand : Bytes 32) (amount otherAmount : UInt64)
    (haccept₁ : acceptPayment P node coin coinProof acctIdBytes pkCommitRand = .ok amount)
    (haccept₂ : acceptPayment P node other otherProof otherIdBytes otherRand = .ok otherAmount)
    (hid : coin.id = other.id) :
    amount = otherAmount ∧ coin.essence = other.essence ∧
      ∀ (holder : MixerNode B Nav) proof, coin.onChainId ∈ holder.wallet.alreadyReceivedIds →
        acceptPayment P holder other proof otherIdBytes otherRand = .error .paymentRejected := by
  obtain ⟨events, hevents⟩ := nodeRun_of_blocks hrun
  have hindexed := indexed_run hevents
  have htrusts : TrustsOwnChain node := by
    -- `accept_payment` trusts the values of the history, all prefixes of the chain
    apply hrun.invariant (fun _ _ _ htrusts hstep => trustsOwnChain_blockStep htrusts hstep)
    intro value hvalue
    rw [List.mem_singleton.mp hvalue]
    exact List.nil_prefix
  obtain ⟨-, -, hhistory₁, hverify₁, rfl⟩ := acceptPayment_eq_ok_iff.mp haccept₁
  obtain ⟨-, -, hhistory₂, hverify₂, rfl⟩ := acceptPayment_eq_ok_iff.mp haccept₂
  have hids := idsIdentify_of_graph htexts hverifiers.unionMembership hverifiers.isPrefix
    hverifiers.distinctElement hindexed hgraph hfree
  rw [inHistory_iff] at hhistory₁ hhistory₂
  obtain ⟨hessence, hloc⟩ := hids coin other (hbackend _ _ _ hverify₁) (hbackend _ _ _ hverify₂)
    (htrusts _ hhistory₁) (htrusts _ hhistory₂) hid
  refine ⟨by rw [hessence], hessence, ?_⟩
  intro holder proof hheld
  have honChain : coin.onChainId = other.onChainId := by
    rw [Coin.onChainId, Coin.onChainId, hessence, hloc]
  rw [honChain] at hheld
  cases haccept : acceptPayment P holder other proof otherIdBytes otherRand with
  | error error => rw [acceptPayment_error haccept]
  | ok amount => exact absurd hheld (acceptPayment_eq_ok_iff.mp haccept).2.1

theorem graphPcd_verify {vk : graphPcd.VerKey} {z : EdgeLabel (Finset CoinIdOnChain) Nav}
    {proof : List UInt8} : graphPcd.verify vk z proof = .ok true ↔ z ∈ openingKnown := by
  change Except.ok (decide (z ∈ openingKnown)) = Except.ok true ↔ _
  rw [Except.ok.injEq, decide_eq_true_iff]

/-- A node accepts both coins of the sample payment, and once it holds the first one it
    refuses the second. -/
theorem openedCoin_accepted : ∃ (node : MixerNode graphPcd Nav) (poolCoin : PoolCoin Nav),
    acceptPayment graphPrimitives node (openedCoin sampleChain) [] (zeroBytes 32)
        (zeroBytes 32) = .ok 3 ∧
      acceptPayment graphPrimitives node (openedCoin longerChain) [] (zeroBytes 32)
        (zeroBytes 32) = .ok 3 ∧
      acceptPayment graphPrimitives
        { node with wallet := node.wallet.addUnspentCoin poolCoin }
        (openedCoin longerChain) [] (zeroBytes 32) (zeroBytes 32) = .error .paymentRejected := by
  obtain ⟨node, hrun, hchain, hhistory, hreceived⟩ := graphNode_run
  have haccept (chain : Nav) (hmem : chain ∈ [[], sampleChain, longerChain])
      (hknown : .coin (openedCoin chain) ∈ openingKnown) :
      acceptPayment graphPrimitives node (openedCoin chain) [] (zeroBytes 32) (zeroBytes 32) =
        .ok 3 := by
    refine acceptPayment_eq_ok_iff.mpr ⟨rfl, ?_, ?_, graphPcd_verify.mpr hknown, rfl⟩
    · rw [hreceived]
      exact List.not_mem_nil
    · rw [inHistory_iff, hhistory]
      exact hmem
  have hsample := haccept sampleChain (by simp) (by simp [openingKnown])
  have hlonger := haccept longerChain (by simp) (by simp [openingKnown])
  let poolCoin : PoolCoin Nav := ⟨openedCoin sampleChain, [], Uuid.nil⟩
  refine ⟨node, poolCoin, hsample, hlonger, ?_⟩
  have hrefuses := (acceptedCoins_identified graphPrimitives .debug graphPrimitives_sound
    graphPrimitives_readable _ _ node hrun [issuedCoin] openingGraph openingKnown
    openingGraph_compliant openingGraph_collisionFree (fun _ _ _ => graphPcd_verify.mp) _ _ _ _ _ _
    _ _ _ _ hsample hlonger rfl).2.2
  apply hrefuses
  rw [WalletState.alreadyReceivedIds_addUnspentCoin]
  exact List.mem_append_right _ (List.mem_singleton_self _)

end Chain

end PartyMix
