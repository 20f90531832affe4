import PartyMix.ChainValue
import PartyMix.Lib.PlainLedger

/-!
# The chain as a plain ledger

Payments are proved off the chain, each against the coins and the state that its prover
knows, and a block publishes no more of them than a nullifier.  Still, the settled
payments of a graph are a run of a plain ledger.  One of each key, in the order in which
the graph first proves them, they start from the current state of their account, take
live coins, make coins that have never been there and leave no more than they take.
What the ledger says of a state or a coin is what the chain shows, and a longer chain
only appends to it.
-/

namespace PartyMix

open ChainPrefix DebugText FixedBytes MachineWord PlainLedger ProofGraph Transition

/-! ### Payments as postings -/

namespace Payment

variable {A V : Type}

def txHash (payment : Payment A V) : Bytes 32 := payment.outputs.1.partialOutput.txHash

/-- The ids and the amounts of the output coins and of the fee coin. -/
def madeCoins (payment : Payment A V) : List (CoinId × UInt64) :=
  (payment.outputs.1.coinEssences.map fun essence =>
      (payment.txHash ++ essence.idx, essence.amount)) ++
    [(payment.txHash ++ CoinEssence.FEE_IDX, payment.outputs.2.fee)]

def entry (P : Primitives A V) (payment : Payment A V) :
    Entry PublicKey AcctStateEssence CoinId UInt64 where
  account := payment.acctId
  before := payment.prevState.essence
  after := payment.newState
  taken := (payment.spentCoins P).map fun coin => (coin.id, coin.essence.amount)
  made := payment.madeCoins

theorem mem_takenIds {P : Primitives A V} {payment : Payment A V} {id : CoinId} :
    id ∈ (payment.entry P).taken.map Prod.fst ↔ ∃ coin ∈ payment.spentCoins P, coin.id = id := by
  simp [entry]

/-- An id that a payment makes starts with its transaction hash. -/
theorem txHash_of_mem_madeCoins {payment : Payment A V} {made : CoinId × UInt64}
    (h : made ∈ payment.madeCoins) : ∃ idx : Bytes 2, made.1 = payment.txHash ++ idx := by
  rcases List.mem_append.mp h with hcoin | hfee
  · obtain ⟨essence, -, rfl⟩ := List.mem_map.mp hcoin
    exact ⟨essence.idx, rfl⟩
  · rw [List.mem_singleton.mp hfee]
    exact ⟨CoinEssence.FEE_IDX, rfl⟩

theorem Yields.mem_madeCoins {payment : Payment A V} {coin : Coin V} (h : payment.Yields coin) :
    (coin.id, coin.essence.amount) ∈ payment.madeCoins := by
  rcases h with ⟨hessence, hid⟩ | ⟨hamount, hid⟩
  · rw [hid]
    exact List.mem_append_left _ (List.mem_map_of_mem hessence)
  · rw [hid, hamount]
    exact List.mem_append_right _ (List.mem_singleton_self _)

end Payment

/-- A posting in the terms of the protocol: states are worth their balance. -/
abbrev PostsPayment :=
  Posts (K := PublicKey) (I := CoinId) (fun state : AcctStateEssence => state.balance.toNat)
    UInt64.toNat

/-- Before any payment the issued coins are live, and an account has the state that
    `newacct` opens it with. -/
def openedLedger {V : Type} (issued : List (Coin V)) :
    Ledger PublicKey AcctStateEssence CoinId UInt64 :=
  opened (fun id => ⟨id, 0, id⟩) (issued.map fun coin => (coin.id, coin.essence.amount))

variable {P : Primitives (Finset CoinIdOnChain) Nav} {profile : Profile}
  {B : PcdBackend (Finset CoinIdOnChain) Nav} {issued : List (Coin Nav)}
  {graph larger : List (PaymentVertex (Finset CoinIdOnChain) Nav)}
  {known wider : List (EdgeLabel (Finset CoinIdOnChain) Nav)} {node : MixerNode B Nav}
  {chain longer : Nav} {payment other : Payment (Finset CoinIdOnChain) Nav}
  {payments : List (Payment (Finset CoinIdOnChain) Nav)}
  {ledger : Ledger PublicKey AcctStateEssence CoinId UInt64}

/-- Every settled payment opens the coins it spends, starts a no-op from its chain, and
    drops two fees. -/
structure Accountable (P : Primitives (Finset CoinIdOnChain) Nav) (profile : Profile)
    (graph : List (PaymentVertex (Finset CoinIdOnChain) Nav))
    (known : List (EdgeLabel (Finset CoinIdOnChain) Nav)) (chain : Nav) : Prop where
  careful : Careful P profile graph known chain
  addresses : AddressesBind P profile graph known chain
  value : ∀ payment, Settled P profile graph known chain payment → AddsNoValue P payment

/-- Settled payments of different keys, in an order in which a plain ledger posts them. -/
structure Posted (P : Primitives (Finset CoinIdOnChain) Nav) (profile : Profile)
    (issued : List (Coin Nav)) (graph : List (PaymentVertex (Finset CoinIdOnChain) Nav))
    (known : List (EdgeLabel (Finset CoinIdOnChain) Nav)) (chain : Nav)
    (payments : List (Payment (Finset CoinIdOnChain) Nav))
    (ledger : Ledger PublicKey AcctStateEssence CoinId UInt64) : Prop where
  run : Run PostsPayment (openedLedger issued) (payments.map (Payment.entry P)) ledger
  settled : ∀ payment ∈ payments, Settled P profile graph known chain payment
  once : (payments.map Payment.key).Nodup

/-- A payment of every key that a settled payment spends is among the payments. -/
def Covers (P : Primitives (Finset CoinIdOnChain) Nav) (profile : Profile)
    (graph : List (PaymentVertex (Finset CoinIdOnChain) Nav))
    (known : List (EdgeLabel (Finset CoinIdOnChain) Nav)) (chain : Nav)
    (payments : List (Payment (Finset CoinIdOnChain) Nav)) : Prop :=
  ∀ payment, Settled P profile graph known chain payment →
    ∃ kept ∈ payments, kept.key = payment.key

theorem Settled.mono (hgraph : graph ⊆ larger) (hknown : known ⊆ wider) (hchain : chain <+: longer)
    (h : Settled P profile graph known chain payment) :
    Settled P profile larger wider longer payment := by
  obtain ⟨v, hv, hpays⟩ := h.paid.vertex
  obtain ⟨wFin, hfin, hprefix⟩ := h.finalized
  exact ⟨⟨⟨v, hgraph hv, hpays⟩, h.paid.accepted,
    fun coin hcoin => hknown (h.paid.coins coin hcoin)⟩, wFin, hfin, hprefix.trans hchain⟩

theorem Accountable.mono (hgraph : graph ⊆ larger) (hknown : known ⊆ wider)
    (hchain : chain <+: longer) (h : Accountable P profile larger wider longer) :
    Accountable P profile graph known chain where
  careful :=
    ⟨fun payment hsettled => h.careful.owned payment (hsettled.mono hgraph hknown hchain),
      fun payment hsettled => h.careful.noop payment (hsettled.mono hgraph hknown hchain)⟩
  addresses payment other hsettled hother := h.addresses payment other
    (hsettled.mono hgraph hknown hchain) (hother.mono hgraph hknown hchain)
  value payment hsettled := h.value payment (hsettled.mono hgraph hknown hchain)

theorem Posted.mono (hgraph : graph ⊆ larger) (hknown : known ⊆ wider) (hchain : chain <+: longer)
    (h : Posted P profile issued graph known chain payments ledger) :
    Posted P profile issued larger wider longer payments ledger where
  run := h.run
  settled payment hmem := (h.settled payment hmem).mono hgraph hknown hchain
  once := h.once

/-- A payment of a graph with one more vertex is one of the graph, or that vertex. -/
theorem Settled.of_snoc {v : PaymentVertex (Finset CoinIdOnChain) Nav}
    (hgraph : PaymentGraph P profile issued graph known)
    (h : Settled P profile (graph ++ [v]) wider chain payment) :
    Settled P profile graph known chain payment ∨
      Pays P v payment.prevState payment.prevCoins payment.init := by
  obtain ⟨u, hu, hpays⟩ := h.paid.vertex
  rcases List.mem_append.mp hu with hold | hnew
  · obtain ⟨-, hinputs, -⟩ := hgraph.complies_of_mem hold
    exact Or.inl ⟨⟨⟨u, hold, hpays⟩, h.paid.accepted,
      fun coin hcoin => hinputs _ (hpays.coin_mem hcoin)⟩, h.finalized⟩
  · rw [List.mem_singleton.mp hnew] at hpays
    exact Or.inr hpays

/-! ### What a ledger says about the graph it covers

The payments are settled in a whole graph, `larger`, and cover the part of it that has
been read, `graph`. -/

/-- A state that a settled payment left, or that opens an account, is the current one of
    the account as long as no payment has spent its key. -/
theorem Posted.account_eq (hspent : NonMembershipSound P)
    (hwhole : ReadOnChain P profile issued larger wider node) (hgraph : graph ⊆ larger)
    (hknown : known ⊆ wider)
    (h : Posted P profile issued larger wider node.nullifierAccum payments ledger)
    (hcovers : Covers P profile graph known node.nullifierAccum payments)
    {state : AcctStateEssence}
    (hsource : state = ⟨state.id, 0, state.id⟩ ∨
      ∃ source, Settled P profile graph known node.nullifierAccum source ∧
        source.newState = state)
    (hunused : ∀ payment ∈ payments, payment.key ≠ state.nullifierPk) :
    ledger.account state.id = state := by
  have hcurrent : Current (payments.map (Payment.entry P)) ledger state.id state := by
    rcases hsource with hopened | ⟨source, hsource, rfl⟩
    · -- the payment opens the account, which the ledger has never moved
      have hstart := current_of_start h.run state.id
      exact hopened ▸ hstart
    · -- a settled payment left the state; the ledger has one with the same key, hence with the same
      -- outcome
      obtain ⟨kept, hmem, hkey⟩ := hcovers source hsource
      have hkept := h.settled kept hmem
      have houtcome := hkept.sameOutcome hwhole
        (hsource.mono hgraph hknown (List.prefix_refl _)) hkey
      have hstate : kept.newState = source.newState := houtcome.state
      obtain ⟨hid, -⟩ := hkept.newState hspent
      rw [← hstate, hid]
      exact current_of_after h.run (List.mem_map_of_mem hmem)
  rcases hcurrent with hstate | ⟨_, hentry, -, hbefore⟩
  · exact hstate
  · -- a later entry moved the account on, so it spends the key of the state
    obtain ⟨spender, hspender, rfl⟩ := List.mem_map.mp hentry
    exact absurd (congrArg AcctStateEssence.nullifierPk hbefore) (hunused spender hspender)

/-- A coin on the chain is live until one of the payments takes it. -/
theorem Posted.coin_live (hwhole : ReadOnChain P profile issued larger wider node)
    (hgraph : graph ⊆ larger) (hknown : known ⊆ wider)
    (hread : ReadOnChain P profile issued graph known node)
    (h : Posted P profile issued larger wider node.nullifierAccum payments ledger)
    (hcovers : Covers P profile graph known node.nullifierAccum payments)
    {coin : Coin Nav} (hcoin : .coin coin ∈ known)
    (hchain : coin.nullifierAccum <+: node.nullifierAccum)
    (hunspent : ∀ payment ∈ payments, ∀ spent ∈ payment.spentCoins P, spent.id ≠ coin.id) :
    ledger.coin coin.id = .live coin.essence.amount := by
  have hcirculates : Circulates (payments.map (Payment.entry P)) ledger
      (coin.id, coin.essence.amount) := by
    rcases source_of_coin hread hcoin hchain with hissued | ⟨source, hsource, hyields⟩
    · -- the ledger opens with the issued coins, whose ids differ
      apply circulates_of_start h.run
      apply opened_live ?_ (List.mem_map_of_mem hissued)
      intro one hone two htwo hid
      obtain ⟨first, hfirst, rfl⟩ := List.mem_map.mp hone
      obtain ⟨second, hsecond, rfl⟩ := List.mem_map.mp htwo
      rw [hread.collisionFree.issued first hfirst second hsecond hid]
    · -- a settled payment made the coin, and so did the one the ledger has for its key
      obtain ⟨kept, hmem, hkey⟩ := hcovers source hsource
      have hmakes := (h.settled kept hmem).yields_of_key hwhole
        (hsource.mono hgraph hknown (List.prefix_refl _)) hkey hyields
      exact circulates_of_made h.run (List.mem_map_of_mem hmem) hmakes.mem_madeCoins
  rcases hcirculates with hlive | ⟨-, _, hentry, htaken⟩
  · exact hlive
  · -- an entry took the id
    obtain ⟨spender, hspender, rfl⟩ := List.mem_map.mp hentry
    obtain ⟨spent, hmem, hid⟩ := Payment.mem_takenIds.mp htaken
    exact absurd hid (hunspent spender hspender spent hmem)

/-! ### One more payment -/

/-- One transaction hash is one transaction, which names the key it spends. -/
theorem key_eq_of_txHash (hread : ReadOnChain P profile issued graph known node)
    (h : payment.PaidIn P profile graph known) (hother : other.PaidIn P profile graph known)
    (hhash : payment.txHash = other.txHash) : payment.key = other.key := by
  obtain ⟨newBalance, -, -, htx⟩ := same_transaction hread.texts hread.collisionFree h hother hhash
  exact congrArg (fun tx : Transaction Nav => tx.prevState.nullifierPk) htx

theorem not_issued_of_madeCoins (hread : ReadOnChain P profile issued graph known node)
    (h : payment.PaidIn P profile graph known) {made : CoinId × UInt64}
    (hmade : made ∈ payment.madeCoins) : ∀ coin ∈ issued, coin.id ≠ made.1 := by
  intro coin hcoin hid
  obtain ⟨idx, hstart⟩ := Payment.txHash_of_mem_madeCoins hmade
  obtain ⟨hhash, -⟩ := append_inj (hid.trans hstart)
  exact h.not_issued hread.collisionFree hcoin hhash.symm

theorem nodup_madeIds (haccepted : paymentInit P profile payment.prevState payment.prevCoins
    payment.init = .ok (some payment.outputs)) : (payment.madeCoins.map Prod.fst).Nodup := by
  have hidcs := nodup_coinEssences_idcs haccepted
  have hinj : Function.Injective fun idx : Bytes 2 => payment.txHash ++ idx :=
    fun _ _ hsame => (append_inj hsame).2
  have hids := hidcs.map hinj
  rw [List.map_append, List.map_map, List.map_singleton] at hids
  rw [Payment.madeCoins, List.map_append, List.map_map]
  exact hids

theorem nodup_takenIds (hspent : NonMembershipSound P)
    (hread : ReadOnChain P profile issued graph known node)
    (hacc : Accountable P profile graph known node.nullifierAccum)
    (h : Settled P profile graph known node.nullifierAccum payment) :
    ((payment.entry P).taken.map Prod.fst).Nodup := by
  obtain ⟨-, hnodup, -⟩ := h.newState hspent
  have hids : ((payment.spentCoins P).map Coin.id).Nodup := by
    apply (List.Nodup.of_map _ hnodup).map_on
    intro coin hcoin other hother hid
    exact h.coin_eq_of_spent hread hspent hacc.careful hacc.addresses hcoin hother hid
  simpa [Payment.entry, Function.comp_def] using hids

/-- A coin that a payment of a new key makes has never been on the ledger. -/
theorem Posted.coin_unborn (hwhole : ReadOnChain P profile issued larger wider node)
    (h : Posted P profile issued larger wider node.nullifierAccum payments ledger)
    (hpaid : payment.PaidIn P profile larger wider)
    (hfresh : ∀ kept ∈ payments, kept.key ≠ payment.key) {made : CoinId × UInt64}
    (hmade : made ∈ payment.madeCoins) : ledger.coin made.1 = .unborn := by
  apply unborn_of_run h.run
  · apply opened_unborn
    intro habs
    obtain ⟨_, hissued, hid⟩ := List.mem_map.mp habs
    obtain ⟨coin, hcoin, rfl⟩ := List.mem_map.mp hissued
    exact not_issued_of_madeCoins hwhole hpaid hmade coin hcoin hid
  · intro entry hentry habs
    obtain ⟨kept, hmem, rfl⟩ := List.mem_map.mp hentry
    obtain ⟨other, hother, hid⟩ := List.mem_map.mp habs
    obtain ⟨idx, hstart⟩ := Payment.txHash_of_mem_madeCoins hmade
    obtain ⟨otherIdx, hstart'⟩ := Payment.txHash_of_mem_madeCoins hother
    obtain ⟨hhash, -⟩ := append_inj (hstart'.symm.trans (hid.trans hstart))
    exact hfresh kept hmem (key_eq_of_txHash hwhole (h.settled kept hmem).paid hpaid hhash)

theorem entry_value (h : payment.left ≤ payment.taken P) :
    payment.newState.balance.toNat + (payment.madeCoins.map fun coin => coin.2.toNat).sum ≤
      payment.prevState.essence.balance.toNat +
        ((payment.entry P).taken.map fun coin => coin.2.toNat).sum := by
  have hmade : (payment.madeCoins.map fun coin => coin.2.toNat).sum =
      essenceTotal payment.outputs.1.coinEssences + payment.outputs.2.fee.toNat := by
    simp [Payment.madeCoins, essenceTotal, Function.comp_def]
  have htaken : ((payment.entry P).taken.map fun coin => coin.2.toNat).sum =
      coinTotal (payment.spentCoins P) := by
    simp [Payment.entry, coinTotal, essenceTotal, Function.comp_def]
  rw [hmade, htaken]
  exact h

/-- **The step.**  A settled payment of a new key, whose vertex takes labels of the graph
    that is covered, is posted. -/
theorem Posted.posts (hspent : NonMembershipSound P)
    (hwhole : ReadOnChain P profile issued larger wider node)
    (hacc : Accountable P profile larger wider node.nullifierAccum)
    (hgraph : graph ⊆ larger) (hknown : known ⊆ wider)
    (hread : ReadOnChain P profile issued graph known node)
    (h : Posted P profile issued larger wider node.nullifierAccum payments ledger)
    (hcovers : Covers P profile graph known node.nullifierAccum payments)
    (hsettled : Settled P profile larger wider node.nullifierAccum payment)
    {v : PaymentVertex (Finset CoinIdOnChain) Nav}
    (hpays : Pays P v payment.prevState payment.prevCoins payment.init)
    (hins : ∀ label ∈ v.ins, label ∈ known)
    (hfresh : ∀ kept ∈ payments, kept.key ≠ payment.key) :
    PostsPayment ledger (payment.entry P) (ledger.post (payment.entry P)) where
  current := by
    -- the state was left by a settled payment, or opens the account
    have hchain := hsettled.prevState_onChain hacc.careful hwhole.verifiers.isPrefix
    apply h.account_eq hspent hwhole hgraph hknown hcovers ?_ hfresh
    generalize payment.prevState = prevState, payment.prevCoins = prevCoins, payment.init = init
      at hpays hchain
    -- `payment_init_newacct` starts from the state of an account that nothing has used
    cases hpays with
    | account => exact Or.inr (settled_of_state hread (hins _ List.mem_cons_self) hchain)
    | newacct => exact Or.inl rfl
  taken taken htaken := by
    obtain ⟨coin, hcoin, rfl⟩ := List.mem_map.mp htaken
    obtain ⟨-, hchain⟩ := hsettled.spentCoins_onChain hwhole.verifiers.isPrefix coin hcoin
    obtain ⟨-, hprev⟩ := Payment.mem_spentCoins.mp hcoin
    apply h.coin_live hwhole hgraph hknown hread hcovers (hins _ (hpays.coin_mem hprev)) hchain
    intro kept hmem spent hspends hid
    -- two settled payments that spend one coin spend one key, and the ledger has no entry of it
    exact hfresh kept hmem ((h.settled kept hmem).key_eq_of_spent hwhole hspent hacc.careful
      hacc.addresses hsettled hspends hcoin hid)
  takenOnce := nodup_takenIds hspent hwhole hacc hsettled
  made _ hmade := h.coin_unborn hwhole hsettled.paid hfresh hmade
  madeOnce := nodup_madeIds hsettled.paid.accepted
  value := entry_value (hsettled.left_le_taken (hacc.value payment hsettled))
  posted := rfl

theorem Posted.snoc (h : Posted P profile issued graph known chain payments ledger)
    (hposts : PostsPayment ledger (payment.entry P) (ledger.post (payment.entry P)))
    (hsettled : Settled P profile graph known chain payment)
    (hfresh : ∀ kept ∈ payments, kept.key ≠ payment.key) :
    Posted P profile issued graph known chain (payments ++ [payment])
      (ledger.post (payment.entry P)) where
  run := by
    rw [List.map_append]
    exact Run.snoc h.run hposts
  settled kept hmem := by
    rcases List.mem_append.mp hmem with hold | hnew
    · exact h.settled kept hold
    · exact List.mem_singleton.mp hnew ▸ hsettled
  once := by
    rw [List.map_append, List.nodup_append]
    refine ⟨h.once, List.nodup_singleton _, ?_⟩
    intro key hkey other hother
    obtain ⟨kept, hmem, rfl⟩ := List.mem_map.mp hkey
    rw [List.mem_singleton.mp hother]
    exact hfresh kept hmem

/-! ### The graph, vertex by vertex -/

/-- One more vertex.  If it proves a settled payment of a new key, the payment is posted;
    otherwise the payments cover it as they are. -/
theorem Posted.vertex (hspent : NonMembershipSound P)
    (hwhole : ReadOnChain P profile issued larger wider node)
    (hacc : Accountable P profile larger wider node.nullifierAccum)
    {v : PaymentVertex (Finset CoinIdOnChain) Nav}
    {next : List (EdgeLabel (Finset CoinIdOnChain) Nav)}
    (hgraph : graph ++ [v] ⊆ larger) (hnext : next ⊆ wider)
    (hread : ReadOnChain P profile issued graph known node)
    (hv : Extends (Complies P profile) known v next)
    (h : Posted P profile issued larger wider node.nullifierAccum payments ledger)
    (hcovers : Covers P profile graph known node.nullifierAccum payments) :
    ∃ later ledger,
      Posted P profile issued larger wider node.nullifierAccum (payments ++ later) ledger ∧
        Covers P profile (graph ++ [v]) next node.nullifierAccum (payments ++ later) := by
  have hold : graph ⊆ larger := fun u hu => hgraph (List.mem_append_left _ hu)
  have hknown : known ⊆ wider := List.Subset.trans hv.subset hnext
  by_cases hnew : ∃ payment, Settled P profile (graph ++ [v]) next node.nullifierAccum payment ∧
      ∀ kept ∈ payments, kept.key ≠ payment.key
  · -- a key the ledger does not have yet: its payment is the one of the new vertex
    obtain ⟨payment, hsettled, hfresh⟩ := hnew
    have hpays : Pays P v payment.prevState payment.prevCoins payment.init := by
      rcases hsettled.of_snoc hread.compliant with hbefore | hpays
      · -- a payment settled before the vertex has its key in the ledger
        obtain ⟨kept, hmem, hkey⟩ := hcovers payment hbefore
        exact absurd hkey (hfresh kept hmem)
      · exact hpays
    have hwide := hsettled.mono hgraph hnext (List.prefix_refl _)
    have hposts := h.posts hspent hwhole hacc hold hknown hread hcovers hwide hpays hv.2.1 hfresh
    refine ⟨[payment], _, h.snoc hposts hwide hfresh, ?_⟩
    intro other hother
    rcases hother.of_snoc hread.compliant with hbefore | hpays'
    · -- settled without the vertex, so its key was covered
      obtain ⟨kept, hmem, hkey⟩ := hcovers other hbefore
      exact ⟨kept, List.mem_append_left _ hmem, hkey⟩
    · -- the vertex is one payment, so it has one key
      obtain ⟨hstate, -⟩ := hpays.unique hpays' rfl rfl
      refine ⟨payment, List.mem_append_right _ (List.mem_singleton_self _), ?_⟩
      rw [Payment.key, Payment.key, hstate]
  · -- every settled payment has its key in the ledger already, also when it settles only through
    -- the new vertex
    refine ⟨[], ledger, (List.append_nil payments).symm ▸ h, ?_⟩
    intro other hother
    by_contra hnone
    apply hnew
    refine ⟨other, hother, fun kept hmem hkey => hnone ⟨kept, ?_, hkey⟩⟩
    exact List.mem_append_left _ hmem

end PartyMix
